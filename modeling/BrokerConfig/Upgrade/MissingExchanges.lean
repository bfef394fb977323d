import BrokerConfig.Text
import BrokerConfig.Upgrade.TwoPass

/-!
From 0.4 to 2.0. Default exchanges that have no record get one, with the id that follows from their
name. Queues that asked for dead letters get as alternate exchange the one named after them with
the suffix; a queue whose exchange has not been visited yet is settled on completion.
-/

namespace BrokerConfig.Upgrade.MissingExchanges

open Json

def source : String := "0.4"

def target : String := "2.0"

def permanent : String := "PERMANENT"

structure Waiting where
  queue : Record
  exchange : String
  deriving DecidableEq

structure State where
  root : Option RecordId
  missing : List DefaultExchange
  exchanges : OrderedMap String RecordId
  waiting : OrderedMap RecordId Waiting

def start : State := ⟨none, DefaultExchange.all, OrderedMap.empty, OrderedMap.empty⟩

def wantsDeadLetters (queue : Record) : Bool :=
  match queue.attribute? Attribute.deadLetterEnabled with
  | some (.bool b) => b
  | some (.text s) => Text.sameIgnoringCase s "true"
  | _ => false

def hasAlternate (queue : Record) : Bool :=
  match queue.attribute? Attribute.alternateExchange with
  | some value => !value.isNull
  | none => false

def withAlternate (queue : Record) (exchange : RecordId) : Record :=
  queue.withAttribute Attribute.alternateExchange (.text exchange.print)

def newRecord (host : Host) (e : DefaultExchange) (root : RecordId) : Record :=
  Record.bare (host.defaultId e) Category.exchange
    |>.withAttribute Attribute.name (.text e.name)
    |>.withAttribute Attribute.type (.text e.routing)
    |>.withAttribute Attribute.lifetimePolicy (.text permanent)
    |>.withParent Category.virtualHost root

def seeExchange (exchange : Record) (s : State) : State :=
  match exchange.name? with
  | some name =>
    { s with
      missing := s.missing.filter fun e => e.name ≠ name
      exchanges := s.exchanges.insert name exchange.id }
  | none => s

def visitQueue (host : Host) (queue : Record) : Pass State Unit := do
  if wantsDeadLetters queue && !hasAlternate queue then
    match queue.name? with
    | none => throw (.missingQueueName queue.id)
    | some name =>
      if name = "" then throw (.missingQueueName queue.id)
      let exchange := host.deadLetterName name
      match (← Pass.getState).exchanges.get? exchange with
      | some id => Pass.update (withAlternate queue id)
      | none =>
        Pass.modifyState fun s =>
          { s with waiting := s.waiting.insert queue.id ⟨queue, exchange⟩ }

def visit (host : Host) (r : Record) : Pass State Unit :=
  if r.isRoot then do
    Pass.modifyState ({ · with root := some r.id })
    Pass.moveTo target r
  else if r.isCategory Category.exchange then Pass.modifyState (seeExchange r)
  else if r.isCategory Category.queue then visitQueue host r
  else pure ()

def createAll (host : Host) : List DefaultExchange → Pass State Unit
  | [] => pure ()
  | e :: rest => do
    match (← Pass.getState).root with
    | none => throw (.missingRootRecord e.name)
    | some root =>
      Pass.report (.creatingDefault e)
      Pass.modifyState fun s =>
        { s with exchanges := s.exchanges.insert e.name (host.defaultId e) }
      Pass.update (newRecord host e root)
      createAll host rest

def settleAll (exchanges : OrderedMap String RecordId) : List Waiting → Pass State Unit
  | [] => pure ()
  | w :: rest => do
    match exchanges.get? w.exchange with
    | some id => Pass.update (withAlternate w.queue id)
    | none => Pass.report (.deadLetterExchangeMissing w.exchange w.queue)
    settleAll exchanges rest

/-- What is missing and who is waiting is taken up once, even if completion fails. -/
def complete (host : Host) : Pass State Unit := do
  let missing := (← Pass.getState).missing
  Pass.modifyState ({ · with missing := [] })
  createAll host missing
  let s ← Pass.getState
  Pass.modifyState ({ · with waiting := OrderedMap.empty })
  settleAll s.exchanges s.waiting.values

def passes (host : Host) : TwoPass where
  State := State
  initial := start
  visit := visit host
  complete := complete host

end BrokerConfig.Upgrade.MissingExchanges
