import BrokerConfig.Json.Printer
import BrokerConfig.Upgrade.TwoPass

/-!
From 6.1 to 7.0. A binding used to be a record of its own, an entry in an exchange's inline list or
one in a queue's. All of them become entries in the durable list of their exchange. A queue's entry
names its exchange by id or by name and is captured once every exchange is known.
-/

namespace BrokerConfig.Upgrade.BindingLists

open Json

def source : String := "6.1"

def target : String := "7.0"

structure Captured where
  key : String
  queue : String
  arguments : Option Value
  deriving DecidableEq

structure State where
  captured : OrderedMap RecordId (List Captured)
  exchanges : RecordSet
  queueNames : OrderedMap RecordId String
  queueEntries : OrderedMap String (List Value)

def start : State := ⟨OrderedMap.empty, RecordSet.empty, OrderedMap.empty, OrderedMap.empty⟩

def asWord : Option Value → String
  | none | some .null => ""
  | some (.text s) => s
  | some other => other.print

/-- Arguments that are null count as absent. -/
def Captured.of (key queue : String) (arguments : Option Value) : Captured :=
  ⟨key, queue, arguments.filter fun v => !v.isNull⟩

def inlineEntries (r : Record) : List Value :=
  ((r.attribute? Attribute.bindings).bind Value.asArray?).getD []

def ofRecord (binding : Record) (queue : RecordId) : Captured :=
  .of (asWord (binding.attribute? Attribute.name)) queue.print
    (binding.attribute? Attribute.arguments)

def ofExchangeEntry (entry : Value) : Captured :=
  .of (asWord (entry.member? Attribute.name)) (asWord (entry.member? Attribute.queue))
    (entry.member? Attribute.arguments)

def ofQueueEntry (queue : String) (entry : Value) : Captured :=
  .of (asWord (entry.member? Attribute.name)) queue (entry.member? Attribute.arguments)

def capture (exchange : RecordId) (bindings : List Captured) (s : State) : State :=
  { s with captured := s.captured.append exchange bindings }

def visitBinding (binding : Record) : Pass State Unit := do
  match binding.parent? Category.exchange with
  | none => throw (.unresolvedParent binding.id binding.category Category.exchange)
  | some exchange =>
    match binding.parent? Category.queue with
    | none => throw (.unresolvedParent binding.id binding.category Category.queue)
    | some queue =>
      Pass.modifyState (capture exchange [ofRecord binding queue])
      Pass.delete binding

def seeExchange (exchange : Record) (s : State) : State :=
  let s := { s with exchanges := s.exchanges.insert exchange }
  if exchange.hasAttribute Attribute.bindings then
    capture exchange.id ((inlineEntries exchange).map ofExchangeEntry) s
  else s

def seeQueue (queue : Record) (s : State) : State :=
  let name := asWord (queue.attribute? Attribute.name)
  let s := { s with queueNames := s.queueNames.insert queue.id name }
  if queue.hasAttribute Attribute.bindings then
    { s with queueEntries := s.queueEntries.append name (inlineEntries queue) }
  else s

def visitQueue (queue : Record) : Pass State Unit := do
  Pass.modifyState (seeQueue queue)
  if queue.hasAttribute Attribute.bindings then
    Pass.update (queue.withoutAttribute Attribute.bindings)

def visit (r : Record) : Pass State Unit :=
  if r.isRoot then Pass.moveTo target r
  else if r.isCategory Category.binding then visitBinding r
  else if r.isCategory Category.exchange then Pass.modifyState (seeExchange r)
  else if r.isCategory Category.queue then visitQueue r
  else pure ()

def resolve? (exchanges : RecordSet) (reference : String) : Option RecordId :=
  let parsed := RecordId.ofText? reference
  match parsed.filter exchanges.contains with
  | some id => some id
  | none =>
    match exchanges.records.find? fun e => e.name? = some reference with
    | some exchange => some exchange.id
    | none => parsed

def destination (queueNames : OrderedMap RecordId String) (reference : String) : String :=
  ((RecordId.ofText? reference).bind queueNames.get?).getD reference

def captureEntries (queue : String) : List Value → Pass State Unit
  | [] => pure ()
  | entry :: rest => do
    let reference := asWord (entry.member? Attribute.exchange)
    match resolve? (← Pass.getState).exchanges reference with
    | none => throw (.unresolvedExchange queue reference)
    | some exchange =>
      Pass.modifyState (capture exchange [ofQueueEntry queue entry])
      captureEntries queue rest

def captureQueues : List (String × List Value) → Pass State Unit
  | [] => pure ()
  | (queue, entries) :: rest => do
    captureEntries queue entries
    captureQueues rest

def entry (queueNames : OrderedMap RecordId String) (binding : Captured) : Value :=
  let entry : Mapping := OrderedMap.ofList
    [(Attribute.bindingKey, .text binding.key),
      (Attribute.destination, .text (destination queueNames binding.queue))]
  .ofMapping <| match binding.arguments with
    | some arguments => entry.insert Attribute.arguments arguments
    | none => entry

def withDurable (exchange : Record) (entries : List Value) : Record :=
  exchange.withAttributes
    ((exchange.attributes.erase Attribute.bindings).insert Attribute.durableBindings
      (.array entries))

def settle (s : State) (exchangeId : RecordId) (bindings : List Captured) : Pass State Unit := do
  match s.exchanges.get? exchangeId with
  | none => Pass.report (.droppingBindings bindings.length exchangeId)
  | some exchange =>
    Pass.report (.consolidated bindings.length exchange)
    Pass.update (withDurable exchange (bindings.map (entry s.queueNames)))

def settleAll (s : State) : List (RecordId × List Captured) → Pass State Unit
  | [] => pure ()
  | (exchange, bindings) :: rest => do
    settle s exchange bindings
    settleAll s rest

/-- The entries of queues are taken up once, even if one of them cannot be resolved. -/
def complete : Pass State Unit := do
  let entries := (← Pass.getState).queueEntries
  Pass.modifyState ({ · with queueEntries := OrderedMap.empty })
  captureQueues entries.entries
  let s ← Pass.getState
  settleAll s s.captured.entries

def passes : TwoPass where
  State := State
  initial := start
  visit := visit
  complete := complete

end BrokerConfig.Upgrade.BindingLists
