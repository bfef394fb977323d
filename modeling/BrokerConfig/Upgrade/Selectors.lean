import BrokerConfig.Text
import BrokerConfig.Upgrade.TwoPass

/-!
From 0.0 to 0.1. Brokers used to ignore selector arguments on bindings to anything but topic
exchanges and now apply them everywhere, so they are removed where they were ignored. The exchange
of a binding may be visited after it, so all is decided on completion.
-/

namespace BrokerConfig.Upgrade.Selectors

open Json

def source : String := "0.0"

def target : String := "0.1"

def selector : String := "x-filter-jms-selector"

def noLocal : String := "x-qpid-no-local"

def hasSelector (arguments : Mapping) : Bool :=
  match arguments.get? selector with
  | some (.text s) => !Text.isBlank s
  | _ => false

def hasNoLocal (arguments : Mapping) : Bool :=
  match arguments.get? noLocal with
  | some (.bool b) => b
  | some (.text s) => Text.sameIgnoringCase s "true"
  | _ => false

def containsFilter (arguments : Mapping) : Bool :=
  hasSelector arguments || hasNoLocal arguments

def removeFilters (arguments : Mapping) : Mapping :=
  (arguments.erase selector).erase noLocal

/-- An exchange that is not among the records counts as a topic exchange if its id is that of the
default one. -/
def bindsTopic (topicId : RecordId) (records : RecordSet) (binding : Record) : Bool :=
  match binding.parent? Category.exchange with
  | none => false
  | some id =>
    match records.get? id with
    | some exchange => exchange.textAttribute? Attribute.type = some DefaultExchange.topic.routing
    | none => id = topicId

def prune? (topicId : RecordId) (records : RecordSet) (binding : Record) : Option Record :=
  match binding.arguments? with
  | some arguments =>
    if containsFilter arguments && !bindsTopic topicId records binding then
      some (binding.withAttribute Attribute.arguments (Value.ofMapping (removeFilters arguments)))
    else none
  | none => none

def settle (topicId : RecordId) (records : RecordSet) (r : Record) : Pass RecordSet Unit :=
  if r.isRoot then Pass.moveTo target r
  else if r.isCategory Category.binding then
    match prune? topicId records r with
    | some pruned => do
      Pass.report (.removingSelectors r)
      Pass.update pruned
    | none => pure ()
  else pure ()

def settleAll (topicId : RecordId) (records : RecordSet) : List Record → Pass RecordSet Unit
  | [] => pure ()
  | r :: rest => do
    settle topicId records r
    settleAll topicId records rest

def passes (host : Host) : TwoPass where
  State := RecordSet
  initial := RecordSet.empty
  visit r := Pass.modifyState (·.insert r)
  complete := do
    let records ← Pass.getState
    settleAll (host.defaultId .topic) records records.records

end BrokerConfig.Upgrade.Selectors
