import BrokerConfig.Record.Basic
import BrokerConfig.Upgrade.Host

namespace BrokerConfig.Log

inductive Level
  | error
  | warn
  | info
  | debug
  deriving DecidableEq

namespace Level

def rank : Level → Nat
  | error => 0
  | warn => 1
  | info => 2
  | debug => 3

def label : Level → String
  | error => "ERROR"
  | warn => "WARN"
  | info => "INFO"
  | debug => "DEBUG"

def keptAt (level least : Level) : Bool := level.rank ≤ least.rank

end Level

def line (level : Level) (message : String) : String := level.label ++ " " ++ message

end BrokerConfig.Log

namespace BrokerConfig.Upgrade

inductive Event
  | nothingToUpgrade
  | upgrading (records : Nat) (source target : String)
  | running (step : String) (records : Nat)
  | removingSelectors (binding : Record)
  | deletingOrphan (binding : Record)
  | creatingDefault (exchange : DefaultExchange)
  | deadLetterExchangeMissing (exchange : String) (queue : Record)
  | droppingBindings (count : Nat) (exchange : RecordId)
  | consolidated (count : Nat) (exchange : Record)
  | committed (step source target : String) (updated deleted : Nat)
  | upgraded (version : String)
  deriving DecidableEq

namespace Event

def level : Event → Log.Level
  | deletingOrphan _ | deadLetterExchangeMissing .. | droppingBindings .. => .warn
  | upgrading .. | committed .. | upgraded _ => .info
  | nothingToUpgrade | running .. | removingSelectors _ | creatingDefault _ | consolidated .. =>
    .debug

def message : Event → String
  | nothingToUpgrade => "No configuration records; nothing to upgrade"
  | upgrading records source target =>
    "Upgrading " ++ toString records ++ " configuration records from model version " ++ source ++
      " to " ++ target
  | running step records => "Running " ++ step ++ " over " ++ toString records ++ " records"
  | removingSelectors binding => "Removing selector arguments from " ++ binding.describe
  | deletingOrphan binding =>
    "Deleting binding " ++ binding.describe ++ " with missing exchange or queue"
  | creatingDefault exchange => "Creating default exchange " ++ exchange.name
  | deadLetterExchangeMissing exchange queue =>
    "Dead-letter exchange '" ++ exchange ++ "' for " ++ queue.describe ++
      " not found; alternate exchange left unset"
  | droppingBindings count exchange =>
    "Dropping " ++ toString count ++ " binding(s) for unknown exchange " ++ exchange.print
  | consolidated count exchange =>
    "Consolidated " ++ toString count ++ " binding(s) onto " ++ exchange.describe
  | committed step source target updated deleted =>
    "Committed " ++ step ++ " (" ++ source ++ " -> " ++ target ++ "): " ++ toString updated ++
      " updated, " ++ toString deleted ++ " deleted"
  | upgraded version => "Configuration store upgraded to model version " ++ version

end Event

end BrokerConfig.Upgrade
