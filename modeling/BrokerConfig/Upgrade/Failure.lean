import BrokerConfig.Json.Printer
import BrokerConfig.Record.Id

namespace BrokerConfig.Upgrade

open Json

inductive ChainFlaw
  | empty
  | repeatedSource (version : String)
  | gap (step : String) (target : String) (next : String) (source : String)
  | wrongTarget (reached : String) (target : String)
  deriving DecidableEq

inductive Failure
  | unresolvedParent (id : RecordId) (category : String) (parent : String)
  | unresolvedExchange (queue : String) (reference : String)
  | missingQueueName (queue : RecordId)
  | missingRootRecord (exchange : String)
  | brokenChain (flaw : ChainFlaw)
  | unsupportedVersion (version : String) (target : String)
  | unreadableVersion (value : Value)
  | sink (source : String) (target : String) (cause : String)
  deriving DecidableEq

def ChainFlaw.message : ChainFlaw → String
  | empty => "chain is empty"
  | repeatedSource version => "more than one step from version " ++ version
  | gap step target next source =>
    step ++ " ends at " ++ target ++ " but " ++ next ++ " starts at " ++ source
  | wrongTarget reached target => "chain ends at " ++ reached ++ " instead of " ++ target

namespace Failure

def message : Failure → String
  | unresolvedParent id category parent =>
    category ++ " record " ++ id.print ++ " has no " ++ parent ++ " parent"
  | unresolvedExchange queue reference =>
    "binding on queue '" ++ queue ++ "' references unknown exchange '" ++ reference ++ "'"
  | missingQueueName queue =>
    "queue " ++ queue.print ++ " has no name in its configuration attributes"
  | missingRootRecord exchange =>
    "no virtual host record to parent synthesized exchange '" ++ exchange ++ "'"
  | brokenChain flaw => "broken upgrade chain: " ++ flaw.message
  | unsupportedVersion version target =>
    "no upgrade phase from model version '" ++ version ++ "' (target '" ++ target ++ "')"
  | unreadableVersion value => "model version attribute is not a string: " ++ value.print
  | sink source target _ => "failed to persist phase " ++ source ++ " -> " ++ target

def isConfigurationError : Failure → Bool
  | sink .. => false
  | _ => true

end Failure

end BrokerConfig.Upgrade
