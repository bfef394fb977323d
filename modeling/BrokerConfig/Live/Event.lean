import BrokerConfig.Live.Entity
import BrokerConfig.Store
import BrokerConfig.Upgrade.Event

namespace BrokerConfig.Live

inductive Event
  | upgrade (e : Upgrade.Event)
  | opened (records : Nat) (isNew : Bool)
  | persistedUpgrade (updated deleted : Nat)
  | hostUpgraded (host source final : String)
  | recovering (records : Nat) (isNew : Bool)
  | attached (objects : Nat)
  | hostAdded (id : RecordId)
  | persistingChild (child : Entity)
  | persistFailed (object : Entity) (e : StoreError)
  | attributeFailed (key : String) (object : Entity) (e : StoreError)
  | removeFailed (object : Entity) (e : StoreError)
  deriving DecidableEq

namespace Event

def level : Event → Log.Level
  | upgrade e => e.level
  | persistFailed .. | attributeFailed .. | removeFailed .. => .error
  | hostUpgraded .. | hostAdded _ => .info
  | opened .. | persistedUpgrade .. | recovering .. | attached _ | persistingChild _ => .debug

def message : Event → String
  | upgrade e => e.message
  | opened records isNew =>
    "Opened configuration store (" ++ toString records ++ " records, new: " ++ toString isNew ++ ")"
  | persistedUpgrade updated deleted =>
    "Persisted upgrade: " ++ toString updated ++ " updated, " ++ toString deleted ++ " deleted"
  | hostUpgraded host source final =>
    "Virtual host " ++ host ++ " configuration upgraded from " ++ source ++ " to " ++ final
  | recovering records isNew =>
    "Recovering " ++ toString records ++ " records (new store: " ++ toString isNew ++ ")"
  | attached objects => "Attached store listener to " ++ toString objects ++ " durable objects"
  | hostAdded id => "Virtual host " ++ id.print ++ " added; persisting durable configuration"
  | persistingChild child => "Persisting new child " ++ child.describe
  | persistFailed object e => "Failed to persist " ++ object.describe ++ ": " ++ e.message
  | attributeFailed key object e =>
    "Failed to persist attribute '" ++ key ++ "' of " ++ object.describe ++ ": " ++ e.message
  | removeFailed object e => "Failed to remove " ++ object.describe ++ ": " ++ e.message

end Event

end BrokerConfig.Live
