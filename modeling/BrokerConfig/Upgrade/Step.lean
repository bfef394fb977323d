import BrokerConfig.Upgrade.BindingLists
import BrokerConfig.Upgrade.MissingExchanges
import BrokerConfig.Upgrade.QueuePolicy
import BrokerConfig.Upgrade.QueueSettings
import BrokerConfig.Upgrade.Selectors
import BrokerConfig.Upgrade.ShortTypes

namespace BrokerConfig.Upgrade

def initialVersion : String := "0.0"

def currentVersion : String := "7.0"

namespace RootVersion

def visit (target : String) (r : Record) : Pass Unit Unit :=
  if r.isRoot then Pass.moveTo target r else pure ()

def passes (target : String) : TwoPass := .recordwise (visit target)

end RootVersion

inductive Step
  | pruneSelectors
  | shortenTypes
  | promoteSettings
  | setQueuePolicy
  | addMissingExchanges
  | listBindings
  | bump (source target : String)
  deriving DecidableEq

namespace Step

def source : Step → String
  | pruneSelectors => Selectors.source
  | shortenTypes => ShortTypes.source
  | promoteSettings => QueueSettings.source
  | setQueuePolicy => QueuePolicy.source
  | addMissingExchanges => MissingExchanges.source
  | listBindings => BindingLists.source
  | bump source _ => source

def target : Step → String
  | pruneSelectors => Selectors.target
  | shortenTypes => ShortTypes.target
  | promoteSettings => QueueSettings.target
  | setQueuePolicy => QueuePolicy.target
  | addMissingExchanges => MissingExchanges.target
  | listBindings => BindingLists.target
  | bump _ target => target

def name : Step → String
  | pruneSelectors => "selector_pruning"
  | shortenTypes => "type_name_normalization"
  | promoteSettings => "queue_argument_flattening"
  | setQueuePolicy => "exclusivity_policy"
  | addMissingExchanges => "default_exchanges"
  | listBindings => "durable_bindings"
  | bump .. => "version_bump"

def passes (host : Host) : Step → TwoPass
  | pruneSelectors => Selectors.passes host
  | shortenTypes => ShortTypes.passes host
  | promoteSettings => QueueSettings.passes
  | setQueuePolicy => QueuePolicy.passes
  | addMissingExchanges => MissingExchanges.passes host
  | listBindings => BindingLists.passes
  | bump _ target => RootVersion.passes target

end Step

def standardChain : List Step :=
  [.pruneSelectors, .shortenTypes, .promoteSettings, .setQueuePolicy, .addMissingExchanges,
    .bump "2.0" "3.0", .bump "3.0" "6.0", .bump "6.0" "6.1", .listBindings]

end BrokerConfig.Upgrade
