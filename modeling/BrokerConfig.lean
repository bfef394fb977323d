import BrokerConfig.Live.Recovery
import BrokerConfig.Proofs.Blocks
import BrokerConfig.Proofs.Confinement
import BrokerConfig.Proofs.Departures
import BrokerConfig.Proofs.DurableLists
import BrokerConfig.Proofs.FailedCalls
import BrokerConfig.Proofs.IgnoredSelectors
import BrokerConfig.Proofs.LegacyBindings
import BrokerConfig.Proofs.ListenerPlacement
import BrokerConfig.Proofs.Mirroring
import BrokerConfig.Proofs.Orphans
import BrokerConfig.Proofs.PromotedSettings
import BrokerConfig.Proofs.RecordTexts
import BrokerConfig.Proofs.Resume
import BrokerConfig.Proofs.Stocking
import BrokerConfig.Proofs.StoreHistory
import BrokerConfig.Proofs.Traversals
import BrokerConfig.Proofs.UpgradeFailures
import BrokerConfig.Proofs.VisitOrder
import BrokerConfig.Proofs.WriteBack
import BrokerConfig.Sample
import BrokerConfig.Upgrade.ConfigText
import BrokerConfig.Proofs.CommitTotals
import BrokerConfig.Proofs.WaitingChanges
