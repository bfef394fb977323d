import BrokerConfig.Upgrade.TwoPass

/-!
From 0.1 to 0.2. Qualified category tags become short, and bindings whose exchange or queue is gone
are deleted. The default exchanges may still be without records, so their ids count as present.
-/

namespace BrokerConfig.Upgrade.ShortTypes

def source : String := "0.1"

def target : String := "0.2"

def isPresent (category : String) (records : RecordSet) (id : RecordId) : Bool :=
  match records.get? id with
  | some r => r.category = category
  | none => false

def isOrphan (host : Host) (records : RecordSet) (binding : Record) : Bool :=
  let exchangePresent := match binding.parent? Category.exchange with
    | some id => host.isDefaultId id || isPresent Category.exchange records id
    | none => false
  let queuePresent := match binding.parent? Category.queue with
    | some id => isPresent Category.queue records id
    | none => false
  !(exchangePresent && queuePresent)

def orphans (host : Host) (records : RecordSet) : List Record :=
  records.records.filter fun r => r.category = Category.binding && isOrphan host records r

def visit (r : Record) : Pass Unit Unit :=
  let renamed := r.withCategory r.shortCategory
  if renamed.category = Category.virtualHost then Pass.moveTo target renamed
  else Pass.update renamed

def deleteAll : List Record → Pass Unit Unit
  | [] => pure ()
  | r :: rest => do
    Pass.report (.deletingOrphan r)
    Pass.delete r
    deleteAll rest

def passes (host : Host) : TwoPass where
  State := Unit
  initial := ()
  visit := visit
  complete := do
    deleteAll (orphans host (← Pass.getChanges).updates)

end BrokerConfig.Upgrade.ShortTypes
