import BrokerConfig.Record.Set

/-!
A configuration store in memory. A store that has never held a configuration is filled at its first
opening. All else needs an open store, and closing keeps the records.
-/

namespace BrokerConfig

inductive StoreError
  | notOpen
  | unknownRecord (id : RecordId)
  | duplicateRecord (id : RecordId)
  deriving DecidableEq

def StoreError.message : StoreError → String
  | notOpen => "configuration store is not open"
  | unknownRecord id => "record " ++ id.print ++ " does not exist in the configuration store"
  | duplicateRecord id => "record " ++ id.print ++ " already exists in the configuration store"

structure Store where
  isOpen : Bool
  initialized : Bool
  contents : RecordSet
  deriving DecidableEq

abbrev StoreM := EStateM StoreError Store

namespace Store

def new : Store := ⟨false, false, RecordSet.empty⟩

def ofRecords (records : List Record) : Store := ⟨false, true, RecordSet.ofList records⟩

def openWith (initial : List Record) : StoreM Bool := do
  let isNew := !(← get).initialized
  if isNew then
    modify fun s => { s with contents := RecordSet.ofList initial, initialized := true }
  modify fun s => { s with isOpen := true }
  return isNew

def requireOpen : StoreM Unit := do
  if !(← get).isOpen then throw .notOpen

def reload : StoreM (List Record) := do
  requireOpen
  return (← get).contents.records

def update (create : Bool) (records : List Record) : StoreM Unit := do
  requireOpen
  let contents := (← get).contents
  match records.find? fun r => !create && !contents.contains r.id with
  | some unknown => throw (.unknownRecord unknown.id)
  | none => modify fun s => { s with contents := s.contents.insertAll records }

def removeOne (r : Record) : StoreM Bool := do
  let present := (← get).contents.contains r.id
  modify fun s => { s with contents := s.contents.erase r.id }
  return present

def removeEach : List Record → StoreM (List RecordId)
  | [] => pure []
  | r :: rest => do
    let present ← removeOne r
    let removed ← removeEach rest
    return if present then r.id :: removed else removed

def remove (records : List Record) : StoreM (List RecordId) := do
  requireOpen
  removeEach records

def create (r : Record) : StoreM Unit := do
  requireOpen
  if (← get).contents.contains r.id then throw (.duplicateRecord r.id)
  modify fun s => { s with contents := s.contents.insert r }

def close : StoreM Unit := modify fun s => { s with isOpen := false }

end Store

end BrokerConfig
