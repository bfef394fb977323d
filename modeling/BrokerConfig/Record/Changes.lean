import BrokerConfig.Record.Set

namespace BrokerConfig

structure Changes where
  updates : RecordSet
  deletes : RecordSet
  deriving DecidableEq

namespace Changes

def empty : Changes := ⟨RecordSet.empty, RecordSet.empty⟩

def isEmpty (s : Changes) : Bool := s.updates.isEmpty && s.deletes.isEmpty

def update (s : Changes) (r : Record) : Changes :=
  ⟨s.updates.insert r, s.deletes.erase r.id⟩

def delete (s : Changes) (r : Record) : Changes :=
  ⟨s.updates.erase r.id, s.deletes.insert r⟩

/-- Takes back a waiting update; a delete that it had withdrawn does not return. -/
def withdrawUpdate (s : Changes) (id : RecordId) : Changes :=
  { s with updates := s.updates.erase id }

theorem updates_get?_update (s : Changes) (r : Record) (id : RecordId) :
    (s.update r).updates.get? id = if r.id = id then some r else s.updates.get? id :=
  RecordSet.get?_insert ..

theorem deletes_get?_update (s : Changes) (r : Record) (id : RecordId) :
    (s.update r).deletes.get? id = if id = r.id then none else s.deletes.get? id :=
  RecordSet.get?_erase ..

theorem updates_get?_delete (s : Changes) (r : Record) (id : RecordId) :
    (s.delete r).updates.get? id = if id = r.id then none else s.updates.get? id :=
  RecordSet.get?_erase ..

theorem deletes_get?_delete (s : Changes) (r : Record) (id : RecordId) :
    (s.delete r).deletes.get? id = if r.id = id then some r else s.deletes.get? id :=
  RecordSet.get?_insert ..

inductive Call
  | update (r : Record)
  | delete (r : Record)
  | withdrawUpdate (id : RecordId)
  deriving DecidableEq

def Call.id : Call → RecordId
  | update r | delete r => r.id
  | withdrawUpdate id => id

def perform (c : Changes) : Call → Changes
  | .update r => c.update r
  | .delete r => c.delete r
  | .withdrawUpdate id => c.withdrawUpdate id

def run (c : Changes) (calls : List Call) : Changes := calls.foldl perform c

end Changes

namespace RecordSet

def apply (s : RecordSet) (changes : Changes) : RecordSet :=
  (s.eraseAll changes.deletes.ids).insertAll changes.updates.records

def perform (s : RecordSet) : Changes.Call → RecordSet
  | .update r => s.insert r
  | .delete r => s.erase r.id
  | .withdrawUpdate _ => s

def run (s : RecordSet) (calls : List Changes.Call) : RecordSet := calls.foldl perform s

end RecordSet

end BrokerConfig
