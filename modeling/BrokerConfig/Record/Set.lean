import BrokerConfig.Record.Basic

namespace BrokerConfig

structure RecordSet where
  records : List Record
  distinct : (records.map Record.id).Nodup
  deriving DecidableEq

namespace RecordSet

def empty : RecordSet := ⟨[], by simp⟩

def ids (s : RecordSet) : List RecordId := s.records.map Record.id

def size (s : RecordSet) : Nat := s.records.length

def isEmpty (s : RecordSet) : Bool := s.records.isEmpty

def get? (s : RecordSet) (id : RecordId) : Option Record := Keyed.find? Record.id id s.records

def contains (s : RecordSet) (id : RecordId) : Bool := (s.get? id).isSome

def insert (s : RecordSet) (r : Record) : RecordSet :=
  ⟨Keyed.put Record.id r s.records, Keyed.nodup_put _ _ s.distinct⟩

def erase (s : RecordSet) (id : RecordId) : RecordSet :=
  ⟨Keyed.remove Record.id id s.records, Keyed.nodup_remove _ _ s.distinct⟩

def insertAll (s : RecordSet) (rs : List Record) : RecordSet := rs.foldl insert s

def eraseAll (s : RecordSet) (ids : List RecordId) : RecordSet := ids.foldl erase s

def ofList (rs : List Record) : RecordSet := empty.insertAll rs

def root? (s : RecordSet) : Option Record := s.records.find? Record.isRoot

def same (s t : RecordSet) : Bool :=
  s.size = t.size && s.records.all fun r =>
    match t.get? r.id with
    | some other => r.same other
    | none => false

theorem get?_insert (s : RecordSet) (r : Record) (id : RecordId) :
    (s.insert r).get? id = if r.id = id then some r else s.get? id :=
  Keyed.find?_put ..

theorem get?_erase (s : RecordSet) (j id : RecordId) :
    (s.erase j).get? id = if id = j then none else s.get? id :=
  Keyed.find?_remove ..

theorem ids_insert (s : RecordSet) (r : Record) :
    (s.insert r).ids = if r.id ∈ s.ids then s.ids else s.ids ++ [r.id] :=
  Keyed.map_put ..

theorem ofList_records (s : RecordSet) : ofList s.records = s := by
  suffices ∀ (rs : List Record) (kept : RecordSet),
      (kept.insertAll rs).records =
        rs.foldl (fun kept r => Keyed.put Record.id r kept) kept.records by
    obtain ⟨records, distinct⟩ := s
    have h := (this records empty).trans (Keyed.collapse_of_nodup Record.id distinct)
    unfold ofList
    generalize empty.insertAll records = t at h
    obtain ⟨_, _⟩ := t
    subst h
    rfl
  intro rs
  induction rs with
  | nil => intro kept; rfl
  | cons r rest ih => intro kept; exact ih (kept.insert r)

theorem id_of_get? {s : RecordSet} {id : RecordId} {r : Record} (h : s.get? id = some r) :
    r.id = id := by
  simpa using List.find?_some h

end RecordSet

end BrokerConfig
