import BrokerConfig.Keyed

namespace BrokerConfig

structure OrderedMap (κ ν : Type) where
  entries : List (κ × ν)
  distinct : (entries.map Prod.fst).Nodup
  deriving DecidableEq

namespace OrderedMap

variable {κ ν : Type} [DecidableEq κ]

def empty : OrderedMap κ ν := ⟨[], by simp⟩

def keys (m : OrderedMap κ ν) : List κ := m.entries.map Prod.fst

def values (m : OrderedMap κ ν) : List ν := m.entries.map Prod.snd

def get? (m : OrderedMap κ ν) (k : κ) : Option ν :=
  (Keyed.find? Prod.fst k m.entries).map Prod.snd

def contains (m : OrderedMap κ ν) (k : κ) : Bool := (m.get? k).isSome

def insert (m : OrderedMap κ ν) (k : κ) (v : ν) : OrderedMap κ ν :=
  ⟨Keyed.put Prod.fst (k, v) m.entries, Keyed.nodup_put _ _ m.distinct⟩

def erase (m : OrderedMap κ ν) (k : κ) : OrderedMap κ ν :=
  ⟨Keyed.remove Prod.fst k m.entries, Keyed.nodup_remove _ _ m.distinct⟩

def ofList (entries : List (κ × ν)) : OrderedMap κ ν :=
  ⟨Keyed.collapse Prod.fst entries, Keyed.nodup_collapse _ _⟩

def insertAll (m other : OrderedMap κ ν) : OrderedMap κ ν :=
  other.entries.foldl (fun m entry => m.insert entry.1 entry.2) m

def append (m : OrderedMap κ (List ν)) (k : κ) (vs : List ν) : OrderedMap κ (List ν) :=
  m.insert k ((m.get? k).getD [] ++ vs)

@[simp] theorem get?_empty (k : κ) : (empty : OrderedMap κ ν).get? k = none := rfl

theorem get?_insert (m : OrderedMap κ ν) (k j : κ) (v : ν) :
    (m.insert k v).get? j = if k = j then some v else m.get? j := by
  unfold get? insert
  simp only [Keyed.find?_put]
  split <;> rfl

theorem get?_erase (m : OrderedMap κ ν) (k j : κ) :
    (m.erase k).get? j = if j = k then none else m.get? j := by
  unfold get? erase
  simp only [Keyed.find?_remove]
  split <;> rfl

theorem ofList_entries (m : OrderedMap κ ν) : ofList m.entries = m := by
  obtain ⟨entries, distinct⟩ := m
  simp only [ofList, Keyed.collapse_of_nodup Prod.fst distinct]

theorem keys_insert (m : OrderedMap κ ν) (k : κ) (v : ν) :
    (m.insert k v).keys = if k ∈ m.keys then m.keys else m.keys ++ [k] :=
  Keyed.map_put Prod.fst (k, v) m.entries

end OrderedMap

end BrokerConfig
