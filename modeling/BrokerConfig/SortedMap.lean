namespace BrokerConfig

structure SortedMap (ν : Type) where
  entries : List (String × ν)
  sorted : entries.Pairwise fun a b => a.1 < b.1
  deriving DecidableEq

namespace SortedMap

variable {ν : Type}

def empty : SortedMap ν := ⟨[], .nil⟩

def place (k : String) (v : ν) : List (String × ν) → List (String × ν)
  | [] => [(k, v)]
  | (j, w) :: rest =>
    if k < j then (k, v) :: (j, w) :: rest
    else if k = j then (k, v) :: rest
    else (j, w) :: place k v rest

theorem mem_place {k : String} {v : ν} {entries : List (String × ν)} {entry : String × ν}
    (h : entry ∈ place k v entries) : entry = (k, v) ∨ entry ∈ entries := by
  induction entries with
  | nil => simpa [place] using h
  | cons other rest ih =>
    obtain ⟨j, w⟩ := other
    unfold place at h
    split at h
    · simpa using h
    · split at h
      · rcases List.mem_cons.1 h with rfl | h
        · exact .inl rfl
        · exact .inr (List.mem_cons_of_mem _ h)
      · rcases List.mem_cons.1 h with rfl | h
        · exact .inr (List.mem_cons_self ..)
        · rcases ih h with rfl | h
          · exact .inl rfl
          · exact .inr (List.mem_cons_of_mem _ h)

theorem sorted_place (k : String) (v : ν) {entries : List (String × ν)}
    (h : entries.Pairwise fun a b => a.1 < b.1) :
    (place k v entries).Pairwise fun a b => a.1 < b.1 := by
  induction entries with
  | nil => simp [place]
  | cons other rest ih =>
    obtain ⟨j, w⟩ := other
    have hr := List.pairwise_cons.1 h
    unfold place
    split
    · rename_i hk
      refine List.pairwise_cons.2 ⟨?_, h⟩
      intro entry hm
      rcases List.mem_cons.1 hm with rfl | hm
      · exact hk
      · exact String.lt_trans hk (hr.1 entry hm)
    · split
      · rename_i hk
        subst hk
        exact List.pairwise_cons.2 ⟨hr.1, hr.2⟩
      · rename_i hlt hne
        refine List.pairwise_cons.2 ⟨?_, ih hr.2⟩
        intro entry hm
        rcases mem_place hm with rfl | hm
        · apply Classical.byContradiction
          intro hjk
          exact hne (String.le_antisymm (String.not_lt.1 hjk) (String.not_lt.1 hlt))
        · exact hr.1 entry hm

def insert (m : SortedMap ν) (k : String) (v : ν) : SortedMap ν :=
  ⟨place k v m.entries, sorted_place k v m.sorted⟩

def get? (m : SortedMap ν) (k : String) : Option ν :=
  (m.entries.find? fun entry => entry.1 = k).map Prod.snd

def ofList (entries : List (String × ν)) : SortedMap ν :=
  entries.foldl (fun m entry => m.insert entry.1 entry.2) empty

end SortedMap

end BrokerConfig
