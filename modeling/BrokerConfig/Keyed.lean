namespace BrokerConfig.Keyed

variable {α κ : Type} [DecidableEq κ] (key : α → κ)

def find? (k : κ) (entries : List α) : Option α :=
  entries.find? fun entry => key entry = k

def put (entry : α) : List α → List α
  | [] => [entry]
  | other :: rest => if key other = key entry then entry :: rest else other :: put entry rest

def remove (k : κ) (entries : List α) : List α :=
  entries.filter fun entry => key entry ≠ k

/-- The entry of a key that comes last wins, at the place of the first. -/
def collapse (entries : List α) : List α :=
  entries.foldl (fun kept entry => put key entry kept) []

theorem map_put (entry : α) (entries : List α) :
    (put key entry entries).map key =
      if key entry ∈ entries.map key then entries.map key else entries.map key ++ [key entry] := by
  induction entries with
  | nil => simp [put]
  | cons other rest ih =>
    by_cases h : key other = key entry
    · simp [put, h]
    · have h' : key entry ≠ key other := fun e => h e.symm
      by_cases hm : key entry ∈ rest.map key <;> simp_all [put]

theorem nodup_put (entry : α) {entries : List α} (h : (entries.map key).Nodup) :
    ((put key entry entries).map key).Nodup := by
  rw [map_put]
  split
  · exact h
  · rename_i hm
    rw [List.nodup_append]
    refine ⟨h, by simp, ?_⟩
    intro a ha b hb
    simp only [List.mem_singleton] at hb
    subst hb
    intro e
    exact hm (e ▸ ha)

theorem nodup_remove (k : κ) {entries : List α} (h : (entries.map key).Nodup) :
    ((remove key k entries).map key).Nodup :=
  h.sublist (List.filter_sublist.map key)

theorem nodup_collapse (entries : List α) : ((collapse key entries).map key).Nodup := by
  suffices ∀ kept : List α, (kept.map key).Nodup →
      ((entries.foldl (fun kept entry => put key entry kept) kept).map key).Nodup from
    this [] (by simp)
  induction entries with
  | nil => intro kept h; exact h
  | cons entry rest ih => intro kept h; exact ih _ (nodup_put key entry h)

theorem put_of_not_mem {entry : α} {entries : List α} (h : key entry ∉ entries.map key) :
    put key entry entries = entries ++ [entry] := by
  induction entries with
  | nil => rfl
  | cons other rest ih =>
    simp only [List.map_cons, List.mem_cons, not_or] at h
    have ho : key other ≠ key entry := fun e => h.1 e.symm
    simp [put, ho, ih h.2]

theorem collapse_of_nodup {entries : List α} (h : (entries.map key).Nodup) :
    collapse key entries = entries := by
  suffices ∀ kept : List α, ((kept ++ entries).map key).Nodup →
      entries.foldl (fun kept entry => put key entry kept) kept = kept ++ entries by
    simpa [collapse] using this [] (by simpa using h)
  clear h
  induction entries with
  | nil => simp
  | cons entry rest ih =>
    intro kept hk
    have hm : key entry ∉ kept.map key := by
      intro hm
      rw [List.map_append, List.nodup_append] at hk
      exact hk.2.2 _ hm _ (by simp) rfl
    rw [List.foldl_cons, put_of_not_mem key hm, ih _ (by simpa using hk)]
    simp

theorem find?_put (entry : α) (k : κ) (entries : List α) :
    find? key k (put key entry entries) =
      if key entry = k then some entry else find? key k entries := by
  induction entries with
  | nil => by_cases h : key entry = k <;> simp [put, find?, h]
  | cons other rest ih =>
    by_cases ho : key other = key entry
    · by_cases h : key entry = k <;> simp [put, find?, ho, h]
    · by_cases h : key other = k
      · subst h
        have hk : key entry ≠ key other := fun e => ho e.symm
        simp [put, find?, ho, hk]
      · simp only [find?] at ih
        simp [put, find?, ho, h, ih]

theorem find?_remove (j k : κ) (entries : List α) :
    find? key k (remove key j entries) = if k = j then none else find? key k entries := by
  induction entries with
  | nil => simp [remove, find?]
  | cons other rest ih =>
    simp only [find?, remove] at ih
    by_cases hj : key other = j
    · by_cases hk : k = j
      · simp_all [remove, find?]
      · have : j ≠ k := fun e => hk e.symm
        simp_all [remove, find?]
    · by_cases hk : key other = k
      · have : k ≠ j := fun e => hj (hk.trans e)
        simp_all [remove, find?]
      · simp_all [remove, find?]

end BrokerConfig.Keyed
