import Mathlib.Data.List.Basic
import Mathlib.Data.List.Induction
import BrokerConfig.OrderedMap

namespace BrokerConfig

theorem Keyed.find?_eq_some_iff {α κ : Type} [DecidableEq κ] {key : α → κ} {entries : List α}
    (h : (entries.map key).Nodup) {k : κ} {a : α} :
    Keyed.find? key k entries = some a ↔ a ∈ entries ∧ key a = k := by
  induction entries with
  | nil => simp [Keyed.find?]
  | cons other rest ih =>
    obtain ⟨hk, hr⟩ := List.nodup_cons.1 h
    have ih := ih hr
    simp only [Keyed.find?] at ih ⊢
    by_cases ho : key other = k
    · have hne : a ∈ rest → key a ≠ k := fun ha e => hk (ho ▸ e ▸ List.mem_map_of_mem ha)
      simp only [List.find?_cons, ho, decide_true, Option.some.injEq, List.mem_cons]
      constructor
      · rintro rfl
        exact ⟨.inl rfl, ho⟩
      · rintro ⟨rfl | ha, hka⟩
        · rfl
        · exact absurd hka (hne ha)
    · simp only [List.find?_cons, ho, decide_false, ih, List.mem_cons]
      constructor
      · rintro ⟨ha, hka⟩
        exact ⟨.inr ha, hka⟩
      · rintro ⟨rfl | ha, hka⟩
        · exact absurd hka ho
        · exact ⟨ha, hka⟩

theorem Keyed.find?_eq_none_iff {α κ : Type} [DecidableEq κ] {key : α → κ} {entries : List α}
    {k : κ} : Keyed.find? key k entries = none ↔ k ∉ entries.map key := by
  simp [Keyed.find?]

theorem Keyed.find?_cons {α κ : Type} [DecidableEq κ] {key : α → κ} (entry : α) (rest : List α)
    (k : κ) :
    Keyed.find? key k (entry :: rest) =
      if key entry = k then some entry else Keyed.find? key k rest := by
  by_cases h : key entry = k <;> simp [Keyed.find?, h]

theorem Keyed.filter_key_eq {α κ : Type} [DecidableEq κ] {key : α → κ} {entries : List α}
    (h : (entries.map key).Nodup) (k : κ) :
    (entries.filter fun entry => key entry = k) = (Keyed.find? key k entries).toList := by
  induction entries with
  | nil => rfl
  | cons other rest ih =>
    obtain ⟨hk, hr⟩ := List.nodup_cons.1 h
    rw [Keyed.find?_cons, List.filter_cons, ih hr]
    by_cases ho : key other = k
    · subst ho
      simp [Keyed.find?_eq_none_iff.2 hk]
    · simp [ho]

theorem eraseDups_concat {α : Type} [DecidableEq α] (l : List α) (a : α) :
    (l ++ [a]).eraseDups = if a ∈ l then l.eraseDups else l.eraseDups ++ [a] := by
  rw [List.eraseDups_append]
  by_cases h : a ∈ l <;> simp [List.removeAll, h, List.eraseDups_cons]

theorem filter_eraseDups {α : Type} [DecidableEq α] (p : α → Bool) (l : List α) :
    (l.filter p).eraseDups = l.eraseDups.filter p := by
  induction l using List.reverseRecOn with
  | nil => rfl
  | append_singleton l a ih =>
    rw [List.filter_append, eraseDups_concat]
    by_cases ha : p a <;> by_cases hm : a ∈ l <;> simp [ha, hm, ih, eraseDups_concat]

theorem eraseDups_of_nodup {α : Type} [DecidableEq α] {l : List α} (h : l.Nodup) :
    l.eraseDups = l := by
  induction l using List.reverseRecOn with
  | nil => rfl
  | append_singleton l a ih =>
    rw [List.nodup_append] at h
    have ha : a ∉ l := fun ha => h.2.2 a ha a List.mem_cons_self rfl
    rw [eraseDups_concat, if_neg ha, ih h.1]

namespace Keyed

variable {α κ : Type} [DecidableEq κ] {key : α → κ}

theorem put_put {entry other : α} (h : key entry = key other) (entries : List α) :
    put key entry (put key other entries) = put key entry entries := by
  induction entries with
  | nil => simp [put, h]
  | cons first rest ih =>
    by_cases hf : key first = key other
    · simp [put, hf, h]
    · simp [put, hf, h, ih]

theorem remove_put {entry : α} {k : κ} (h : key entry ≠ k) (entries : List α) :
    remove key k (put key entry entries) = put key entry (remove key k entries) := by
  have hskip : ∀ (first : α) (rest : List α), key first = k →
      remove key k (first :: rest) = remove key k rest := by
    intro first rest hk
    simp [remove, hk]
  have hkeep : ∀ (first : α) (rest : List α), key first ≠ k →
      remove key k (first :: rest) = first :: remove key k rest := by
    intro first rest hk
    simp [remove, hk]
  induction entries with
  | nil => exact hkeep entry [] h
  | cons first rest ih =>
    by_cases hf : key first = key entry
    · rw [hkeep first rest (hf ▸ h), put, put, if_pos hf, if_pos hf, hkeep entry rest h]
    · rw [put, if_neg hf]
      by_cases hk : key first = k
      · rw [hskip first _ hk, hskip first _ hk, ih]
      · rw [hkeep first _ hk, hkeep first _ hk, put, if_neg hf, ih]

theorem mem_put {entry other : α} {entries : List α} (h : other ∈ put key entry entries) :
    other = entry ∨ other ∈ entries := by
  induction entries with
  | nil => exact .inl (List.mem_singleton.1 h)
  | cons first rest ih =>
    unfold put at h
    split at h
    · rcases List.mem_cons.1 h with rfl | h
      · exact .inl rfl
      · exact .inr (List.mem_cons_of_mem _ h)
    · rcases List.mem_cons.1 h with rfl | h
      · exact .inr List.mem_cons_self
      · exact (ih h).imp_right (List.mem_cons_of_mem _)

theorem mem_collapse {entry : α} {entries : List α} (h : entry ∈ collapse key entries) :
    entry ∈ entries := by
  suffices ∀ kept : List α, entry ∈ entries.foldl (fun kept entry => put key entry kept) kept →
      entry ∈ entries ∨ entry ∈ kept from
    (this [] h).resolve_right List.not_mem_nil
  clear h
  induction entries with
  | nil => exact fun _ h => .inr h
  | cons first rest ih =>
    intro kept h
    rcases ih _ h with h | h
    · exact .inl (List.mem_cons_of_mem _ h)
    · rcases mem_put h with rfl | h
      · exact .inl List.mem_cons_self
      · exact .inr h

end Keyed

namespace OrderedMap

variable {κ ν : Type} [DecidableEq κ]

theorem mem_entries_ofList {entry : κ × ν} {entries : List (κ × ν)}
    (h : entry ∈ (ofList entries).entries) : entry ∈ entries :=
  Keyed.mem_collapse h

omit [DecidableEq κ] in
theorem eq_of_entries {m n : OrderedMap κ ν} (h : m.entries = n.entries) : m = n := by
  cases m
  cases n
  cases h
  rfl

theorem insert_insert (m : OrderedMap κ ν) (k : κ) (v w : ν) :
    (m.insert k v).insert k w = m.insert k w := by
  have hk : Prod.fst (k, w) = Prod.fst (k, v) := rfl
  exact eq_of_entries (Keyed.put_put hk m.entries)

theorem erase_insert (m : OrderedMap κ ν) {k j : κ} (h : k ≠ j) (v : ν) :
    (m.insert k v).erase j = (m.erase j).insert k v :=
  eq_of_entries (Keyed.remove_put (h : Prod.fst (k, v) ≠ j) m.entries)

theorem get?_eq_some_iff {m : OrderedMap κ ν} {k : κ} {v : ν} :
    m.get? k = some v ↔ (k, v) ∈ m.entries := by
  simp only [get?, Option.map_eq_some_iff, Keyed.find?_eq_some_iff m.distinct]
  constructor
  · rintro ⟨entry, ⟨h, rfl⟩, rfl⟩
    exact h
  · intro h
    exact ⟨(k, v), ⟨h, rfl⟩, rfl⟩

theorem mem_entries_insert {m : OrderedMap κ ν} {k j : κ} {v w : ν} :
    (j, w) ∈ (m.insert k v).entries ↔ k = j ∧ v = w ∨ k ≠ j ∧ (j, w) ∈ m.entries := by
  rw [← get?_eq_some_iff, get?_insert, ← get?_eq_some_iff]
  by_cases h : k = j <;> simp [h]

theorem mem_values_insert {m : OrderedMap κ ν} {k : κ} {v w : ν}
    (h : w ∈ (m.insert k v).values) : w = v ∨ w ∈ m.values := by
  obtain ⟨⟨j, _⟩, hm, rfl⟩ := List.mem_map.1 h
  rcases mem_entries_insert.1 hm with ⟨_, rfl⟩ | ⟨_, hm⟩
  · exact .inl rfl
  · exact .inr (List.mem_map_of_mem hm)

theorem get?_foldl_insert (m : OrderedMap κ ν) {entries : List (κ × ν)}
    (hn : (entries.map Prod.fst).Nodup) (k : κ) :
    (entries.foldl (fun m entry => m.insert entry.1 entry.2) m).get? k =
      ((Keyed.find? Prod.fst k entries).map Prod.snd).or (m.get? k) := by
  induction entries generalizing m with
  | nil => simp [Keyed.find?]
  | cons entry rest ih =>
    obtain ⟨he, hn⟩ := List.nodup_cons.1 hn
    rw [List.foldl_cons, ih _ hn, get?_insert, Keyed.find?_cons]
    by_cases h : entry.1 = k
    · rw [Keyed.find?_eq_none_iff.2 (h ▸ he)]
      simp [h]
    · simp [h]

theorem get?_insertAll (m other : OrderedMap κ ν) (k : κ) :
    (m.insertAll other).get? k = (other.get? k).or (m.get? k) :=
  get?_foldl_insert m other.distinct k

theorem mem_keys_iff {m : OrderedMap κ ν} {k : κ} : k ∈ m.keys ↔ ∃ v, m.get? k = some v := by
  simp only [get?_eq_some_iff, keys, List.mem_map]
  constructor
  · rintro ⟨⟨_, v⟩, h, rfl⟩
    exact ⟨v, h⟩
  · rintro ⟨v, h⟩
    exact ⟨(k, v), h, rfl⟩

theorem contains_iff {m : OrderedMap κ ν} {k : κ} : m.contains k = true ↔ k ∈ m.keys := by
  rw [contains, Option.isSome_iff_exists, mem_keys_iff]

theorem ext_of_keys {m n : OrderedMap κ ν} (hk : m.keys = n.keys)
    (hg : ∀ k, m.get? k = n.get? k) : m = n := by
  have h : ∀ m : OrderedMap κ ν, m.entries = m.keys.filterMap fun k => (m.get? k).map (k, ·) := by
    intro m
    rw [keys, List.filterMap_map]
    refine Eq.symm ((List.filterMap_congr ?_).trans List.filterMap_some)
    rintro ⟨k, v⟩ hm
    simp [get?_eq_some_iff.2 hm]
  apply eq_of_entries
  rw [h m, h n, hk]
  simp only [hg]

theorem keys_insertAll (m other : OrderedMap κ ν) :
    (m.insertAll other).keys = m.keys ++ other.keys.filter (· ∉ m.keys) := by
  have h : ∀ entries : List (κ × ν),
      (entries.foldl (fun m entry => m.insert entry.1 entry.2) m).keys =
        m.keys ++ (entries.map Prod.fst).eraseDups.filter (· ∉ m.keys) := by
    intro entries
    induction entries using List.reverseRecOn with
    | nil => simp
    | append_singleton entries entry ih =>
      rw [List.foldl_append, List.foldl_cons, List.foldl_nil, keys_insert, ih, List.map_append,
        List.map_singleton, eraseDups_concat]
      generalize entries.map Prod.fst = before
      by_cases hm : entry.1 ∈ m.keys <;> by_cases hb : entry.1 ∈ before <;> simp [hm, hb]
  rw [insertAll, h, eraseDups_of_nodup other.distinct]
  rfl

theorem insertAll_insertAll (m other : OrderedMap κ ν) :
    m.insertAll (m.insertAll other) = m.insertAll other := by
  apply ext_of_keys
  · rw [keys_insertAll, keys_insertAll, List.filter_append, List.filter_filter]
    simp
  · intro k
    rw [get?_insertAll, get?_insertAll, Option.or_assoc]
    cases m.get? k <;> simp

def group (l : List (κ × List ν)) : OrderedMap κ (List ν) :=
  l.foldl (fun m entry => m.append entry.1 entry.2) empty

theorem group_concat (l : List (κ × List ν)) (entry : κ × List ν) :
    group (l ++ [entry]) = (group l).append entry.1 entry.2 := by
  simp [group]

theorem get?_group (l : List (κ × List ν)) (k : κ) :
    (group l).get? k = if k ∈ l.map Prod.fst then
      some (l.flatMap fun entry => if entry.1 = k then entry.2 else []) else none := by
  induction l using List.reverseRecOn with
  | nil => rfl
  | append_singleton l entry ih =>
    rw [group_concat, append, get?_insert, List.flatMap_append, List.flatMap_singleton]
    by_cases hk : entry.1 = k
    · have hmem : k ∈ (l ++ [entry]).map Prod.fst := List.mem_map.2 ⟨entry, by simp, hk⟩
      rw [if_pos hk, if_pos hmem, if_pos hk, hk, ih]
      split
      · rfl
      · rename_i hm
        have hnil : (l.flatMap fun entry => if entry.1 = k then entry.2 else []) = [] := by
          rw [List.flatMap_eq_nil_iff]
          intro other ho
          rw [if_neg]
          rintro rfl
          exact hm (List.mem_map_of_mem ho)
        rw [hnil]
        rfl
    · have hmem : k ∈ (l ++ [entry]).map Prod.fst ↔ k ∈ l.map Prod.fst := by
        rw [List.map_append, List.mem_append, List.map_singleton, List.mem_singleton]
        exact or_iff_left fun e => hk e.symm
      rw [if_neg hk, if_neg hk, List.append_nil, ih]
      simp only [hmem]

theorem mem_group {l : List (κ × List ν)} {v : ν} {k : κ} :
    (∃ vs, (k, vs) ∈ (group l).entries ∧ v ∈ vs) ↔ ∃ vs, (k, vs) ∈ l ∧ v ∈ vs := by
  constructor
  · rintro ⟨vs, hm, hv⟩
    rw [← get?_eq_some_iff, get?_group] at hm
    split at hm
    · cases hm
      obtain ⟨⟨j, ws⟩, hw, hv⟩ := List.mem_flatMap.1 hv
      by_cases hj : j = k
      · rw [if_pos hj] at hv
        exact ⟨ws, hj ▸ hw, hv⟩
      · rw [if_neg hj] at hv
        cases hv
    · cases hm
  · rintro ⟨vs, hm, hv⟩
    refine ⟨_, get?_eq_some_iff.1 ((get?_group l k).trans (if_pos (List.mem_map.2 ⟨_, hm, rfl⟩))), ?_⟩
    exact List.mem_flatMap.2 ⟨_, hm, by simpa using hv⟩

theorem keys_group (l : List (κ × List ν)) : (group l).keys = (l.map Prod.fst).eraseDups := by
  induction l using List.reverseRecOn with
  | nil => rfl
  | append_singleton l entry ih =>
    rw [group_concat, append, keys_insert, ih, List.map_append, List.map_singleton,
      eraseDups_concat]
    simp only [List.mem_eraseDups]

theorem entries_group (l : List (κ × List ν)) : (group l).entries =
    (l.map Prod.fst).eraseDups.map fun k =>
      (k, l.flatMap fun entry => if entry.1 = k then entry.2 else []) := by
  have h : ∀ entry ∈ (group l).entries,
      (entry.1, l.flatMap fun other => if other.1 = entry.1 then other.2 else []) = entry := by
    intro entry he
    have hget := get?_eq_some_iff.2 he
    rw [get?_group] at hget
    split at hget
    · rw [Option.some.inj hget]
    · cases hget
  rw [← keys_group, keys, List.map_map]
  exact ((List.map_congr_left h).trans (List.map_id _)).symm

theorem flatMap_put_perm {β : Type} [DecidableEq β] {entries : List (κ × List ν)} {k : κ}
    {vs ws : List ν} (g : κ → ν → List β)
    (hf : Keyed.find? Prod.fst k entries = some (k, vs)) :
    ((Keyed.put Prod.fst (k, vs ++ ws) entries).flatMap fun e => e.2.flatMap (g e.1)).Perm
      ((entries.flatMap fun e => e.2.flatMap (g e.1)) ++ ws.flatMap (g k)) := by
  induction entries with
  | nil => cases hf
  | cons other rest ih =>
    by_cases ho : other.1 = k
    · have hv : other = (k, vs) := by simpa [Keyed.find?, ho] using hf
      rw [hv, List.perm_iff_count]
      intro b
      simp only [Keyed.put, if_true, List.flatMap_cons, List.flatMap_append, List.count_append]
      omega
    · have hrest : Keyed.find? Prod.fst k rest = some (k, vs) := by
        simpa [Keyed.find?, ho] using hf
      rw [Keyed.put, if_neg ho, List.flatMap_cons, List.flatMap_cons, List.append_assoc]
      exact (ih hrest).append_left _

theorem flatMap_group_perm {β : Type} [DecidableEq β] (l : List (κ × List ν))
    (g : κ → ν → List β) :
    ((group l).entries.flatMap fun e => e.2.flatMap (g e.1)).Perm
      (l.flatMap fun e => e.2.flatMap (g e.1)) := by
  induction l using List.reverseRecOn with
  | nil => exact .refl _
  | append_singleton l entry ih =>
    rw [group_concat, List.flatMap_append, List.flatMap_singleton]
    refine List.Perm.trans ?_ (ih.append_right _)
    unfold append insert
    cases hg : Keyed.find? Prod.fst entry.1 (group l).entries with
    | some found =>
      have hk : found.1 = entry.1 := by simpa using List.find?_some hg
      have hget : (group l).get? entry.1 = some found.2 := by rw [get?, hg]; rfl
      rw [hget, Option.getD_some]
      apply flatMap_put_perm
      rw [hg, ← hk]
    | none =>
      have hget : (group l).get? entry.1 = none := by rw [get?, hg]; rfl
      have hm : Prod.fst (entry.1, [] ++ entry.2) ∉ (group l).entries.map Prod.fst :=
        Keyed.find?_eq_none_iff.1 hg
      rw [hget]
      show (List.flatMap _ (Keyed.put Prod.fst (entry.1, [] ++ entry.2) _)).Perm _
      rw [Keyed.put_of_not_mem Prod.fst hm, List.flatMap_append, List.flatMap_singleton]
      exact .refl _

end OrderedMap

end BrokerConfig
