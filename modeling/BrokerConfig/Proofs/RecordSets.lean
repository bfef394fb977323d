import Mathlib.Data.List.Induction
import Mathlib.Data.List.Nodup
import BrokerConfig.Proofs.OrderedMaps
import BrokerConfig.Record.Changes

namespace BrokerConfig

namespace RecordSet

theorem get?_eq_some_iff {s : RecordSet} {id : RecordId} {r : Record} :
    s.get? id = some r ↔ r ∈ s.records ∧ r.id = id :=
  Keyed.find?_eq_some_iff s.distinct

theorem get?_of_mem {s : RecordSet} {r : Record} (h : r ∈ s.records) : s.get? r.id = some r :=
  get?_eq_some_iff.2 ⟨h, rfl⟩

theorem mem_of_get? {s : RecordSet} {id : RecordId} {r : Record} (h : s.get? id = some r) :
    r ∈ s.records :=
  (get?_eq_some_iff.1 h).1

theorem eq_of_mem {s : RecordSet} {r t : Record} (hr : r ∈ s.records) (ht : t ∈ s.records)
    (h : r.id = t.id) : r = t := by
  have hg := get?_of_mem hr
  rw [h, get?_of_mem ht] at hg
  exact (Option.some.inj hg).symm

theorem id_ne_of_split {s : RecordSet} {before after : List Record} {r : Record}
    (h : s.records = before ++ r :: after) : ∀ t ∈ before, t.id ≠ r.id := by
  intro t ht
  have hn := s.distinct
  rw [h, List.map_append, List.nodup_append] at hn
  exact hn.2.2 t.id (List.mem_map_of_mem ht) r.id (by simp)

theorem mem_ids {s : RecordSet} {id : RecordId} : id ∈ s.ids ↔ ∃ r ∈ s.records, r.id = id := by
  simp [ids]

theorem get?_eq_none_iff {s : RecordSet} {id : RecordId} : s.get? id = none ↔ id ∉ s.ids :=
  Keyed.find?_eq_none_iff

theorem contains_iff {s : RecordSet} {id : RecordId} : s.contains id = true ↔ id ∈ s.ids := by
  rw [contains, ← Decidable.not_iff_not, ← get?_eq_none_iff]
  cases s.get? id <;> simp

theorem contains_eq_decide (s : RecordSet) (id : RecordId) :
    s.contains id = decide (id ∈ s.ids) := by
  rw [Bool.eq_iff_iff, decide_eq_true_eq, contains_iff]

@[simp] theorem get?_empty (id : RecordId) : empty.get? id = none := rfl

@[simp] theorem ids_empty : empty.ids = [] := rfl

theorem ids_erase (s : RecordSet) (id : RecordId) : (s.erase id).ids = s.ids.filter (· ≠ id) := by
  simp only [ids, erase, Keyed.remove, List.filter_map]
  rfl

theorem mem_ids_insert {s : RecordSet} {r : Record} {id : RecordId} :
    id ∈ (s.insert r).ids ↔ id ∈ s.ids ∨ id = r.id := by
  rw [ids_insert]
  split
  · rename_i hr
    exact ⟨.inl, fun h => h.elim (fun hid => hid) fun hid => hid ▸ hr⟩
  · simp

theorem exists_get?_of_mem_ids {s : RecordSet} {id : RecordId} (h : id ∈ s.ids) :
    ∃ r, s.get? id = some r :=
  Option.isSome_iff_exists.1 (contains_iff.2 h)

theorem mem_erase {s : RecordSet} {id : RecordId} {r : Record} :
    r ∈ (s.erase id).records ↔ r ∈ s.records ∧ r.id ≠ id := by
  simp [erase, Keyed.remove]

theorem mem_insert {s : RecordSet} {r t : Record} :
    t ∈ (s.insert r).records ↔ t = r ∨ t ∈ s.records ∧ t.id ≠ r.id := by
  have h := @get?_eq_some_iff (s.insert r) t.id t
  rw [get?_insert] at h
  constructor
  · intro ht
    have hs := h.2 ⟨ht, rfl⟩
    by_cases hid : r.id = t.id
    · exact .inl (by simpa [hid] using hs.symm)
    · rw [if_neg hid] at hs
      exact .inr ⟨mem_of_get? hs, fun e => hid e.symm⟩
  · rintro (rfl | ⟨ht, hne⟩)
    · exact (h.1 (by simp)).1
    · rw [if_neg (fun e => hne e.symm)] at h
      exact (h.1 (get?_of_mem ht)).1

theorem get?_eraseAll (s : RecordSet) (gone : List RecordId) (id : RecordId) :
    (s.eraseAll gone).get? id = if id ∈ gone then none else s.get? id := by
  induction gone generalizing s with
  | nil => simp [eraseAll]
  | cons k rest ih =>
    have h := ih (s.erase k)
    rw [get?_erase] at h
    rw [show s.eraseAll (k :: rest) = (s.erase k).eraseAll rest from rfl, h]
    by_cases hk : id = k <;> simp [hk]

theorem records_eraseAll (s : RecordSet) (gone : List RecordId) :
    (s.eraseAll gone).records = s.records.filter fun r => r.id ∉ gone := by
  induction gone generalizing s with
  | nil => exact (List.filter_eq_self.2 (by simp)).symm
  | cons k rest ih =>
    have herase : (s.erase k).records = s.records.filter fun r => r.id ≠ k := rfl
    rw [show s.eraseAll (k :: rest) = (s.erase k).eraseAll rest from rfl, ih, herase,
      List.filter_filter]
    congr 1
    funext r
    by_cases hk : r.id = k <;> simp [hk]

theorem ids_eraseAll (s : RecordSet) (gone : List RecordId) :
    (s.eraseAll gone).ids = s.ids.filter (· ∉ gone) := by
  rw [ids, records_eraseAll, ids, List.filter_map]
  rfl

theorem get?_insertAll (s : RecordSet) {rs : List Record} (hn : (rs.map Record.id).Nodup)
    (id : RecordId) :
    (s.insertAll rs).get? id = (Keyed.find? Record.id id rs).or (s.get? id) := by
  induction rs generalizing s with
  | nil => simp [insertAll, Keyed.find?]
  | cons r rest ih =>
    obtain ⟨hr, hn⟩ := List.nodup_cons.1 hn
    rw [show s.insertAll (r :: rest) = (s.insert r).insertAll rest from rfl, ih _ hn, get?_insert,
      Keyed.find?_cons]
    by_cases h : r.id = id
    · rw [Keyed.find?_eq_none_iff.2 (h ▸ hr)]
      simp [h]
    · simp [h]

theorem insertAll_concat (s : RecordSet) (rs : List Record) (r : Record) :
    s.insertAll (rs ++ [r]) = (s.insertAll rs).insert r := by
  simp [insertAll]

theorem ids_insertAll_eraseDups (s : RecordSet) (rs : List Record) :
    (s.insertAll rs).ids = s.ids ++ (rs.map Record.id).eraseDups.filter (· ∉ s.ids) := by
  induction rs using List.reverseRecOn with
  | nil => simp [insertAll]
  | append_singleton rs r ih =>
    rw [insertAll_concat, ids_insert, ih, List.map_append, List.map_singleton, eraseDups_concat]
    generalize rs.map Record.id = before
    by_cases hs : r.id ∈ s.ids <;> by_cases hb : r.id ∈ before <;> simp [hs, hb]

theorem ids_insertAll (s : RecordSet) {rs : List Record} (hn : (rs.map Record.id).Nodup) :
    (s.insertAll rs).ids = s.ids ++ (rs.map Record.id).filter (· ∉ s.ids) := by
  rw [ids_insertAll_eraseDups, eraseDups_of_nodup hn]

theorem mem_ids_insertAll {s : RecordSet} {rs : List Record} {id : RecordId} :
    id ∈ (s.insertAll rs).ids ↔ id ∈ s.ids ∨ id ∈ rs.map Record.id := by
  induction rs generalizing s with
  | nil => simp [insertAll]
  | cons r rest ih =>
    rw [show s.insertAll (r :: rest) = (s.insert r).insertAll rest from rfl, ih, mem_ids_insert,
      List.map_cons, List.mem_cons, or_assoc]

def latest? (rs : List Record) (id : RecordId) : Option Record :=
  (rs.filter fun r => r.id = id).getLast?

theorem get?_insertAll_latest (s : RecordSet) (rs : List Record) (id : RecordId) :
    (s.insertAll rs).get? id = (latest? rs id).or (s.get? id) := by
  induction rs using List.reverseRecOn with
  | nil => rfl
  | append_singleton rs r ih =>
    rw [insertAll_concat, get?_insert, ih, latest?, latest?, List.filter_append]
    by_cases h : r.id = id <;> simp [h]

theorem get?_insertAll_ofList (s : RecordSet) (rs : List Record) (id : RecordId) :
    (s.insertAll rs).get? id = ((ofList rs).get? id).or (s.get? id) := by
  rw [ofList, get?_insertAll_latest, get?_insertAll_latest, get?_empty, Option.or_none]

theorem records_eq_filterMap (s : RecordSet) : s.records = s.ids.filterMap s.get? := by
  have h : ∀ rs : List Record, (∀ r ∈ rs, r ∈ s.records) →
      rs = (rs.map Record.id).filterMap s.get? := by
    intro rs
    induction rs with
    | nil => simp
    | cons r rest ih =>
      intro hs
      have hr := get?_of_mem (hs r (by simp))
      rw [List.map_cons, List.filterMap_cons, hr, ← ih fun t ht => hs t (by simp [ht])]
  exact h s.records fun _ hr => hr

theorem records_of_ids {s t : RecordSet} {p : RecordId → Bool} (h : t.ids = s.ids.filter p) :
    t.records = s.records.filterMap fun r => t.get? r.id := by
  rw [records_eq_filterMap t, h, List.filterMap_filter, ids, List.filterMap_map]
  apply List.filterMap_congr
  intro r _
  by_cases hp : p r.id
  · simp [hp]
  · have hnone : t.get? r.id = none := by
      rw [get?_eq_none_iff, h]
      simp [hp]
    simp [hp, hnone]

theorem find?_filter (s : RecordSet) (p : Record → Bool) (id : RecordId) :
    Keyed.find? Record.id id (s.records.filter p) = (s.get? id).filter p := by
  have hn : ((s.records.filter p).map Record.id).Nodup :=
    s.distinct.sublist (List.filter_sublist.map _)
  ext r
  rw [Keyed.find?_eq_some_iff hn, List.mem_filter, Option.filter_eq_some_iff, get?_eq_some_iff]
  exact and_right_comm

theorem nodup_records (s : RecordSet) : s.records.Nodup := List.Nodup.of_map _ s.distinct

theorem ids_filterMap_sublist {rs : List Record} {f : Record → Option Record}
    (h : ∀ r ∈ rs, ∀ u, f r = some u → u.id = r.id) :
    ((rs.filterMap f).map Record.id).Sublist (rs.map Record.id) := by
  induction rs with
  | nil => exact .slnil
  | cons r rest ih =>
    have ih := ih fun t ht => h t (by simp [ht])
    rw [List.filterMap_cons]
    cases hf : f r with
    | none => exact ih.cons _
    | some u =>
      rw [List.map_cons, List.map_cons, h r (by simp) u hf]
      exact ih.cons_cons _

theorem ext_of_ids {s t : RecordSet} (hi : s.ids = t.ids) (hg : ∀ id, s.get? id = t.get? id) :
    s = t := by
  have h : s.records = t.records := by
    rw [records_eq_filterMap s, records_eq_filterMap t, hi]
    congr 1
    funext id
    exact hg id
  obtain ⟨_, _⟩ := s
  obtain ⟨_, _⟩ := t
  subst h
  rfl

theorem get?_apply (s : RecordSet) (c : Changes) (id : RecordId) :
    (s.apply c).get? id =
      (c.updates.get? id).or (if id ∈ c.deletes.ids then none else s.get? id) := by
  rw [apply, get?_insertAll _ c.updates.distinct, get?_eraseAll]
  rfl

theorem ids_apply (s : RecordSet) (c : Changes) :
    (s.apply c).ids = s.ids.filter (· ∉ c.deletes.ids) ++
      c.updates.ids.filter (· ∉ s.ids.filter (· ∉ c.deletes.ids)) := by
  rw [apply, ids_insertAll _ c.updates.distinct, ids_eraseAll]
  rfl

theorem mem_apply {s : RecordSet} {c : Changes} {r : Record} :
    r ∈ (s.apply c).records ↔
      r ∈ c.updates.records ∨ r ∈ s.records ∧ r.id ∉ c.updates.ids ∧ r.id ∉ c.deletes.ids := by
  have h : r ∈ (s.apply c).records ↔ (s.apply c).get? r.id = some r :=
    ⟨get?_of_mem, mem_of_get?⟩
  rw [h, get?_apply]
  cases hu : c.updates.get? r.id with
  | some u =>
    have hid : r.id ∈ c.updates.ids := mem_ids.2 ⟨u, get?_eq_some_iff.1 hu⟩
    simp only [Option.some_or, Option.some.injEq, hid, not_true_eq_false, false_and, and_false,
      or_false]
    constructor
    · rintro rfl
      exact mem_of_get? hu
    · intro hr
      rw [get?_of_mem hr] at hu
      exact (Option.some.inj hu).symm
  | none =>
    have hid := get?_eq_none_iff.1 hu
    have hr : r ∉ c.updates.records := fun hr => hid (mem_ids.2 ⟨r, hr, rfl⟩)
    by_cases hd : r.id ∈ c.deletes.ids
    · simp [hr, hid, hd]
    · simp only [Option.none_or, hd, if_false, hr, hid, not_false_eq_true, and_true, false_or]
      exact ⟨mem_of_get?, get?_of_mem⟩

end RecordSet

namespace Changes

theorem foldl_update (rs : List Record) (c : Changes) :
    rs.foldl update c = ⟨c.updates.insertAll rs, c.deletes.eraseAll (rs.map Record.id)⟩ := by
  induction rs generalizing c with
  | nil => rfl
  | cons r rest ih => exact ih (c.update r)

theorem foldl_delete (rs : List Record) (c : Changes) :
    rs.foldl delete c = ⟨c.updates.eraseAll (rs.map Record.id), c.deletes.insertAll rs⟩ := by
  induction rs generalizing c with
  | nil => rfl
  | cons r rest ih => exact ih (c.delete r)

end Changes

end BrokerConfig
