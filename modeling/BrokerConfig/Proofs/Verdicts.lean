import BrokerConfig.Proofs.RecordSets
import BrokerConfig.Proofs.StepLoops

namespace BrokerConfig

inductive Verdict
  | keep
  | revise (u : Record)
  | drop (d : Record)

namespace Verdict

def revision? : Verdict → Option Record
  | revise u => some u
  | _ => none

def removal? : Verdict → Option Record
  | drop d => some d
  | _ => none

def left? (r : Record) : Verdict → Option Record
  | keep => some r
  | revise u => some u
  | drop _ => none

def About (id : RecordId) : Verdict → Prop
  | keep => True
  | revise u => u.id = id
  | drop d => d.id = id

theorem About.id_left? {v : Verdict} {r u : Record} (h : v.About r.id) (hu : v.left? r = some u) :
    u.id = r.id := by
  cases v with
  | keep => exact Option.some.inj hu ▸ rfl
  | revise t => exact Option.some.inj hu ▸ h
  | drop d => cases hu

end Verdict

namespace Changes

def take (c : Changes) : Verdict → Changes
  | .keep => c
  | .revise u => c.update u
  | .drop d => c.delete d

def decided (verdict : Record → Verdict) (rs : List Record) : Changes :=
  rs.foldl (fun c r => c.take (verdict r)) empty

variable {verdict : Record → Verdict}

theorem decided_concat (rs : List Record) (r : Record) :
    decided verdict (rs ++ [r]) = (decided verdict rs).take (verdict r) := by
  simp [decided]

theorem get?_take_of_ne {v : Verdict} {j id : RecordId} (h : v.About j) (hne : j ≠ id)
    (c : Changes) :
    (c.take v).updates.get? id = c.updates.get? id ∧
      (c.take v).deletes.get? id = c.deletes.get? id := by
  cases v with
  | keep => exact ⟨rfl, rfl⟩
  | revise u =>
    have hu : u.id ≠ id := h.symm ▸ hne
    exact ⟨(updates_get?_update ..).trans (if_neg hu), (deletes_get?_update ..).trans
      (if_neg hu.symm)⟩
  | drop d =>
    have hd : d.id ≠ id := h.symm ▸ hne
    exact ⟨(updates_get?_delete ..).trans (if_neg hd.symm), (deletes_get?_delete ..).trans
      (if_neg hd)⟩

theorem get?_decided {rs : List Record} (hn : (rs.map Record.id).Nodup)
    (hv : ∀ r ∈ rs, (verdict r).About r.id) (id : RecordId) :
    (decided verdict rs).updates.get? id =
        (Keyed.find? Record.id id rs).bind (fun r => (verdict r).revision?) ∧
      (decided verdict rs).deletes.get? id =
        (Keyed.find? Record.id id rs).bind fun r => (verdict r).removal? := by
  induction rs using List.reverseRecOn with
  | nil => exact ⟨rfl, rfl⟩
  | append_singleton rs r ih =>
    rw [List.map_append, List.nodup_append] at hn
    have ih := ih hn.1 fun t ht => hv t (by simp [ht])
    have hr := hv r (by simp)
    have hf : Keyed.find? Record.id id (rs ++ [r]) =
        (Keyed.find? Record.id id rs).or (if r.id = id then some r else none) := by
      by_cases h : r.id = id <;> simp [Keyed.find?, List.find?_append, h]
    rw [decided_concat, hf]
    by_cases h : r.id = id
    · have hnone : Keyed.find? Record.id id rs = none := by
        rw [Keyed.find?_eq_none_iff]
        exact fun hid => hn.2.2 id hid r.id (by simp) h.symm
      rw [hnone] at ih ⊢
      rw [if_pos h, Option.none_or, Option.bind_some, Option.bind_some]
      cases hverdict : verdict r with
      | keep => exact ih
      | revise u =>
        rw [hverdict] at hr
        exact ⟨(updates_get?_update ..).trans (if_pos (hr.trans h)),
          (deletes_get?_update ..).trans (if_pos (hr.trans h).symm)⟩
      | drop d =>
        rw [hverdict] at hr
        exact ⟨(updates_get?_delete ..).trans (if_pos (hr.trans h).symm),
          (deletes_get?_delete ..).trans (if_pos (hr.trans h))⟩
    · obtain ⟨hu, hd⟩ := get?_take_of_ne hr h (decided verdict rs)
      rw [hu, hd, if_neg h, Option.or_none]
      exact ih

theorem get?_foldl_update {α : Type} {key : α → RecordId} {f : α → Option Record} {l : List α}
    (hn : (l.map key).Nodup) (hf : ∀ a ∈ l, ∀ u, f a = some u → u.id = key a) (c : Changes)
    (id : RecordId) :
    (l.foldl (fun c a => (f a).elim c c.update) c).updates.get? id =
        ((Keyed.find? key id l).bind f).or (c.updates.get? id) ∧
      (l.foldl (fun c a => (f a).elim c c.update) c).deletes.get? id =
        if ((Keyed.find? key id l).bind f).isSome then none else c.deletes.get? id := by
  induction l generalizing c with
  | nil => exact ⟨rfl, rfl⟩
  | cons a rest ih =>
    obtain ⟨ha, hn⟩ := List.nodup_cons.1 hn
    have hrest := fun b hb => hf b (List.mem_cons_of_mem a hb)
    obtain ⟨hu, hd⟩ := ih hn hrest ((f a).elim c c.update)
    rw [List.foldl_cons, hu, hd]
    by_cases hk : key a = id
    · have hnone : Keyed.find? key id rest = none := Keyed.find?_eq_none_iff.2 (hk ▸ ha)
      rw [hnone, Keyed.find?_cons, if_pos hk]
      cases hu : f a with
      | none => simp [hu]
      | some u =>
        have hid : u.id = id := (hf a (by simp) u hu).trans hk
        simp [hu, updates_get?_update, deletes_get?_update, hid]
    · rw [Keyed.find?_cons, if_neg hk]
      cases hu : f a with
      | none => exact ⟨rfl, rfl⟩
      | some u =>
        have hid : u.id ≠ id := (hf a (by simp) u hu).symm ▸ hk
        simp [updates_get?_update, deletes_get?_update, hid, hid.symm]

end Changes

structure Decides (verdict : Record → Verdict) (created s : RecordSet) (c : Changes) : Prop where
  about : ∀ r ∈ s.records, (verdict r).About r.id
  updates : ∀ id, c.updates.get? id =
    (created.get? id).or ((s.get? id).bind fun r => (verdict r).revision?)
  deletes : ∀ id, c.deletes.get? id = (s.get? id).bind fun r => (verdict r).removal?

namespace Decides

variable {verdict : Record → Verdict} {created s : RecordSet} {c : Changes}

theorem decided (h : ∀ r ∈ s.records, (verdict r).About r.id) :
    Decides verdict RecordSet.empty s (Changes.decided verdict s.records) where
  about := h
  updates id := (Changes.get?_decided s.distinct h id).1
  deletes id := (Changes.get?_decided s.distinct h id).2

theorem get?_apply (h : Decides verdict created s c) (id : RecordId) :
    (s.apply c).get? id = (created.get? id).or ((s.get? id).bind fun r => (verdict r).left? r) := by
  have hd : id ∈ c.deletes.ids ↔ ((s.get? id).bind fun r => (verdict r).removal?).isSome := by
    rw [← h.deletes]
    exact RecordSet.contains_iff.symm
  rw [RecordSet.get?_apply, h.updates, Option.or_assoc]
  congr 1
  simp only [hd]
  cases s.get? id with
  | none => rfl
  | some r => cases hv : verdict r <;> simp [hv, Verdict.revision?, Verdict.removal?, Verdict.left?]

theorem mem_apply (h : Decides verdict created s c) {u : Record} :
    u ∈ (s.apply c).records ↔ u ∈ created.records ∨
      u.id ∉ created.ids ∧ ∃ r ∈ s.records, (verdict r).left? r = some u := by
  have hu : u ∈ (s.apply c).records ↔ (s.apply c).get? u.id = some u :=
    ⟨RecordSet.get?_of_mem, RecordSet.mem_of_get?⟩
  have hleft : ((s.get? u.id).bind fun r => (verdict r).left? r) = some u ↔
      ∃ r ∈ s.records, (verdict r).left? r = some u := by
    constructor
    · intro hb
      obtain ⟨r, hr, hl⟩ := Option.bind_eq_some_iff.1 hb
      exact ⟨r, RecordSet.mem_of_get? hr, hl⟩
    · rintro ⟨r, hr, hl⟩
      rw [(h.about r hr).id_left? hl, RecordSet.get?_of_mem hr]
      exact hl
  rw [hu, h.get?_apply]
  cases hc : created.get? u.id with
  | some t =>
    have ht := RecordSet.get?_eq_some_iff.1 hc
    have hid : u.id ∈ created.ids := RecordSet.mem_ids.2 ⟨t, ht⟩
    simp only [Option.some_or, Option.some.injEq, hid, not_true_eq_false, false_and, or_false]
    constructor
    · rintro rfl
      exact ht.1
    · intro hmem
      exact RecordSet.eq_of_mem ht.1 hmem ht.2
  | none =>
    have hid := RecordSet.get?_eq_none_iff.1 hc
    have hmem : u ∉ created.records := fun hmem => hid (RecordSet.mem_ids.2 ⟨u, hmem, rfl⟩)
    rw [Option.none_or, hleft]
    simp [hmem, hid]

theorem get?_of_mem (h : Decides verdict created s c) {r : Record} (hr : r ∈ s.records)
    (hfresh : r.id ∉ created.ids) : (s.apply c).get? r.id = (verdict r).left? r := by
  rw [h.get?_apply, RecordSet.get?_eq_none_iff.2 hfresh, Option.none_or, RecordSet.get?_of_mem hr]
  rfl

theorem mem_updates_ids (h : Decides verdict RecordSet.empty s c) {id : RecordId}
    (hu : id ∈ c.updates.ids) : id ∈ s.ids ∧ id ∉ c.deletes.ids := by
  obtain ⟨u, hu⟩ := RecordSet.exists_get?_of_mem_ids hu
  rw [h.updates, RecordSet.get?_empty, Option.none_or] at hu
  obtain ⟨r, hr, hv⟩ := Option.bind_eq_some_iff.1 hu
  refine ⟨RecordSet.contains_iff.1 (by rw [RecordSet.contains, hr]; rfl), ?_⟩
  rw [← RecordSet.get?_eq_none_iff, h.deletes, hr, Option.bind_some]
  cases hverdict : verdict r with
  | drop d =>
    rw [hverdict] at hv
    cases hv
  | _ => rfl

theorem records_apply (h : Decides verdict RecordSet.empty s c) :
    (s.apply c).records = s.records.filterMap fun r => (verdict r).left? r := by
  have hids : (s.apply c).ids = s.ids.filter (· ∉ c.deletes.ids) := by
    have hnew : c.updates.ids.filter (· ∉ s.ids.filter (· ∉ c.deletes.ids)) = [] := by
      rw [List.filter_eq_nil_iff]
      intro id hu
      simp [h.mem_updates_ids hu]
    rw [RecordSet.ids_apply, hnew, List.append_nil]
  rw [RecordSet.records_of_ids hids]
  apply List.filterMap_congr
  exact fun r hr => h.get?_of_mem hr List.not_mem_nil

theorem mem_apply_iff (h : Decides verdict RecordSet.empty s c) {u : Record} :
    u ∈ (s.apply c).records ↔ ∃ r ∈ s.records, (verdict r).left? r = some u := by
  rw [h.records_apply, List.mem_filterMap]

theorem records_apply_perm (h : Decides verdict created s c)
    (hfresh : ∀ id ∈ created.ids, id ∉ s.ids) :
    (s.apply c).records.Perm
      ((s.records.filterMap fun r => (verdict r).left? r) ++ created.records) := by
  have hsub : ((s.records.filterMap fun r => (verdict r).left? r).map Record.id).Sublist s.ids :=
    RecordSet.ids_filterMap_sublist fun r hr u hu => (h.about r hr).id_left? hu
  have hn : ((s.records.filterMap (fun r => (verdict r).left? r) ++ created.records).map
      Record.id).Nodup := by
    rw [List.map_append, List.nodup_append]
    refine ⟨s.distinct.sublist hsub, created.distinct, ?_⟩
    rintro id hid j hj rfl
    exact hfresh id hj (hsub.subset hid)
  rw [List.perm_ext_iff_of_nodup (s.apply c).nodup_records (List.Nodup.of_map _ hn)]
  intro u
  rw [h.mem_apply, List.mem_append, List.mem_filterMap, or_comm]
  constructor
  · rintro (⟨_, hl⟩ | hu)
    · exact .inl hl
    · exact .inr hu
  · rintro (⟨r, hr, hl⟩ | hu)
    · refine .inl ⟨fun hid => hfresh _ hid ?_, r, hr, hl⟩
      exact RecordSet.mem_ids.2 ⟨r, hr, ((h.about r hr).id_left? hl).symm⟩
    · exact .inr hu

end Decides

end BrokerConfig
