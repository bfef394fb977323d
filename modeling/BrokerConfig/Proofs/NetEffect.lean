import BrokerConfig.Proofs.RecordSets
import BrokerConfig.Upgrade.Plan

namespace BrokerConfig

namespace Changes

def followedBy (net c : Changes) : Changes :=
  c.updates.records.foldl update (c.deletes.records.foldl delete net)

theorem followedBy_eq (net c : Changes) :
    net.followedBy c =
      ⟨(net.updates.eraseAll c.deletes.ids).insertAll c.updates.records,
        (net.deletes.insertAll c.deletes.records).eraseAll c.updates.ids⟩ := by
  rw [followedBy, foldl_delete, foldl_update]
  rfl

theorem updates_followedBy (net c : Changes) : (net.followedBy c).updates = net.updates.apply c := by
  rw [followedBy_eq]
  rfl

theorem deletes_get?_followedBy (net c : Changes) (id : RecordId) :
    (net.followedBy c).deletes.get? id =
      if id ∈ c.updates.ids then none else (c.deletes.get? id).or (net.deletes.get? id) := by
  rw [followedBy_eq, RecordSet.get?_eraseAll, RecordSet.get?_insertAll _ c.deletes.distinct]
  rfl

theorem mem_deletes_followedBy {net c : Changes} {id : RecordId} :
    id ∈ (net.followedBy c).deletes.ids ↔
      id ∉ c.updates.ids ∧ (id ∈ c.deletes.ids ∨ id ∈ net.deletes.ids) := by
  rw [followedBy_eq, RecordSet.ids_eraseAll, RecordSet.ids_insertAll _ c.deletes.distinct]
  simp only [List.mem_filter, List.mem_append, decide_eq_true_eq]
  rw [show c.deletes.records.map Record.id = c.deletes.ids from rfl]
  by_cases hn : id ∈ net.deletes.ids <;> simp [hn, and_comm]

end Changes

structure Accounts (s t : RecordSet) (net : Changes) : Prop where
  apart : ∀ id ∈ net.updates.ids, id ∉ net.deletes.ids
  same : ∀ id, t.get? id = (s.apply net).get? id

namespace Accounts

variable {s t : RecordSet} {net c : Changes}

theorem refl (s : RecordSet) : Accounts s s Changes.empty where
  apart := by simp [Changes.empty]
  same id := by simp [RecordSet.get?_apply, Changes.empty]

theorem apply (h : Accounts s t net) (c : Changes) : Accounts s (t.apply c) (net.followedBy c) where
  apart id hu hd := by
    obtain ⟨hc, hd⟩ := Changes.mem_deletes_followedBy.1 hd
    rw [Changes.updates_followedBy, RecordSet.ids_apply] at hu
    simp only [List.mem_append, List.mem_filter, decide_eq_true_eq] at hu
    rcases hu with ⟨hu, hcd⟩ | ⟨hu, _⟩
    · exact h.apart id hu (hd.resolve_left hcd)
    · exact hc hu
  same id := by
    rw [RecordSet.get?_apply, h.same, RecordSet.get?_apply, RecordSet.get?_apply,
      Changes.updates_followedBy, RecordSet.get?_apply]
    simp only [Changes.mem_deletes_followedBy]
    cases hu : c.updates.get? id with
    | some u => simp
    | none =>
      have hn := RecordSet.get?_eq_none_iff.1 hu
      by_cases hd : id ∈ c.deletes.ids <;> simp [hn, hd]

theorem get?_updates_first (h : Accounts s t net) (id : RecordId) :
    ((s.insertAll net.updates.records).eraseAll net.deletes.ids).get? id = t.get? id := by
  rw [h.same, RecordSet.get?_apply, RecordSet.get?_eraseAll,
    RecordSet.get?_insertAll _ net.updates.distinct]
  by_cases hd : id ∈ net.deletes.ids
  · have hu : net.updates.get? id = none :=
      RecordSet.get?_eq_none_iff.2 fun hu => h.apart id hu hd
    simp [hd, hu]
  · simp only [hd, if_false]
    rfl

end Accounts

def InOrder (s t : RecordSet) (net : Changes) : Prop :=
  t.ids = s.ids.filter (· ∉ net.deletes.ids) ++ net.updates.ids.filter (· ∉ s.ids)

namespace InOrder

variable {s t : RecordSet} {net c : Changes}

theorem refl (s : RecordSet) : InOrder s s Changes.empty := by
  have h : s.ids.filter (fun _ => true) = s.ids := List.filter_eq_self.2 (by simp)
  simp [InOrder, Changes.empty, h]

theorem of_apart (s : RecordSet) (h : ∀ id ∈ c.updates.ids, id ∉ c.deletes.ids) :
    InOrder s (s.apply c) c := by
  rw [InOrder, RecordSet.ids_apply]
  congr 1
  apply List.filter_congr
  intro id hu
  simp [h id hu]

theorem apply (h : InOrder s t net) (hnew : ∀ id ∈ c.updates.ids, id ∉ net.deletes.ids)
    (hapart : ∀ id ∈ c.updates.ids, id ∉ c.deletes.ids) :
    InOrder s (t.apply c) (net.followedBy c) := by
  have hdeleted : ∀ id, id ∈ (net.followedBy c).deletes.ids ↔
      id ∈ c.deletes.ids ∨ id ∈ net.deletes.ids := by
    intro id
    rw [Changes.mem_deletes_followedBy]
    constructor
    · exact fun hd => hd.2
    · intro hd
      exact ⟨fun hu => hd.elim (hapart id hu) (hnew id hu), hd⟩
  unfold InOrder at h ⊢
  rw [RecordSet.ids_apply, Changes.updates_followedBy, RecordSet.ids_apply, h]
  simp only [hdeleted, List.filter_append, List.filter_filter, List.append_assoc]
  congr 1
  · apply List.filter_congr
    intro id _
    by_cases hd : id ∈ net.deletes.ids <;> simp [hd]
  congr 1
  · apply List.filter_congr
    intro id _
    by_cases hd : id ∈ s.ids <;> simp [hd]
  · apply List.filter_congr
    intro id hu
    have hd := hnew id hu
    have hc := hapart id hu
    by_cases hs : id ∈ s.ids <;> simp [hs, hd, hc]

theorem eq_updates_first (h : InOrder s t net) (ha : Accounts s t net) :
    (s.insertAll net.updates.records).eraseAll net.deletes.ids = t := by
  apply RecordSet.ext_of_ids
  · rw [RecordSet.ids_eraseAll, RecordSet.ids_insertAll _ net.updates.distinct, h,
      List.filter_append]
    congr 1
    apply List.filter_eq_self.2
    intro id hid
    simpa using ha.apart id (List.mem_filter.1 hid).1
  · exact ha.get?_updates_first

end InOrder

end BrokerConfig
