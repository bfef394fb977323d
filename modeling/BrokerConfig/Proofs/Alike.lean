import BrokerConfig.Proofs.NetEffect
import BrokerConfig.Proofs.Revision
import BrokerConfig.Proofs.Verdicts

namespace BrokerConfig

open Json

namespace Record

inductive Alike : Record → Record → Prop
  | refl (r : Record) : Alike r r
  | permuted {base : Record} {xs ys : List Value} (exchange : base.isCategory Category.exchange)
    (perm : xs.Perm ys) :
    Alike (base.withAttribute Attribute.durableBindings (.array xs))
      (base.withAttribute Attribute.durableBindings (.array ys))

namespace Alike

variable {r u : Record}

theorem symm (h : Alike r u) : Alike u r := by
  cases h with
  | refl => exact .refl _
  | permuted exchange perm => exact .permuted exchange perm.symm

theorem id (h : Alike r u) : r.id = u.id := by
  cases h <;> rfl

theorem category (h : Alike r u) : r.category = u.category := by
  cases h <;> rfl

theorem isCategory (h : Alike r u) (short : String) : r.isCategory short = u.isCategory short := by
  rw [Record.isCategory, shortCategory, h.category]
  rfl

theorem isRoot (h : Alike r u) : r.isRoot = u.isRoot := h.isCategory _

theorem attribute? (h : Alike r u) {key : String} (hk : key ≠ Attribute.durableBindings) :
    r.attribute? key = u.attribute? key := by
  cases h with
  | refl => rfl
  | permuted exchange perm =>
    rw [attribute?_withAttribute, attribute?_withAttribute, if_neg hk.symm, if_neg hk.symm]

theorem textAttribute? (h : Alike r u) {key : String} (hk : key ≠ Attribute.durableBindings) :
    r.textAttribute? key = u.textAttribute? key := by
  rw [Record.textAttribute?, h.attribute? hk, Record.textAttribute?]

theorem hasAttribute (h : Alike r u) {key : String} (hk : key ≠ Attribute.durableBindings) :
    r.hasAttribute key = u.hasAttribute key := by
  have ha := h.attribute? hk
  unfold Record.attribute? at ha
  rw [Record.hasAttribute, Record.hasAttribute, OrderedMap.contains, OrderedMap.contains, ha]

theorem name? (h : Alike r u) : r.name? = u.name? := h.textAttribute? (by decide)

theorem eq_of_not_exchange (h : Alike r u) (hx : r.isCategory Category.exchange = false) :
    r = u := by
  cases h with
  | refl => rfl
  | permuted exchange perm =>
    have he := exchange.symm.trans hx
    cases he

end Alike

end Record

namespace RecordSet

def Alike (s t : RecordSet) : Prop := ∀ id, Option.Rel Record.Alike (s.get? id) (t.get? id)

namespace Alike

variable {s t : RecordSet}

theorem of_get?_eq (h : ∀ id, s.get? id = t.get? id) : Alike s t := by
  intro id
  rw [h]
  cases t.get? id with
  | none => exact .none
  | some r => exact .some (.refl r)

theorem cases (h : Alike s t) (id : RecordId) :
    s.get? id = none ∧ t.get? id = none ∨
      ∃ r u, s.get? id = some r ∧ t.get? id = some u ∧ Record.Alike r u := by
  have hid := h id
  generalize s.get? id = before at hid ⊢
  generalize t.get? id = after at hid ⊢
  cases hid with
  | none => exact .inl ⟨rfl, rfl⟩
  | some ha => exact .inr ⟨_, _, rfl, rfl, ha⟩

theorem symm (h : Alike s t) : Alike t s := by
  intro id
  rcases h.cases id with ⟨hs, ht⟩ | ⟨r, u, hs, ht, ha⟩
  · rw [hs, ht]
    exact .none
  · rw [hs, ht]
    exact .some ha.symm

theorem exists_mem (h : Alike s t) {r : Record} (hr : r ∈ s.records) :
    ∃ u ∈ t.records, Record.Alike r u := by
  rcases h.cases r.id with ⟨hs, _⟩ | ⟨_, u, hs, ht, ha⟩
  · rw [get?_of_mem hr] at hs
    cases hs
  · rw [get?_of_mem hr] at hs
    cases hs
    exact ⟨u, mem_of_get? ht, ha⟩

theorem mem_ids (h : Alike s t) (id : RecordId) : id ∈ s.ids ↔ id ∈ t.ids := by
  rw [← contains_iff, ← contains_iff, contains, contains]
  rcases h.cases id with ⟨hs, ht⟩ | ⟨r, u, hs, ht, _⟩ <;> simp [hs, ht]

theorem filterMap_perm {β : Type} {f : Record → Option β} (h : Alike s t)
    (hf : ∀ r u, Record.Alike r u → f r = f u) :
    (s.records.filterMap f).Perm (t.records.filterMap f) := by
  have hget : ∀ u ∈ t.records, ∃ r, s.get? u.id = some r ∧ Record.Alike r u := by
    intro u hu
    obtain ⟨r, hr, ha⟩ := h.symm.exists_mem hu
    exact ⟨r, ha.id ▸ get?_of_mem hr, ha.symm⟩
  have hf' : t.records.filterMap f = (t.records.filterMap fun u => s.get? u.id).filterMap f := by
    rw [List.filterMap_filterMap]
    apply List.filterMap_congr
    intro u hu
    obtain ⟨r, hr, ha⟩ := hget u hu
    rw [hr]
    exact (hf r u ha).symm
  rw [hf']
  apply List.Perm.filterMap
  have hsub : ((t.records.filterMap fun u => s.get? u.id).map Record.id).Sublist
      (t.records.map Record.id) :=
    ids_filterMap_sublist fun u _ r hr => id_of_get? hr
  rw [List.perm_ext_iff_of_nodup s.nodup_records (List.Nodup.of_map _ (t.distinct.sublist hsub))]
  intro r
  rw [List.mem_filterMap]
  constructor
  · intro hr
    obtain ⟨u, hu, ha⟩ := h.exists_mem hr
    exact ⟨u, hu, ha.id ▸ get?_of_mem hr⟩
  · rintro ⟨u, _, hr⟩
    exact mem_of_get? hr

end Alike

end RecordSet

namespace Changes

structure Alike (c d : Changes) : Prop where
  updates : c.updates.Alike d.updates
  deletes : ∀ id, c.deletes.get? id = d.deletes.get? id

theorem Alike.mem_deletes {c d : Changes} (h : Alike c d) (id : RecordId) :
    id ∈ c.deletes.ids ↔ id ∈ d.deletes.ids := by
  rw [← RecordSet.contains_iff, ← RecordSet.contains_iff, RecordSet.contains, RecordSet.contains,
    h.deletes]

end Changes

theorem RecordSet.Alike.apply {s t : RecordSet} {c d : Changes} (h : Alike s t) (hc : c.Alike d) :
    Alike (s.apply c) (t.apply d) := by
  intro id
  rw [get?_apply, get?_apply]
  simp only [hc.mem_deletes]
  rcases hc.updates.cases id with ⟨hs, ht⟩ | ⟨r, u, hs, ht, ha⟩
  · rw [hs, ht]
    split
    · exact .none
    · exact h id
  · rw [hs, ht]
    exact .some ha

theorem Changes.Alike.followedBy {net other c d : Changes} (h : Alike net other)
    (hc : Alike c d) : Alike (net.followedBy c) (other.followedBy d) where
  updates := by
    rw [updates_followedBy, updates_followedBy]
    exact h.updates.apply hc
  deletes id := by
    rw [deletes_get?_followedBy, deletes_get?_followedBy, h.deletes, hc.deletes]
    simp only [hc.updates.mem_ids]

inductive Verdict.Alike : Verdict → Verdict → Prop
  | keep : Alike .keep .keep
  | revise {u v : Record} (alike : u.Alike v) : Alike (.revise u) (.revise v)
  | drop (d : Record) : Alike (.drop d) (.drop d)

theorem Verdict.Alike.refl (v : Verdict) : Alike v v := by
  cases v with
  | keep => exact .keep
  | revise u => exact .revise (.refl u)
  | drop d => exact .drop d

theorem Verdict.Alike.revision? {v w : Verdict} (h : Alike v w) :
    Option.Rel Record.Alike v.revision? w.revision? := by
  cases h with
  | keep => exact .none
  | revise ha => exact .some ha
  | drop d => exact .none

theorem Verdict.Alike.removal? {v w : Verdict} (h : Alike v w) : v.removal? = w.removal? := by
  cases h <;> rfl

theorem Decides.alike {v w : Record → Verdict} {created added s t : RecordSet} {c d : Changes}
    (hc : Decides v created s c) (hd : Decides w added t d) (h : s.Alike t)
    (hcreated : ∀ id, created.get? id = added.get? id)
    (hv : ∀ r ∈ s.records, ∀ u ∈ t.records, r.Alike u → (v r).Alike (w u)) : c.Alike d where
  updates id := by
    rw [hc.updates, hd.updates, hcreated]
    cases added.get? id with
    | some u => exact .some (.refl u)
    | none =>
      rw [Option.none_or, Option.none_or]
      rcases h.cases id with ⟨hs, ht⟩ | ⟨r, u, hs, ht, ha⟩
      · rw [hs, ht]
        exact .none
      · rw [hs, ht, Option.bind_some, Option.bind_some]
        exact (hv r (RecordSet.mem_of_get? hs) u (RecordSet.mem_of_get? ht) ha).revision?
  deletes id := by
    rw [hc.deletes, hd.deletes]
    rcases h.cases id with ⟨hs, ht⟩ | ⟨r, u, hs, ht, ha⟩
    · rw [hs, ht]
      rfl
    · rw [hs, ht, Option.bind_some, Option.bind_some]
      exact (hv r (RecordSet.mem_of_get? hs) u (RecordSet.mem_of_get? ht) ha).removal?

end BrokerConfig
