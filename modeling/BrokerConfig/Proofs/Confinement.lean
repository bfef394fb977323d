import BrokerConfig.Proofs.Regular
import BrokerConfig.Proofs.WriteBack
import BrokerConfig.Sample

namespace BrokerConfig.Upgrade

/-- How the records of a set and what has been deleted so far relate to an earlier set. Bindings are
followed under the ids of default exchanges too, since they may be deleted there. -/
structure Descends (host : Host) (s t : RecordSet) (net : Changes) : Prop where
  kept : ∀ r ∈ s.records, r.isCategory Category.binding = false → host.isDefaultId r.id = false →
    ∃ u ∈ t.records, Revises r u
  origin : ∀ u ∈ t.records, (∃ r ∈ s.records, Revises r u) ∨
    host.isDefaultId u.id ∧ u.isCategory Category.exchange
  deleted : ∀ id ∈ net.deletes.ids, ∃ b ∈ s.records, b.id = id ∧ b.isCategory Category.binding

namespace Descends

variable {host : Host} {version : String} {s t : RecordSet} {net c : Changes}

theorem refl (host : Host) (s : RecordSet) : Descends host s s Changes.empty where
  kept r hr _ _ := ⟨r, hr, .refl r⟩
  origin u hu := .inl ⟨u, hu, .refl u⟩
  deleted := by simp [Changes.empty]

theorem exists_binding (h : Descends host s t net) {u : Record} (hu : u ∈ t.records)
    (hb : u.isCategory Category.binding) :
    ∃ b ∈ s.records, b.id = u.id ∧ b.isCategory Category.binding := by
  rcases h.origin u hu with ⟨r, hr, hru⟩ | ⟨_, hx⟩
  · exact ⟨r, hr, hru.id.symm, hru.isCategory _ ▸ hb⟩
  · rw [Record.isCategory_eq_false hx Category.binding (by decide)] at hb
    cases hb

theorem successor_descends (h : Descends host s t net) {u : Record} (hu : Successor host t u) :
    (∃ r ∈ s.records, Revises r u) ∨ host.isDefaultId u.id ∧ u.isCategory Category.exchange := by
  cases hu with
  | @revised v hv hvu =>
    rcases h.origin v hv with ⟨r, hr, hrv⟩ | ⟨hdefault, hx⟩
    · exact .inl ⟨r, hr, hrv.trans hvu⟩
    · exact .inr ⟨hvu.id ▸ hdefault, (hvu.isCategory _).trans hx⟩
  | created heq _ =>
    rw [heq]
    exact .inr ⟨host.isDefaultId_defaultId _,
      Record.isCategory_iff.2 (MissingExchanges.shortCategory_newRecord ..)⟩

theorem exists_successor (hc : Footprint host version t t.records c) {u : Record}
    (hu : u ∈ t.records) (hb : u.isCategory Category.binding = false)
    (hd : host.isDefaultId u.id = false) : ∃ v ∈ (t.apply c).records, Revises u v := by
  by_cases hupdated : u.id ∈ c.updates.ids
  · obtain ⟨v, hv, hid⟩ := RecordSet.mem_ids.1 hupdated
    refine ⟨v, RecordSet.mem_apply.2 (.inl hv), ?_⟩
    cases hc.updated v hv with
    | revised hr hrv => exact RecordSet.eq_of_mem hr hu (hrv.id.symm.trans hid) ▸ hrv
    | created heq _ =>
      rw [← hid, heq] at hd
      rw [show (MissingExchanges.newRecord host _ _).id = host.defaultId _ from rfl,
        host.isDefaultId_defaultId] at hd
      cases hd
  · refine ⟨u, RecordSet.mem_apply.2 (.inr ⟨hu, hupdated, fun hdeleted => ?_⟩), .refl u⟩
    obtain ⟨d, hmem, hid⟩ := RecordSet.mem_ids.1 hdeleted
    obtain ⟨b, hbmem, hbd, hbinding⟩ := hc.deleted d hmem
    rw [RecordSet.eq_of_mem hbmem hu (hbd.id.symm.trans hid), hb] at hbinding
    cases hbinding

theorem apply (h : Descends host s t net) (hc : Footprint host version t t.records c) :
    Descends host s (t.apply c) (net.followedBy c) where
  kept r hr hb hd := by
    obtain ⟨u, hu, hru⟩ := h.kept r hr hb hd
    obtain ⟨v, hv, huv⟩ := exists_successor hc hu (hru.isCategory _ ▸ hb) (hru.id ▸ hd)
    exact ⟨v, hv, hru.trans huv⟩
  origin u hu := h.successor_descends (hc.successor hu)
  deleted id hid := by
    obtain ⟨_, hdeleted | hbefore⟩ := Changes.mem_deletes_followedBy.1 hid
    · obtain ⟨d, hd, rfl⟩ := RecordSet.mem_ids.1 hdeleted
      obtain ⟨b, hb, hbd, hbinding⟩ := hc.deleted d hd
      rw [hbd.id]
      exact h.exists_binding hb hbinding
    · exact h.deleted id hbefore

theorem revises (h : Descends host s t net) {r u : Record} (hr : r ∈ s.records)
    (hu : u ∈ t.records) (hid : u.id = r.id) (hd : host.isDefaultId r.id = false) :
    Revises r u := by
  rcases h.origin u hu with ⟨v, hv, hvu⟩ | ⟨hdefault, _⟩
  · exact RecordSet.eq_of_mem hv hr (hvu.id.symm.trans hid) ▸ hvu
  · rw [hid, hd] at hdefault
    cases hdefault

end Descends

structure Confined (host : Host) (input : List Record) (o : Outcome) : Prop where
  kept : ∀ r ∈ input, r.isCategory Category.binding = false → host.isDefaultId r.id = false →
    ∃ u ∈ o.records.records, u.id = r.id ∧ u.parents = r.parents ∧
      u.shortCategory = r.shortCategory
  created : ∀ u ∈ o.records.records, u.id ∉ input.map Record.id → host.isDefaultId u.id
  deleted : ∀ d ∈ o.net.deletes.records, ∃ b ∈ input, b.id = d.id ∧ b.isCategory Category.binding
  attributes : ∀ r ∈ input, host.isDefaultId r.id = false → r.isCategory Category.queue = false →
    ∀ u ∈ o.records.records, u.id = r.id →
      ∀ key ∉ changeable r.shortCategory, u.attribute? key = r.attribute? key
  queues : ∀ r ∈ input, host.isDefaultId r.id = false → r.isCategory Category.queue →
    ∀ u ∈ o.records.records, u.id = r.id → ∀ key ∉ changeable Category.queue, ∀ value,
      r.attribute? key = some value → u.attribute? key = some value

namespace Plan

theorem upgrade_confined (p : Plan) (input : List Record) (o : Outcome)
    (hids : (input.map Record.id).Nodup) (ho : (ended (p.upgrade input .empty)).1 = .ok o) :
    Confined p.host input o := by
  have hs : RecordSet.ofList input = ⟨input, hids⟩ := RecordSet.ofList_records ⟨input, hids⟩
  have h : Descends p.host ⟨input, hids⟩ o.records o.net := by
    rw [← hs]
    exact upgradeSet_invariant (fun t net => Descends p.host (RecordSet.ofList input) t net)
      (fun _ _ _ _ h hc => h.apply hc) (.refl ..) ho
  constructor
  case kept =>
    intro r hr hb hd
    obtain ⟨u, hu, hru⟩ := h.kept r hr hb hd
    exact ⟨u, hu, hru.id, hru.parents, hru.category⟩
  case created =>
    intro u hu hnew
    rcases h.origin u hu with ⟨r, hr, hru⟩ | ⟨hdefault, _⟩
    · exact absurd (hru.id ▸ List.mem_map_of_mem hr) hnew
    · exact hdefault
  case deleted =>
    intro d hd
    exact h.deleted d.id (RecordSet.mem_ids.2 ⟨d, hd, rfl⟩)
  case attributes =>
    intro r hr hd hq u hu hid key hk
    have hru := h.revises hr hu hid hd
    cases ha : r.attribute? key with
    | some value => exact hru.kept key hk value ha
    | none => exact hru.added (by simpa [Record.isCategory] using hq) key hk ha
  case queues =>
    intro r hr hd hq u hu hid key hk value hv
    rw [Record.isCategory_iff] at hq
    exact (h.revises hr hu hid hd).kept key (hq ▸ hk) value hv

theorem upgrade_confined_legacy :
    let p := standard (.ofHost Sample.hostName)
    let id : Sample.Supply := fun n => ⟨BitVec.ofNat 128 (n + 1)⟩
    let port := (Sample.entity (id 8) (Category.qualified "Port") "amqps" (id 0)).withAttribute
      Attribute.bindings (.text "0.0.0.0")
    let input := port :: Sample.legacy id
    (input.map Record.id).Nodup ∧
      ∃ o, (ended (p.upgrade input .empty)).1 = .ok o ∧ o.net.deletes.size = 3 ∧
        ∃ u ∈ o.records.records, u.id = port.id ∧ u.parents = port.parents ∧
          u.shortCategory = "Port" ∧ ∀ key, u.attribute? key = port.attribute? key := by
  intro p id port input
  have hids : (input.map Record.id).Nodup := by decide +kernel
  have hport : port ∈ input := List.mem_cons_self ..
  have hcategory : port.shortCategory = "Port" := by decide +kernel
  have hdefault : p.host.isDefaultId port.id = false := by decide +kernel
  have hdeletes : (ended (p.upgrade input .empty)).1.toOption.any
      (fun o => o.net.deletes.size = 3) = true := by
    decide +kernel
  obtain ⟨o, ho, hdeletes⟩ := (Option.any_eq_true ..).1 hdeletes
  clear_value p port input
  have hok := eq_ok_of_toOption ho
  have hconfined := upgrade_confined p input o hids hok
  have hbinding : port.isCategory Category.binding = false := by
    rw [Record.isCategory, hcategory]
    decide
  have hqueue : port.isCategory Category.queue = false := by
    rw [Record.isCategory, hcategory]
    decide
  obtain ⟨u, hu, hid, hparents, hshort⟩ := hconfined.kept port hport hbinding hdefault
  refine ⟨hids, o, hok, of_decide_eq_true hdeletes, u, hu, hid, hparents,
    hshort.trans hcategory, ?_⟩
  intro key
  apply hconfined.attributes port hport hdefault hqueue u hu hid
  rw [hcategory]
  exact List.not_mem_nil

end Plan

end BrokerConfig.Upgrade
