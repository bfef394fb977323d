import BrokerConfig.Proofs.Footprint

namespace BrokerConfig.Upgrade

open MissingExchanges (bears newRecord)

structure Regular (host : Host) (s : RecordSet) : Prop where
  root : ∀ r ∈ s.records, ∀ t ∈ s.records, r.isRoot → t.isRoot → r.id = t.id
  names : ∀ name, ∀ x ∈ s.records, ∀ y ∈ s.records, bears name x → bears name y → x.id = y.id
  defaults : ∀ r ∈ s.records, host.isDefaultId r.id → r.isCategory Category.exchange

variable {host : Host} {s : RecordSet}

theorem Revises.attribute?_eq {r u : Record} (h : Revises r u)
    (hx : r.isCategory Category.exchange) {key : String}
    (hk : key ∉ changeable Category.exchange) : u.attribute? key = r.attribute? key := by
  rw [Record.isCategory_iff] at hx
  cases ha : r.attribute? key with
  | some value => exact h.kept key (hx ▸ hk) value ha
  | none => exact h.added (hx ▸ by decide) key (hx ▸ hk) ha

theorem Revises.bears {r u : Record} (h : Revises r u) (name : String) :
    bears name u = bears name r := by
  unfold MissingExchanges.bears
  rw [h.isCategory]
  by_cases hx : r.isCategory Category.exchange
  · have hn : u.name? = r.name? := by
      rw [Record.name?, Record.textAttribute?, h.attribute?_eq hx (by decide)]
      rfl
    rw [hn]
  · simp [hx]

theorem bears_newRecord {e : DefaultExchange} {root : RecordId} {name : String}
    (h : bears name (newRecord host e root)) : e.name = name := by
  have hn : (newRecord host e root).name? = some e.name := rfl
  rw [bears, hn] at h
  simpa using (Bool.and_eq_true_iff.1 h).2

theorem DefaultExchange.name_injective : Function.Injective DefaultExchange.name := by
  intro e f
  cases e <;> cases f <;> decide

theorem Footprint.successor {version : String} {c : Changes} {u : Record}
    (h : Footprint host version s s.records c) (hu : u ∈ (s.apply c).records) :
    Successor host s u := by
  rcases RecordSet.mem_apply.1 hu with hu | ⟨hu, _, _⟩
  · exact h.updated u hu
  · exact .revised hu (.refl u)

theorem not_root_of_newRecord {e : DefaultExchange} {root : RecordId} :
    (newRecord host e root).isRoot = false := by
  rw [← Bool.not_eq_true, Record.isRoot_iff, MissingExchanges.shortCategory_newRecord]
  decide

theorem Regular.apply {version : String} {c : Changes} (h : Regular host s)
    (hc : Footprint host version s s.records c) : Regular host (s.apply c) where
  root u hu v hv hur hvr := by
    cases hc.successor hu with
    | revised hr hrev =>
      cases hc.successor hv with
      | revised ht htrev =>
        rw [hrev.id, htrev.id]
        exact h.root _ hr _ ht (hrev.isRoot ▸ hur) (htrev.isRoot ▸ hvr)
      | created heq _ =>
        rw [heq, not_root_of_newRecord] at hvr
        cases hvr
    | created heq _ =>
      rw [heq, not_root_of_newRecord] at hur
      cases hur
  names name u hu v hv hub hvb := by
    cases hc.successor hu with
    | revised hr hrev =>
      rw [hrev.bears] at hub
      cases hc.successor hv with
      | revised ht htrev =>
        rw [htrev.bears] at hvb
        rw [hrev.id, htrev.id]
        exact h.names name _ hr _ ht hub hvb
      | created heq hmissing =>
        subst heq
        rw [← bears_newRecord hvb, hmissing _ hr] at hub
        cases hub
    | created heq hmissing =>
      subst heq
      cases hc.successor hv with
      | revised ht htrev =>
        rw [htrev.bears, ← bears_newRecord hub, hmissing _ ht] at hvb
        cases hvb
      | created heq' _ =>
        subst heq'
        have he := (bears_newRecord hub).trans (bears_newRecord hvb).symm
        rw [DefaultExchange.name_injective he]
        rfl
  defaults u hu hd := by
    cases hc.successor hu with
    | revised hr hrev =>
      rw [hrev.isCategory]
      exact h.defaults _ hr (hrev.id ▸ hd)
    | created heq _ =>
      rw [heq, Record.isCategory_iff]
      exact MissingExchanges.shortCategory_newRecord ..

end BrokerConfig.Upgrade
