import BrokerConfig.Proofs.Succession

/-!
The stages of an upgrade from the oldest versions: the steps before the one that adds missing
exchanges, that step, and those behind it. The exchanges of a name, the virtual hosts and the parents
of bindings can be followed through all of them.
-/

namespace BrokerConfig.Upgrade

open Json
open MissingExchanges (bears newRecord)

variable {host : Host} {s t : RecordSet} {c : Changes}

namespace MissingExchanges

structure Alternated (host : Host) (s : RecordSet) (q : Record) (look : Lookup) : Prop where
  others : ∀ key, key ≠ Attribute.alternateExchange → look key = q.attribute? key
  found : unsettled q → ∀ name, q.name? = some name →
    (∃ x, Named host s (host.deadLetterName name) x) →
    ∃ x, Named host s (host.deadLetterName name) x ∧
      look Attribute.alternateExchange = some (.text x.print)
  kept : (unsettled q → ∀ name, q.name? = some name →
      ∀ x, ¬Named host s (host.deadLetterName name) x) →
    look Attribute.alternateExchange = q.attribute? Attribute.alternateExchange

theorem Alternated.of_settled {q : Record} (h : unsettled q = false) :
    Alternated host s q q.attribute? where
  others _ _ := rfl
  found hu := by rw [h] at hu; cases hu
  kept _ := rfl

theorem Alternated.of_found {q : Record} {name : String} {x : RecordId} (hu : unsettled q)
    (hn : q.name? = some name) (hx : Named host s (host.deadLetterName name) x) :
    Alternated host s q (withAlternate q x).attribute? where
  others key hk := (Record.attribute?_withAttribute ..).trans (if_neg hk.symm)
  found _ other ho _ := by
    cases hn.symm.trans ho
    exact ⟨x, hx, (Record.attribute?_withAttribute ..).trans (if_pos rfl)⟩
  kept hnone := absurd hx (hnone hu name hn x)

theorem Alternated.of_missed {q : Record} {name : String} (hn : q.name? = some name)
    (hx : ∀ x, ¬Named host s (host.deadLetterName name) x) :
    Alternated host s q q.attribute? where
  others _ _ := rfl
  found _ other ho := by
    cases hn.symm.trans ho
    rintro ⟨x, hnamed⟩
    exact absurd hnamed (hx x)
  kept _ := rfl

structure Restocks (host : Host) (change : Lookup → Lookup) (s : RecordSet) (r u : Record) :
    Prop where
  revises : Revises r u
  queue : r.isCategory Category.queue →
    ∃ look, Alternated host s r look ∧ u.attribute? = change look

structure Restocked (host : Host) (change : Lookup → Lookup) (s t : RecordSet) : Prop where
  kept : ∀ r ∈ s.records, r.isCategory Category.binding = false →
    ∃ u ∈ t.records, Restocks host change s r u
  origin : ∀ u ∈ t.records, (∃ r ∈ s.records, Restocks host change s r u) ∨
    ∃ e ∈ missingIn s.records, ∃ root, Revises (newRecord host e root) u
  created : ∀ e ∈ missingIn s.records, ∃ root, ∃ u ∈ t.records, Revises (newRecord host e root) u

theorem Answers.left? {r : Record} {v : Verdict} (h : Answers host s r v) :
    ∃ u, v.left? r = some u ∧ Restocks host id s r u := by
  unfold Answers at h
  split at h
  · rename_i hroot
    rw [h]
    refine ⟨_, rfl, .withVersion _ (Record.isRoot_iff.1 hroot), fun hq => ?_⟩
    rw [Record.isRoot_eq_false hq (by decide)] at hroot
    cases hroot
  · split at h
    · rename_i hu
      have hq : r.isCategory Category.queue :=
        (Bool.and_eq_true_iff.1 (Bool.and_eq_true_iff.1 hu).1).1
      obtain ⟨name, hn, _, ⟨x, hx, hv⟩ | ⟨hx, hv⟩⟩ := h
      · rw [hv]
        refine ⟨_, rfl, .withAlternate x (Record.isCategory_iff.1 hq), fun _ => ?_⟩
        exact ⟨_, .of_found hu hn hx, rfl⟩
      · rw [hv]
        exact ⟨_, rfl, .refl r, fun _ => ⟨_, .of_missed hn hx, rfl⟩⟩
    · rename_i hu
      rw [h]
      exact ⟨_, rfl, .refl r, fun _ => ⟨_, .of_settled (Bool.not_eq_true _ ▸ hu), rfl⟩⟩

theorem restocked (hinj : Function.Injective host.defaultId) (hs : Reserved host s)
    (h : Supplies host s c) : Restocked host id s (s.apply c) := by
  obtain ⟨verdict, root, hdecides, hanswers, _⟩ := h
  have hperm := hdecides.records_apply_perm fun _ => fresh_createdIn hs
  have hmem : ∀ u, u ∈ (s.apply c).records ↔
      (∃ r ∈ s.records, (verdict r).left? r = some u) ∨ u ∈ (createdIn host s root).records := by
    intro u
    rw [hperm.mem_iff, List.mem_append, List.mem_filterMap]
  constructor
  · intro r hr _
    obtain ⟨u, hl, hu⟩ := (hanswers r hr).left?
    exact ⟨u, (hmem u).2 (.inl ⟨r, hr, hl⟩), hu⟩
  · intro u hu
    rcases (hmem u).1 hu with ⟨r, hr, hl⟩ | hcreated
    · obtain ⟨u', hl', hu'⟩ := (hanswers r hr).left?
      cases hl.symm.trans hl'
      exact .inl ⟨r, hr, hu'⟩
    · obtain ⟨e, he, rfl⟩ := mem_createdIn hcreated
      exact .inr ⟨e, he, root, .refl _⟩
  · intro e he
    have hid : host.defaultId e ∈ (createdIn host s root).ids :=
      RecordSet.mem_ids_insertAll.2 (.inr (List.mem_map.2 ⟨_, List.mem_map_of_mem he, rfl⟩))
    obtain ⟨u, hu, hid⟩ := RecordSet.mem_ids.1 hid
    obtain ⟨f, _, rfl⟩ := mem_createdIn hu
    cases hinj hid
    exact ⟨root, _, (hmem _).2 (.inr hu), .refl _⟩

namespace Restocked

variable {change change' : Lookup → Lookup} {v : RecordSet}

theorem trans (h : Restocked host change s t) (k : Succeeds change' t v) :
    Restocked host (change' ∘ change) s v := by
  have hnext : ∀ r u x, Restocks host change s r u → Follows change' u x →
      Restocks host (change' ∘ change) s r x := by
    intro r u x hru hux
    refine ⟨hru.revises.trans hux.revises, fun hq => ?_⟩
    obtain ⟨look, hlook, hu⟩ := hru.queue hq
    refine ⟨look, hlook, ?_⟩
    rw [hux.queue (hru.revises.isCategory _ ▸ hq), hu]
    rfl
  constructor
  · intro r hr hb
    obtain ⟨u, hu, hru⟩ := h.kept r hr hb
    obtain ⟨x, hx, hux⟩ := k.kept u hu (hru.revises.isCategory _ ▸ hb)
    exact ⟨x, hx, hnext r u x hru hux⟩
  · intro x hx
    obtain ⟨u, hu, hux⟩ := k.origin x hx
    rcases h.origin u hu with ⟨r, hr, hru⟩ | ⟨e, he, root, hrev⟩
    · exact .inl ⟨r, hr, hnext r u x hru hux⟩
    · exact .inr ⟨e, he, root, hrev.trans hux.revises⟩
  · intro e he
    obtain ⟨root, u, hu, hrev⟩ := h.created e he
    have hb : u.isCategory Category.binding = false := by
      have hx : u.isCategory Category.exchange := by
        rw [hrev.isCategory, Record.isCategory_iff, shortCategory_newRecord]
      exact Record.isCategory_eq_false hx _ (by decide)
    obtain ⟨x, hx, hux⟩ := k.kept u hu hb
    exact ⟨root, x, hx, hrev.trans hux.revises⟩

theorem named_iff (h : Restocked host change s t) {name : String} {id : RecordId} :
    (∃ u ∈ t.records, bears name u ∧ u.id = id) ↔ Named host s name id := by
  constructor
  · rintro ⟨u, hu, hb, rfl⟩
    rcases h.origin u hu with ⟨r, hr, hru⟩ | ⟨e, he, root, hrev⟩
    · exact .inl ⟨r, hr, hru.revises.bears name ▸ hb, hru.revises.id.symm⟩
    · exact .inr ⟨e, he, bears_newRecord (hrev.bears name ▸ hb), hrev.id.symm⟩
  · rintro (⟨r, hr, hb, rfl⟩ | ⟨e, he, rfl, rfl⟩)
    · have hx := (Bool.and_eq_true_iff.1 hb).1
      have hkept := Record.isCategory_eq_false hx Category.binding (by decide)
      obtain ⟨u, hu, hru⟩ := h.kept r hr hkept
      exact ⟨u, hu, (hru.revises.bears name).trans hb, hru.revises.id⟩
    · obtain ⟨root, u, hu, hrev⟩ := h.created e he
      exact ⟨u, hu, (hrev.bears e.name).trans (bears_newRecord_iff.2 rfl), hrev.id⟩

theorem parented (h : Restocked host change s t) (hs : Parented s) : Parented t := by
  intro u hu hb
  rcases h.origin u hu with ⟨r, hr, hru⟩ | ⟨e, _, root, hrev⟩
  · rw [Record.parent?, Record.parent?, hru.revises.parents]
    exact hs r hr (hru.revises.isCategory _ ▸ hb)
  · rw [hrev.isCategory, Record.isCategory_iff, shortCategory_newRecord] at hb
    exact absurd hb (by decide)

end Restocked

end MissingExchanges

namespace Succeeds

variable {change : Lookup → Lookup}

theorem named_iff (h : Succeeds change s t) {name : String} {id : RecordId} :
    (∃ u ∈ t.records, bears name u ∧ u.id = id) ↔ ∃ r ∈ s.records, bears name r ∧ r.id = id := by
  constructor
  · rintro ⟨u, hu, hb, rfl⟩
    obtain ⟨r, hr, hru⟩ := h.origin u hu
    exact ⟨r, hr, hru.revises.bears name ▸ hb, hru.revises.id.symm⟩
  · rintro ⟨r, hr, hb, rfl⟩
    have hx := (Bool.and_eq_true_iff.1 hb).1
    obtain ⟨u, hu, hru⟩ := h.kept r hr (Record.isCategory_eq_false hx Category.binding (by decide))
    exact ⟨u, hu, (hru.revises.bears name).trans hb, hru.revises.id⟩

theorem missing_iff (h : Succeeds change s t) {e : DefaultExchange} :
    e ∈ MissingExchanges.missingIn t.records ↔ e ∈ MissingExchanges.missingIn s.records := by
  rw [← not_iff_not, MissingExchanges.not_missing_iff, MissingExchanges.not_missing_iff]
  have hnamed := fun id => @named_iff _ _ _ h e.name id
  constructor
  · rintro ⟨u, hu, hb⟩
    obtain ⟨r, hr, hb', _⟩ := (hnamed u.id).1 ⟨u, hu, hb, rfl⟩
    exact ⟨r, hr, hb'⟩
  · rintro ⟨r, hr, hb⟩
    obtain ⟨u, hu, hb', _⟩ := (hnamed r.id).2 ⟨r, hr, hb, rfl⟩
    exact ⟨u, hu, hb'⟩

theorem rooted_iff (h : Succeeds change s t) :
    (∃ u ∈ t.records, u.isRoot) ↔ ∃ r ∈ s.records, r.isRoot := by
  constructor
  · rintro ⟨u, hu, hroot⟩
    obtain ⟨r, hr, hru⟩ := h.origin u hu
    exact ⟨r, hr, hru.revises.isRoot ▸ hroot⟩
  · rintro ⟨r, hr, hroot⟩
    have hb := Record.isCategory_eq_false hroot Category.binding (by decide)
    obtain ⟨u, hu, hru⟩ := h.kept r hr hb
    exact ⟨u, hu, hru.revises.isRoot ▸ hroot⟩

end Succeeds

namespace Plan

theorem records_upgradeSet {p : Plan} {version : String} {steps : List Step}
    (hne : s.isEmpty = false) (hversion : declaredVersion s = .ok version)
    (hroute : p.route? version = some steps) :
    (ended (p.upgradeSet .acceptAll s .empty)).1.map Outcome.records = p.through steps s := by
  rw [ended_upgradeSet hne, hversion]
  dsimp only
  rw [hroute]
  exact follow_acceptAll ..

def bumps : List Step := [.bump "2.0" "3.0", .bump "3.0" "6.0", .bump "6.0" "6.1"]

theorem route?_standard (config : Config) {version : String}
    (h : version = "0.0" ∨ version = "0.1" ∨ version = "0.2") :
    ∃ before, (standard config).route? version =
        some (before ++ .addMissingExchanges :: (bumps ++ [.listBindings])) ∧
      Step.addMissingExchanges ∉ before ∧ Step.listBindings ∉ before ∧
      onQueues before = QueuePolicy.governed ∘ QueueSettings.flattened ∧
      (version ≠ "0.2" → Step.shortenTypes ∈ before) := by
  rcases h with rfl | rfl | rfl
  · exact ⟨[.pruneSelectors, .shortenTypes, .promoteSettings, .setQueuePolicy], rfl, by decide,
      by decide, rfl, by decide⟩
  · exact ⟨[.shortenTypes, .promoteSettings, .setQueuePolicy], rfl, by decide, by decide, rfl,
      by decide⟩
  · exact ⟨[.promoteSettings, .setQueuePolicy], rfl, by decide, by decide, rfl, by decide⟩

end Plan

structure Halfway (host : Host) (version : String) (s t v : RecordSet) : Prop where
  before : Succeeds (QueuePolicy.governed ∘ QueueSettings.flattened) s t
  named : ∀ q ∈ t.records, MissingExchanges.unsettled q → ¬MissingExchanges.nameless q
  rooted : MissingExchanges.missingIn t.records ≠ [] → ∃ r ∈ t.records, r.isRoot
  stocked : MissingExchanges.Restocked host id t v
  parented : version ≠ "0.2" → Parented v

inductive Ending (host : Host) (version : String) (s : RecordSet) :
    Except Failure RecordSet → Prop
  | unsupplied {t : RecordSet} {e : Failure}
    (before : Succeeds (QueuePolicy.governed ∘ QueueSettings.flattened) s t)
    (fails : MissingExchanges.Fails t e) : Ending host version s (.error e)
  | unlisted {t v : RecordSet} {e : Failure} (halfway : Halfway host version s t v)
    (fails : BindingLists.Fails v e) : Ending host version s (.error e)
  | listed {t v final : RecordSet} (halfway : Halfway host version s t v)
    (resolved : BindingLists.Resolved v) (listed : Succeeds BindingLists.unlisted v final) :
    Ending host version s (.ok final)

namespace Plan

theorem through_ends {config : Config} {version : String}
    (hinj : Function.Injective (Host.ofConfig config).defaultId)
    (hs : Reserved (Host.ofConfig config) s)
    (hold : version = "0.0" ∨ version = "0.1" ∨ version = "0.2") :
    ∃ steps, (standard config).route? version = some steps ∧
      Ending (Host.ofConfig config) version s ((standard config).through steps s) := by
  obtain ⟨before, hroute, hadd, hlist, hchange, hshort⟩ := route?_standard config hold
  refine ⟨_, hroute, ?_⟩
  obtain ⟨t, ht, hst, hparented⟩ := (standard config).through_succeeds before
    (.addMissingExchanges :: (bumps ++ [.listBindings])) s hadd hlist
  rw [hchange] at hst
  rw [ht, through]
  have hreserved := hst.reserved hs
  have hsupplies := MissingExchanges.supplies fun r hr => hreserved.isCategory hr
  cases he : (Step.addMissingExchanges.passes (standard config).host).effect t with
  | error e => exact .unsupplied hst (hsupplies.of_effect_error he)
  | ok changes =>
    obtain ⟨hsupplied, hnamed⟩ := hsupplies.of_effect_ok he
    have hrestocked := MissingExchanges.restocked hinj hreserved hsupplied
    obtain ⟨v, hv, htv, _⟩ := (standard config).through_succeeds bumps [.listBindings]
      (t.apply changes) (by decide) (by decide)
    obtain ⟨_, _, _, _, hrooted⟩ := hsupplied
    have hhalfway : Halfway (Host.ofConfig config) version s t v :=
      { before := hst
        named := hnamed
        rooted := fun hne => (hrooted hne).imp fun _ h => ⟨h.1, h.2.1⟩
        stocked := hrestocked.trans htv
        parented := fun hne => (hrestocked.trans htv).parented (hparented (hshort hne)) }
    dsimp only
    rw [hv, through]
    cases hl : (Step.listBindings.passes (standard config).host).effect v with
    | error e => exact .unlisted hhalfway (BindingLists.consolidates.of_effect_error hl)
    | ok listed =>
      obtain ⟨hdecides, hresolved⟩ := BindingLists.consolidates.of_effect_ok hl
      exact .listed hhalfway hresolved (BindingLists.succeeds hdecides)

theorem upgrade_ends {config : Config} {input : List Record} {version : String}
    (hids : (input.map Record.id).Nodup) (hne : input ≠ [])
    (hversion : declaredVersion (RecordSet.ofList input) = .ok version)
    (hold : version = "0.0" ∨ version = "0.1" ∨ version = "0.2")
    (hinj : Function.Injective (Host.ofConfig config).defaultId)
    (hdefaults : ∀ e, ∀ r ∈ input, r.id = (Host.ofConfig config).defaultId e →
      r.isCategory Category.exchange ∧ r.name? = some e.name) :
    Ending (Host.ofConfig config) version ⟨input, hids⟩
      ((ended ((standard config).upgrade input .empty)).1.map Outcome.records) := by
  have hs : RecordSet.ofList input = ⟨input, hids⟩ := RecordSet.ofList_records ⟨input, hids⟩
  have hreserved : Reserved (Host.ofConfig config) ⟨input, hids⟩ := by
    intro e r hr hid
    obtain ⟨hx, hn⟩ := hdefaults e r hr hid
    rw [bears, hx, hn, Bool.true_and, decide_eq_true_eq]
  obtain ⟨steps, hroute, hends⟩ := through_ends hinj hreserved hold
  rw [hs] at hversion
  rw [upgrade, upgradeWith, hs, records_upgradeSet (by simpa [RecordSet.isEmpty] using hne)
    hversion hroute]
  exact hends

end Plan

end BrokerConfig.Upgrade
