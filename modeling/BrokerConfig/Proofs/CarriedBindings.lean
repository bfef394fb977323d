import BrokerConfig.Proofs.Contributions
import BrokerConfig.Proofs.ExchangeSupply
import BrokerConfig.Proofs.Regular
import BrokerConfig.Proofs.Route
import BrokerConfig.Sample

/-!
Between the step that prunes selectors and the one that lists bindings, every step carries along
what exchanges are given, drops the bindings that have lost a parent, or creates the default
exchanges that bindings may already be attached to.
-/

namespace BrokerConfig.Upgrade

open Json
open BindingLists (Attachable HasQueue Stray Retains Carries contributions)
open MissingExchanges (bears newRecord)

variable {host : Host} {s t : RecordSet} {c : Changes}

namespace BindingLists.Retains

variable {r : Record}

theorem withAttribute {key : String} (value : Value) (hn : key ≠ Attribute.name)
    (hb : key ≠ Attribute.bindings) (ha : key ≠ Attribute.arguments) :
    Retains r (r.withAttribute key value) where
  id := rfl
  category := rfl
  parents := rfl
  name := (Record.attribute?_withAttribute ..).trans (if_neg hn)
  bindings := (Record.attribute?_withAttribute ..).trans (if_neg hb)
  arguments _ := (Record.attribute?_withAttribute ..).trans (if_neg ha)

theorem withVersion (version : String) : Retains r (r.withVersion version) :=
  withAttribute _ (by decide) (by decide) (by decide)

theorem withAlternate (exchange : RecordId) :
    Retains r (MissingExchanges.withAlternate r exchange) :=
  withAttribute _ (by decide) (by decide) (by decide)

theorem renamed (r : Record) : Retains r (ShortTypes.renamed r) := by
  have hshort : Retains r (r.withCategory r.shortCategory) :=
    ⟨rfl, Category.short_short _, rfl, rfl, rfl, fun _ => rfl⟩
  unfold ShortTypes.renamed
  dsimp only
  split
  · have hversion : Retains (r.withCategory r.shortCategory) _ := withVersion ShortTypes.target
    exact ⟨rfl, hshort.category, rfl, hversion.name, hversion.bindings, fun _ =>
      (Record.attribute?_withAttribute ..).trans (if_neg (by decide))⟩
  · exact hshort

theorem flatten (h : r.isCategory Category.queue) : Retains r (QueueSettings.flatten r) := by
  have hkept : ∀ key ∉ QueueSettings.modelNames.map Prod.snd,
      (QueueSettings.flatten r).attribute? key = r.attribute? key := by
    intro key hk
    rw [QueueSettings.attribute?_flatten, QueueSettings.flattened_of_not_model _ key hk]
  have hb := Record.isCategory_eq_false h Category.binding (by decide)
  exact ⟨rfl, rfl, rfl, hkept _ (by decide), hkept _ (by decide), fun hbinding => by
    rw [hb] at hbinding
    cases hbinding⟩

theorem revise : Retains r (QueuePolicy.revise r) := by
  have hkept : ∀ key, key ≠ Attribute.exclusive → key ≠ Attribute.owner → key ≠ Attribute.durable →
      (QueuePolicy.revise r).attribute? key = r.attribute? key := by
    intro key he ho hd
    rw [QueuePolicy.attribute?_revise, QueuePolicy.governed_of_other _ he ho hd]
  exact ⟨rfl, rfl, rfl, hkept _ (by decide) (by decide) (by decide),
    hkept _ (by decide) (by decide) (by decide), fun _ =>
    hkept _ (by decide) (by decide) (by decide)⟩

end BindingLists.Retains

def Reserved (host : Host) (s : RecordSet) : Prop :=
  ∀ e, ∀ r ∈ s.records, r.id = host.defaultId e → bears e.name r

theorem Reserved.isCategory (h : Reserved host s) {r : Record} (hr : r ∈ s.records)
    (hid : host.isDefaultId r.id) : r.isCategory Category.exchange := by
  obtain ⟨e, _, he⟩ := List.any_eq_true.1 hid
  have hb := h e r hr (of_decide_eq_true he).symm
  exact (Bool.and_eq_true_iff.1 hb).1

def Defaulted (host : Host) (s : RecordSet) : Prop :=
  ∀ e, ∀ r ∈ s.records, r.id = host.defaultId e ↔ bears e.name r

theorem Defaulted.reserved (h : Defaulted host s) : Reserved host s := fun e r hr => (h e r hr).1

theorem injective_defaultId_sample :
    Function.Injective (Host.ofConfig (Config.ofHost Sample.hostName)).defaultId := by
  have h : ∀ e f, (Host.ofConfig (Config.ofHost Sample.hostName)).defaultId e =
      (Host.ofConfig (Config.ofHost Sample.hostName)).defaultId f → e = f := by
    decide +kernel
  exact h

def Supplied (host : Host) (s : RecordSet) : Prop :=
  ∀ e, ∃ x ∈ s.records, x.isCategory Category.exchange ∧ x.id = host.defaultId e

def Queued (s : RecordSet) : Prop :=
  ∀ b ∈ s.records, b.isCategory Category.binding → HasQueue s b

theorem bears_newRecord_iff {e f : DefaultExchange} {root : RecordId} :
    bears e.name (newRecord host f root) ↔ f = e := by
  constructor
  · exact fun hb => DefaultExchange.name_injective (bears_newRecord hb)
  · rintro rfl
    have hname : (newRecord host f root).name? = some f.name := rfl
    have hcategory : (newRecord host f root).isCategory Category.exchange :=
      Record.isCategory_iff.2 (MissingExchanges.shortCategory_newRecord ..)
    simp [bears, hcategory, hname]

theorem Defaulted.apply {version : String} (h : Defaulted host s)
    (hinj : Function.Injective host.defaultId) (hc : Footprint host version s s.records c) :
    Defaulted host (s.apply c) := by
  intro e u hu
  cases hc.successor hu with
  | revised hr hrev =>
    rw [hrev.id, hrev.bears]
    exact h e _ hr
  | @created f root heq _ =>
    subst heq
    rw [bears_newRecord_iff]
    exact hinj.eq_iff

theorem carries_of_revisions {verdict : Record → Verdict} (h : Decides verdict RecordSet.empty s c)
    (hv : ∀ r ∈ s.records, ∃ u, (verdict r).left? r = some u ∧ Retains r u) :
    Carries host (fun r => (verdict r).left? r) [] s (s.apply c) where
  records := by
    rw [h.records_apply, List.append_nil]
  retained r hr u hu := by
    obtain ⟨t, ht, hret⟩ := hv r hr
    cases ht.symm.trans hu
    exact hret
  lost r hr hl := by
    obtain ⟨u, hu, _⟩ := hv r hr
    rw [hl] at hu
    cases hu
  supplied := by simp

theorem RootVersion.carries {target : String}
    (h : Decides (rootVerdict target) RecordSet.empty s c) :
    ∃ left created, Carries host left created s (s.apply c) := by
  refine ⟨_, _, carries_of_revisions h ?_⟩
  intro r _
  unfold rootVerdict
  split
  · exact ⟨_, rfl, .withVersion target⟩
  · exact ⟨_, rfl, .refl r⟩

theorem carries_queueVerdict {target : String} {change : Record → Record}
    (h : Decides (queueVerdict target change) RecordSet.empty s c)
    (hchange : ∀ r, r.isCategory Category.queue → Retains r (change r)) :
    ∃ left created, Carries host left created s (s.apply c) := by
  refine ⟨_, _, carries_of_revisions h ?_⟩
  intro r _
  unfold queueVerdict
  split
  · exact ⟨_, rfl, .withVersion target⟩
  · split
    · rename_i hq
      exact ⟨_, rfl, hchange r hq⟩
    · exact ⟨_, rfl, .refl r⟩

namespace ShortTypes

theorem isPresent_iff {category : String} {id : RecordId} :
    isPresent category (renamedAll s) id = true ↔
      ∃ r ∈ s.records, r.isCategory category ∧ r.id = id := by
  unfold isPresent
  rw [get?_renamedAll]
  constructor
  · intro h
    cases hr : s.get? id with
    | none => simp [hr] at h
    | some r =>
      obtain ⟨hmem, hid⟩ := RecordSet.get?_eq_some_iff.1 hr
      have hcategory : r.shortCategory = category := by
        simpa [hr, category_renamed] using h
      exact ⟨r, hmem, Record.isCategory_iff.2 hcategory, hid⟩
  · rintro ⟨r, hr, hcategory, rfl⟩
    rw [RecordSet.get?_of_mem hr, Option.map_some]
    simpa [category_renamed] using Record.isCategory_iff.1 hcategory

theorem isOrphan_iff {r : Record} :
    isOrphan host (renamedAll s) (renamed r) = true ↔
      ¬((∃ x, r.parent? Category.exchange = some x ∧ Attachable host s x) ∧ HasQueue s r) := by
  unfold isOrphan HasQueue
  rw [(Retains.renamed r).parent?, (Retains.renamed r).parent?]
  cases r.parent? Category.exchange with
  | none => simp
  | some x =>
    cases r.parent? Category.queue with
    | none => simp
    | some q =>
      have hexchange : (host.isDefaultId x || isPresent Category.exchange (renamedAll s) x) = true ↔
          Attachable host s x := by
        rw [Bool.or_eq_true, isPresent_iff, Attachable]
      have hqueue : isPresent Category.queue (renamedAll s) q = true ↔
          ∃ r ∈ s.records, r.isCategory Category.queue ∧ some q = some r.id := by
        simp only [isPresent_iff, Option.some.injEq, @eq_comm _ q]
      dsimp only
      rw [Bool.not_eq_true', ← Bool.not_eq_true, Bool.and_eq_true, hexchange, hqueue]
      simp

/-- Both parents of a binding are there, where a default exchange need not have a record yet. -/
def Anchored (host : Host) (s : RecordSet) (b : Record) : Prop :=
  (∃ x, b.parent? Category.exchange = some x ∧ Attachable host s x) ∧ HasQueue s b

theorem left?_eq_some_iff {r u : Record} :
    (verdict host s r).left? r = some u ↔
      renamed r = u ∧ (r.isCategory Category.binding → Anchored host s r) := by
  have hdrop : ((renamed r).category = Category.binding &&
      isOrphan host (renamedAll s) (renamed r)) = true ↔
        r.isCategory Category.binding ∧ ¬Anchored host s r := by
    rw [Bool.and_eq_true, decide_eq_true_eq, category_renamed, ← Record.isCategory_iff,
      isOrphan_iff, Anchored]
  unfold verdict
  split
  · rename_i hd
    obtain ⟨hb, hlost⟩ := hdrop.1 hd
    simp [Verdict.left?, hb, hlost]
  · rename_i hd
    rw [hdrop, not_and, not_not] at hd
    simpa [Verdict.left?] using fun _ => hd

theorem carries (h : Decides (verdict host s) RecordSet.empty s c) :
    Carries host (fun r => (verdict host s r).left? r) [] s (s.apply c) where
  records := by
    rw [h.records_apply, List.append_nil]
  retained r _ u hu := by
    obtain ⟨rfl, _⟩ := left?_eq_some_iff.1 hu
    exact .renamed r
  lost r _ hl := by
    have hlost : ¬(r.isCategory Category.binding → Anchored host s r) := by
      intro hanchored
      rw [left?_eq_some_iff.2 ⟨rfl, hanchored⟩] at hl
      cases hl
    exact Classical.not_imp.1 hlost
  supplied := by simp

theorem anchored (h : Decides (verdict host s) RecordSet.empty s c) {b : Record}
    (hb : b ∈ (s.apply c).records) (hcategory : b.isCategory Category.binding) :
    Anchored host (s.apply c) b := by
  have hcarries := carries h
  rcases hcarries.of_mem hb with ⟨r, _, hl, hret⟩ | hcreated
  · obtain ⟨⟨x, hparent, hx⟩, q, hq, hqueue, hqparent⟩ :=
      (left?_eq_some_iff.1 hl).2 (hret.isCategory _ ▸ hcategory)
    exact ⟨⟨x, (hret.parent? _).trans hparent, hcarries.attachable.2 hx⟩,
      hcarries.hasQueue ⟨q, hq, hqueue, (hret.parent? _).trans hqparent⟩⟩
  · cases hcreated

theorem queued (h : Decides (verdict host s) RecordSet.empty s c) : Queued (s.apply c) :=
  fun _ hb hcategory => (anchored h hb hcategory).2

end ShortTypes

namespace MissingExchanges

theorem fresh_createdIn (h : Reserved host s) {root id : RecordId}
    (hid : id ∈ (createdIn host s root).ids) : id ∉ s.ids := by
  obtain ⟨u, hu, rfl⟩ := RecordSet.mem_ids.1 hid
  obtain ⟨e, he, rfl⟩ := mem_createdIn hu
  intro hmem
  obtain ⟨r, hr, hid⟩ := RecordSet.mem_ids.1 hmem
  -- a record of the id would bear the name, which is missing
  have hbears := h e r hr hid
  have hmissing := (List.mem_filter.1 he).2
  simp only [Bool.not_eq_true', List.any_eq_false] at hmissing
  exact hmissing r hr hbears

theorem carries (hd : Defaulted host s) (h : Supplies host s c) :
    ∃ left created, Carries host left created s (s.apply c) := by
  obtain ⟨verdict, root, hdecides, hanswers, _⟩ := h
  refine ⟨fun r => (verdict r).left? r, (createdIn host s root).records, ?_⟩
  have hleft : ∀ r ∈ s.records, ∃ u, (verdict r).left? r = some u ∧ Retains r u := by
    intro r hr
    have ha := hanswers r hr
    unfold Answers at ha
    split at ha
    · rw [ha]
      exact ⟨_, rfl, .withVersion target⟩
    · split at ha
      · obtain ⟨_, _, _, ⟨x, _, hv⟩ | ⟨_, hv⟩⟩ := ha
        · rw [hv]
          exact ⟨_, rfl, .withAlternate x⟩
        · rw [hv]
          exact ⟨_, rfl, .refl r⟩
      · rw [ha]
        exact ⟨_, rfl, .refl r⟩
  constructor
  · exact hdecides.records_apply_perm fun _ => fresh_createdIn hd.reserved
  · intro r hr u hu
    obtain ⟨t, ht, hret⟩ := hleft r hr
    cases ht.symm.trans hu
    exact hret
  · intro r hr hl
    obtain ⟨u, hu, _⟩ := hleft r hr
    rw [hl] at hu
    cases hu
  · intro u hu
    obtain ⟨e, _, rfl⟩ := mem_createdIn hu
    exact ⟨Record.isCategory_iff.2 (shortCategory_newRecord ..), host.isDefaultId_defaultId e, rfl⟩

theorem not_missing_iff {e : DefaultExchange} :
    e ∉ missingIn s.records ↔ ∃ x ∈ s.records, bears e.name x := by
  simp only [mem_missingIn_iff, unborne_iff, not_forall, Bool.not_eq_false, exists_prop]

theorem supplied (hd : Defaulted host s) (h : Supplies host s c) : Supplied host (s.apply c) := by
  obtain ⟨_, _, hcarries⟩ := carries hd h
  obtain ⟨verdict, root, hdecides, _, _⟩ := h
  intro e
  by_cases he : e ∈ missingIn s.records
  · have hid : host.defaultId e ∈ (createdIn host s root).ids := by
      refine RecordSet.mem_ids_insertAll.2 (.inr ?_)
      exact List.mem_map.2 ⟨_, List.mem_map_of_mem he, rfl⟩
    obtain ⟨u, hu, hid⟩ := RecordSet.mem_ids.1 hid
    obtain ⟨f, _, rfl⟩ := mem_createdIn hu
    exact ⟨_, hdecides.mem_apply.2 (.inl hu), Record.isCategory_iff.2 (shortCategory_newRecord ..),
      hid⟩
  · obtain ⟨x, hx, hb⟩ := not_missing_iff.1 he
    exact hcarries.exists_exchange ⟨x, hx, (Bool.and_eq_true_iff.1 hb).1, (hd e x hx).2 hb⟩

end MissingExchanges

theorem Step.carries {step : Step} (hprune : step ≠ .pruneSelectors) (hlist : step ≠ .listBindings)
    (hd : Defaulted host s) (he : (step.passes host).effect s = .ok c) :
    ∃ left created, Carries host left created s (s.apply c) := by
  cases step with
  | pruneSelectors => exact absurd rfl hprune
  | shortenTypes => exact ⟨_, _, ShortTypes.carries (ShortTypes.decides.of_effect_ok he)⟩
  | promoteSettings =>
    exact carries_queueVerdict (QueueSettings.decides.of_effect_ok he) fun _ => .flatten
  | setQueuePolicy =>
    exact carries_queueVerdict (QueuePolicy.decides.of_effect_ok he) fun _ _ => .revise
  | addMissingExchanges =>
    have hsupplies := MissingExchanges.supplies fun r hr => hd.reserved.isCategory hr
    exact MissingExchanges.carries hd (hsupplies.of_effect_ok he).1
  | listBindings => exact absurd rfl hlist
  | bump source target => exact RootVersion.carries (RootVersion.decides.of_effect_ok he)

structure Inherits (host : Host) (s t : RecordSet) : Prop where
  attachable : ∀ x, Attachable host t x ↔ Attachable host s x
  contributions : ∀ known x, Attachable host s x →
    (contributions known t x).Perm (contributions known s x)
  queued : Queued s → Queued t
  supplied : Supplied host s → Supplied host t

namespace Inherits

theorem refl : Inherits host s s :=
  ⟨fun _ => .rfl, fun _ _ _ => .refl _, fun h => h, fun h => h⟩

theorem trans {v : RecordSet} (h : Inherits host s t) (k : Inherits host t v) :
    Inherits host s v where
  attachable x := (k.attachable x).trans (h.attachable x)
  contributions known x hx :=
    (k.contributions known x ((h.attachable x).2 hx)).trans (h.contributions known x hx)
  queued hs := k.queued (h.queued hs)
  supplied hs := k.supplied (h.supplied hs)

theorem of_carries {left : Record → Option Record} {created : List Record}
    (h : Carries host left created s t) : Inherits host s t where
  attachable _ := h.attachable
  contributions _ _ := h.contributions
  queued hs b hb hcategory := by
    rcases h.of_mem hb with ⟨r, hr, _, hret⟩ | hcreated
    · obtain ⟨q, hq, hcat, hparent⟩ := hs r hr (hret.isCategory _ ▸ hcategory)
      exact h.hasQueue ⟨q, hq, hcat, (hret.parent? _).trans hparent⟩
    · have hx := (h.supplied b hcreated).1
      have hnot := Record.isCategory_eq_false hx Category.binding (by decide)
      rw [hnot] at hcategory
      cases hcategory
  supplied hs e := h.exists_exchange (hs e)

end Inherits

theorem Plan.through_inherits {p : Plan} {steps rest : List Step} {final : RecordSet}
    (hinj : Function.Injective p.host.defaultId) (hprune : Step.pruneSelectors ∉ steps)
    (hlist : Step.listBindings ∉ steps) (hd : Defaulted p.host s)
    (hfinal : p.through (steps ++ rest) s = .ok final) :
    ∃ t, p.through rest t = .ok final ∧ Inherits p.host s t ∧
      (Step.shortenTypes ∈ steps → Queued t) ∧
      (Step.addMissingExchanges ∈ steps → Supplied p.host t) := by
  induction steps generalizing s with
  | nil => exact ⟨s, hfinal, .refl, by simp, by simp⟩
  | cons step steps ih =>
    rw [List.mem_cons, not_or] at hprune hlist
    rw [List.cons_append, through] at hfinal
    cases he : (step.passes p.host).effect s with
    | error e =>
      rw [he] at hfinal
      cases hfinal
    | ok changes =>
      rw [he] at hfinal
      -- ids and names of default exchanges go together at every step, so what is created is new
      have hnext := hd.apply hinj (step.footprint.of_effect_ok he)
      obtain ⟨left, created, hcarries⟩ := Step.carries (Ne.symm hprune.1) (Ne.symm hlist.1) hd he
      obtain ⟨t, ht, hinherits, hqueued, hsupplied⟩ := ih hprune.2 hlist.2 hnext hfinal
      refine ⟨t, ht, (Inherits.of_carries hcarries).trans hinherits, ?_, ?_⟩
      · intro hmem
        rcases List.mem_cons.1 hmem with rfl | hmem
        · exact hinherits.queued (ShortTypes.queued (ShortTypes.decides.of_effect_ok he))
        · exact hqueued hmem
      · intro hmem
        rcases List.mem_cons.1 hmem with rfl | hmem
        · have hsupplies := MissingExchanges.supplies fun r hr => hd.reserved.isCategory hr
          exact hinherits.supplied (MissingExchanges.supplied hd (hsupplies.of_effect_ok he).1)
        · exact hsupplied hmem

end BrokerConfig.Upgrade
