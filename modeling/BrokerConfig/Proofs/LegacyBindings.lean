import BrokerConfig.Proofs.CarriedBindings

namespace BrokerConfig.Upgrade

open Json
open BindingLists (Attachable Carries Retains contributions listed)

variable {host : Host} {s t : RecordSet} {c : Changes}

namespace Selectors

def unfiltered (host : Host) (s : RecordSet) (r : Record) : Record :=
  if r.isCategory Category.binding then (prune? (host.defaultId .topic) s r).getD r else r

theorem revises_unfiltered (host : Host) (s : RecordSet) (r : Record) :
    Revises r (unfiltered host s r) := by
  unfold unfiltered
  split
  · rename_i hb
    cases hp : prune? (host.defaultId .topic) s r with
    | none => exact .refl r
    | some u => exact .prune? (Record.isCategory_iff.1 hb) hp
  · exact .refl r

def unfilteredAll (host : Host) (s : RecordSet) : RecordSet where
  records := s.records.map (unfiltered host s)
  distinct := by
    have hids : Record.id ∘ unfiltered host s = Record.id :=
      funext fun r => (revises_unfiltered host s r).id
    rw [List.map_map, hids]
    exact s.distinct

theorem attachable_unfilteredAll {x : RecordId} :
    Attachable host (unfilteredAll host s) x ↔ Attachable host s x := by
  have hrev := revises_unfiltered host s
  unfold Attachable unfilteredAll
  constructor
  · rintro (hd | ⟨_, hu, hx, rfl⟩)
    · exact .inl hd
    · obtain ⟨r, hr, rfl⟩ := List.mem_map.1 hu
      exact .inr ⟨r, hr, ((hrev r).isCategory _).symm.trans hx, (hrev r).id.symm⟩
  · rintro (hd | ⟨r, hr, hx, rfl⟩)
    · exact .inl hd
    · exact .inr ⟨unfiltered host s r, List.mem_map_of_mem hr, ((hrev r).isCategory _).trans hx, (hrev r).id⟩

theorem left?_verdict (r : Record) : (verdict host s r).left? r =
    some (if (unfiltered host s r).isRoot then (unfiltered host s r).withVersion target
      else unfiltered host s r) := by
  rw [(revises_unfiltered host s r).isRoot]
  unfold verdict unfiltered
  by_cases hroot : r.isRoot
  · have hb := Record.isCategory_eq_false hroot Category.binding (by decide)
    simp [hroot, hb, Verdict.left?]
  · by_cases hb : r.isCategory Category.binding
    · cases prune? (host.defaultId .topic) s r <;> simp [hroot, hb, Verdict.left?]
    · simp [hroot, hb, Verdict.left?]

theorem inherits (h : Decides (verdict host s) RecordSet.empty s c) :
    Inherits host (unfilteredAll host s) (s.apply c) := by
  apply @Inherits.of_carries host (unfilteredAll host s) (s.apply c)
    (fun u => some (if u.isRoot then u.withVersion target else u)) []
  constructor
  · rw [h.records_apply, List.append_nil, unfilteredAll, List.filterMap_map,
      List.filterMap_congr fun r _ => left?_verdict r]
    rfl
  · intro r _ u hu
    cases hu
    split
    · exact .withVersion target
    · exact .refl r
  · intro r _ hl
    cases hl
  · simp

end Selectors

namespace BindingLists

theorem find?_name_filterMap {left : Record → Option Record}
    (hrevises : ∀ r u, left r = some u → Revises r u)
    (hexchange : ∀ r, r.isCategory Category.exchange → ∃ u, left r = some u) (name : String)
    (rs : List Record) :
    (((rs.filterMap left).filter (·.isCategory Category.exchange)).find? fun e =>
        e.name? = some name).map Record.id =
      ((rs.filter (·.isCategory Category.exchange)).find? fun e =>
        e.name? = some name).map Record.id := by
  induction rs with
  | nil => rfl
  | cons r rest ih =>
    by_cases hx : r.isCategory Category.exchange
    · obtain ⟨u, hu⟩ := hexchange r hx
      have hrev := hrevises r u hu
      have hux : u.isCategory Category.exchange := hrev.isCategory _ ▸ hx
      have hname : u.name? = r.name? := by
        rw [Record.name?, Record.textAttribute?, hrev.attribute?_eq hx (by decide)]
        rfl
      simp only [List.filterMap_cons_some hu, List.filter_cons, hux, hx, if_true, List.find?_cons,
        hname]
      split
      · exact congrArg some hrev.id
      · exact ih
    · cases hu : left r with
      | none => simpa only [List.filterMap_cons_none hu, List.filter_cons, hx, Bool.false_eq_true,
          if_false] using ih
      | some u =>
        have hux : ¬u.isCategory Category.exchange := (hrevises r u hu).isCategory _ ▸ hx
        simpa only [List.filterMap_cons_some hu, List.filter_cons, hux, hx, Bool.false_eq_true,
          if_false] using ih

theorem resolve?_apply (h : Decides (verdict s) RecordSet.empty s c) (reference : String) :
    resolve? (exchangesOf (s.apply c)) reference = resolve? (exchangesOf s) reference := by
  -- bindings are dropped, but every exchange keeps its id and its name
  apply resolve?_congr
  · intro id
    rw [RecordSet.contains, RecordSet.contains, get?_exchangesOf, get?_exchangesOf, h.get?_apply,
      RecordSet.get?_empty, Option.none_or]
    cases s.get? id with
    | none => rfl
    | some r =>
      rw [Option.bind_some]
      cases hu : (verdict s r).left? r with
      | none =>
        have hx : ¬r.isCategory Category.exchange := by
          intro hx
          obtain ⟨u, hu'⟩ := exists_left? (s := s) hx
          rw [hu] at hu'
          cases hu'
        simp [hx]
      | some u =>
        rw [Option.filter_some, Option.filter_some, (revises_left? hu).isCategory]
        split <;> rfl
  · have hfind := find?_name_filterMap (fun r u => revises_left? (s := s))
      (fun r hx => exists_left? hx) reference s.records
    rw [← h.records_apply] at hfind
    exact hfind

theorem contributions_apply (h : Decides (verdict s) RecordSet.empty s c) (t : RecordSet)
    (x : RecordId) : contributions (s.apply c) t x = contributions s t x := by
  have hmeant : meant? (s.apply c) = meant? s := by
    funext reference
    rw [← resolve?_exchangesOf, ← resolve?_exchangesOf, resolve?_apply h]
  unfold contributions share
  rw [hmeant]

theorem lists_contributions (h : Decides (verdict s) RecordSet.empty s c) (hqueued : Queued s) :
    (∀ r ∈ (s.apply c).records, r.isCategory Category.binding = false) ∧
    ∀ x ∈ (s.apply c).records, x.isCategory Category.exchange →
      (∃ r ∈ s.records, r.isCategory Category.exchange ∧ r.id = x.id) ∧
      (contributions (s.apply c) s x.id ≠ [] →
        ∃ entries, x.attribute? Attribute.durableBindings = some (.array entries) ∧
          entries.Perm (contributions (s.apply c) s x.id)) := by
  constructor
  · exact not_binding_of_mem_apply h
  · intro x hx hcategory
    obtain ⟨r, hr, hl⟩ := h.mem_apply_iff.1 hx
    have hrev := revises_left? hl
    have hrx : r.isCategory Category.exchange := hrev.isCategory _ ▸ hcategory
    refine ⟨⟨r, hr, hrx, hrev.id.symm⟩, ?_⟩
    rw [contributions_apply h, hrev.id]
    intro hne
    obtain ⟨bindings, hgathered, hperm⟩ := gathered_contributions hqueued hne
    rw [verdict_exchange hrx, hgathered] at hl
    cases hl
    exact ⟨_, (OrderedMap.get?_insert ..).trans (if_pos rfl), hperm⟩

end BindingLists

namespace Plan

def carryingSteps : List Step :=
  [.shortenTypes, .promoteSettings, .setQueuePolicy, .addMissingExchanges,
    .bump "2.0" "3.0", .bump "3.0" "6.0", .bump "6.0" "6.1"]

structure Delivered (host : Host) (s final : RecordSet) : Prop where
  spent : ∀ r ∈ final.records, r.isCategory Category.binding = false
  listed : ∀ x ∈ final.records, x.isCategory Category.exchange →
    contributions final s x.id ≠ [] →
    ∃ entries, x.attribute? Attribute.durableBindings = some (.array entries) ∧
      entries.Perm (contributions final s x.id)
  attached : ∀ x, Attachable host s x →
    ∃ r ∈ final.records, r.isCategory Category.exchange ∧ r.id = x

theorem Delivered.of_inherits {final : RecordSet} (hst : Inherits host s t)
    (h : Delivered host t final) (hfinal : ∀ x ∈ final.records, x.isCategory Category.exchange →
      Attachable host s x.id) : Delivered host s final where
  spent := h.spent
  listed x hx hcategory hne := by
    have hperm := hst.contributions final x.id (hfinal x hx hcategory)
    have hne' : contributions final t x.id ≠ [] := by
      intro hnil
      rw [hnil] at hperm
      exact hne hperm.nil_eq.symm
    obtain ⟨entries, hentries, hlisted⟩ := h.listed x hx hcategory hne'
    exact ⟨entries, hentries, hlisted.trans hperm⟩
  attached x hx := h.attached x ((hst.attachable x).2 hx)

theorem through_delivers {p : Plan} {final : RecordSet}
    (hinj : Function.Injective p.host.defaultId) (hd : Defaulted p.host s)
    (hfinal : p.through (carryingSteps ++ [.listBindings]) s = .ok final) :
    Delivered p.host s final ∧ ∀ x ∈ final.records, x.isCategory Category.exchange →
      Attachable p.host s x.id := by
  obtain ⟨t, ht, hinherits, hqueued, hsupplied⟩ := through_inherits hinj (by decide) (by decide) hd
    hfinal
  have hqueued := hqueued (by decide)
  have hsupplied := hsupplied (by decide)
  rw [through] at ht
  cases he : (Step.listBindings.passes p.host).effect t with
  | error e =>
    rw [he] at ht
    cases ht
  | ok changes =>
    rw [he] at ht
    cases ht
    obtain ⟨hdecides, _⟩ := BindingLists.consolidates.of_effect_ok he
    obtain ⟨hspent, hlisted⟩ := BindingLists.lists_contributions hdecides hqueued
    have hattachable : ∀ x ∈ (t.apply changes).records, x.isCategory Category.exchange →
        Attachable p.host s x.id := by
      intro x hx hcategory
      exact (hinherits.attachable x.id).1 (.inr (hlisted x hx hcategory).1)
    refine ⟨.of_inherits hinherits ⟨hspent, ?_, ?_⟩ hattachable, hattachable⟩
    · exact fun x hx hcategory => (hlisted x hx hcategory).2
    · intro x hx
      -- a default exchange that had no record has one by now
      have hexchange : ∃ r ∈ t.records, r.isCategory Category.exchange ∧ r.id = x := by
        rcases hx with hx | hx
        · obtain ⟨e, _, he⟩ := List.any_eq_true.1 hx
          exact of_decide_eq_true he ▸ hsupplied e
        · exact hx
      obtain ⟨r, hr, hcategory, rfl⟩ := hexchange
      obtain ⟨u, hu⟩ := BindingLists.exists_left? (s := t) hcategory
      have hrev := BindingLists.revises_left? hu
      refine ⟨u, ?_, (hrev.isCategory _).trans hcategory, hrev.id⟩
      rw [hdecides.records_apply]
      exact List.mem_filterMap.2 ⟨r, hr, hu⟩

theorem delivers_pruned {p : Plan} {final : RecordSet} (hinj : Function.Injective p.host.defaultId)
    (hd : Defaulted p.host s)
    (hfinal : p.through (.pruneSelectors :: (carryingSteps ++ [.listBindings])) s = .ok final) :
    Delivered p.host (Selectors.unfilteredAll p.host s) final := by
  rw [through] at hfinal
  cases he : (Step.pruneSelectors.passes p.host).effect s with
  | error e =>
    rw [he] at hfinal
    cases hfinal
  | ok changes =>
    rw [he] at hfinal
    have hnext := hd.apply hinj ((Step.footprint .pruneSelectors).of_effect_ok he)
    have hinherits := Selectors.inherits (Selectors.decides.of_effect_ok he)
    obtain ⟨hdelivered, hattachable⟩ := through_delivers hinj hnext hfinal
    apply hdelivered.of_inherits hinherits
    intro x hx hcategory
    exact (hinherits.attachable x.id).1 (hattachable x hx hcategory)

def bindingSource (host : Host) (version : String) (s : RecordSet) : RecordSet :=
  if version = "0.0" then Selectors.unfilteredAll host s else s

theorem upgradeSet_delivers {config : Config} {version : String} {o : Outcome}
    (hversion : declaredVersion s = .ok version) (hold : version = "0.0" ∨ version = "0.1")
    (hinj : Function.Injective (Host.ofConfig config).defaultId)
    (hd : Defaulted (Host.ofConfig config) s) (hne : s.isEmpty = false)
    (ho : (ended ((standard config).upgradeSet .acceptAll s .empty)).1 = .ok o) :
    Delivered (Host.ofConfig config) (bindingSource (Host.ofConfig config) version s) o.records := by
  rw [ended_upgradeSet hne, hversion] at ho
  have hthrough : ∀ steps, (standard config).route? version = some steps →
      (standard config).through steps s = .ok o.records := by
    intro steps hsteps
    dsimp only at ho
    rw [hsteps] at ho
    dsimp only at ho
    rw [← follow_acceptAll steps, ho]
    rfl
  rcases hold with rfl | rfl
  · exact delivers_pruned (p := standard config) hinj hd (hthrough _ rfl)
  · exact (through_delivers (p := standard config) hinj hd (hthrough _ rfl)).1

/-- No valid binding of the oldest versions is lost or doubled. -/
theorem upgrade_lists_bindings (config : Config) (input : List Record) (version : String)
    (o : Outcome) (hids : (input.map Record.id).Nodup)
    (hversion : declaredVersion (RecordSet.ofList input) = .ok version)
    (hold : version = "0.0" ∨ version = "0.1")
    (hinj : Function.Injective (Host.ofConfig config).defaultId)
    (hdefaults : ∀ e, ∀ r ∈ input, r.id = (Host.ofConfig config).defaultId e ↔
      r.isCategory Category.exchange ∧ r.name? = some e.name)
    (ho : (ended ((standard config).upgrade input .empty)).1 = .ok o) :
    let host := Host.ofConfig config
    let given := contributions o.records (bindingSource host version (RecordSet.ofList input))
    (∀ r ∈ o.records.records, r.isCategory Category.binding = false) ∧
      (∀ x ∈ o.records.records, x.isCategory Category.exchange → given x.id ≠ [] →
        ∃ entries, x.attribute? Attribute.durableBindings = some (.array entries) ∧
          entries.Perm (given x.id)) ∧
      ∀ b ∈ input, ∀ x, b.isCategory Category.binding → b.parent? Category.exchange = some x →
        (host.isDefaultId x ∨ ∃ r ∈ input, r.isCategory Category.exchange ∧ r.id = x) →
        ∃ r ∈ o.records.records, r.isCategory Category.exchange ∧ r.id = x := by
  have hs : RecordSet.ofList input = ⟨input, hids⟩ := RecordSet.ofList_records ⟨input, hids⟩
  rw [upgrade, upgradeWith] at ho
  rw [hs] at hversion ho ⊢
  have hd : Defaulted (Host.ofConfig config) ⟨input, hids⟩ := by
    intro e r hr
    rw [hdefaults e r hr, MissingExchanges.bears, Bool.and_eq_true, decide_eq_true_eq]
  cases hne : RecordSet.isEmpty ⟨input, hids⟩ with
  | true =>
    have hinput : input = [] := List.isEmpty_iff.1 hne
    subst hinput
    cases ho
    refine ⟨?_, ?_, ?_⟩
    · rintro r ⟨⟩
    · rintro x ⟨⟩
    · rintro b ⟨⟩
  | false =>
    have hdelivered := upgradeSet_delivers hversion hold hinj hd hne ho
    refine ⟨hdelivered.spent, hdelivered.listed, ?_⟩
    intro b _ x _ _ hx
    have hattachable : Attachable (Host.ofConfig config)
        (bindingSource (Host.ofConfig config) version ⟨input, hids⟩) x := by
      unfold bindingSource
      split
      · exact Selectors.attachable_unfilteredAll.2 hx
      · exact hx
    exact hdelivered.attached x hattachable

theorem upgrade_lists_bindings_legacy :
    let config := Config.ofHost Sample.hostName
    let id : Sample.Supply := fun n => ⟨BitVec.ofNat 128 (n + 1)⟩
    let topic := (Host.ofConfig config).defaultId .topic
    let tag := Category.qualified Category.binding
    let selector := ("x-filter-jms-selector", Value.text "a = 1")
    let other := ("x-match", Value.text "any")
    let filtered := (Sample.binding (id 4) tag "filtered" (id 1) (id 2)).withAttribute
      Attribute.arguments (.object [selector, other])
    let topical := (Sample.binding (id 5) tag "topical" topic (id 2)).withAttribute
      Attribute.arguments (.object [selector])
    let input := Sample.host (id 0) (some "0.0") :: filtered :: topical :: Sample.bindingForms id
    (input.map Record.id).Nodup ∧ declaredVersion (RecordSet.ofList input) = .ok "0.0" ∧
      Function.Injective (Host.ofConfig config).defaultId ∧
      (∀ e, ∀ r ∈ input, r.id = (Host.ofConfig config).defaultId e ↔
        r.isCategory Category.exchange ∧ r.name? = some e.name) ∧
      ∃ o, (ended ((standard config).upgrade input .empty)).1 = .ok o ∧
        (∀ r ∈ o.records.records, r.isCategory Category.binding = false) ∧
        (∃ x ∈ o.records.records, x.id = id 1 ∧
          ∃ entries, x.attribute? Attribute.durableBindings = some (.array entries) ∧
            entries.Perm [listed "filtered" "q" (some (.object [other])),
              listed "standalone" "q" none, listed "from-queue" "q" (some (.object [other])),
              listed "inline" "q" none]) ∧
        ∃ x ∈ o.records.records, x.id = topic ∧
          ∃ entries, x.attribute? Attribute.durableBindings = some (.array entries) ∧
            entries.Perm [listed "topical" "q" (some (.object [selector]))] := by
  intro config id topic tag selector other filtered topical input
  have hids : (input.map Record.id).Nodup := by decide +kernel
  have hversion : declaredVersion (RecordSet.ofList input) = .ok "0.0" := by decide +kernel
  have hinj : Function.Injective (Host.ofConfig config).defaultId := injective_defaultId_sample
  have hdefaults : ∀ e, ∀ r ∈ input, r.id = (Host.ofConfig config).defaultId e ↔
      r.isCategory Category.exchange ∧ r.name? = some e.name := by
    decide +kernel
  have hgiven : (ended ((standard config).upgrade input .empty)).1.toOption.any (fun o => decide
      (contributions o.records
          (bindingSource (Host.ofConfig config) "0.0" (RecordSet.ofList input)) (id 1) =
        [listed "filtered" "q" (some (.object [other])), listed "standalone" "q" none,
          listed "from-queue" "q" (some (.object [other])), listed "inline" "q" none] ∧
      contributions o.records
          (bindingSource (Host.ofConfig config) "0.0" (RecordSet.ofList input)) topic =
        [listed "topical" "q" (some (.object [selector]))] ∧
      ∀ key ∈ [id 1, topic],
        ∃ x ∈ o.records.records, x.isCategory Category.exchange ∧ x.id = key)) = true := by
    decide +kernel
  obtain ⟨o, ho, hgiven⟩ := (Option.any_eq_true ..).1 hgiven
  obtain ⟨hfirst, hsecond, hexchange⟩ := of_decide_eq_true hgiven
  have hmem : topic ∈ [id 1, topic] := List.mem_cons_of_mem _ List.mem_cons_self
  clear_value config input
  have hok := eq_ok_of_toOption ho
  obtain ⟨hspent, hlists, -⟩ :=
    upgrade_lists_bindings config input "0.0" o hids hversion (.inl rfl) hinj hdefaults hok
  have hlist : ∀ key list, contributions o.records
        (bindingSource (Host.ofConfig config) "0.0" (RecordSet.ofList input)) key = list →
      list ≠ [] → key ∈ [id 1, topic] → ∃ x ∈ o.records.records, x.id = key ∧
        ∃ entries, x.attribute? Attribute.durableBindings = some (.array entries) ∧
          entries.Perm list := by
    rintro key list rfl hne hkey
    obtain ⟨x, hx, hcategory, rfl⟩ := hexchange key hkey
    exact ⟨x, hx, rfl, hlists x hx hcategory hne⟩
  exact ⟨hids, hversion, hinj, hdefaults, o, hok, hspent,
    hlist _ _ hfirst (List.cons_ne_nil _ _) List.mem_cons_self,
    hlist _ _ hsecond (List.cons_ne_nil _ _) hmem⟩

end Plan

end BrokerConfig.Upgrade
