import BrokerConfig.Proofs.CarriedBindings

namespace BrokerConfig.Upgrade

open Json

def Step.onQueue : Step → Lookup → Lookup
  | promoteSettings => QueueSettings.flattened
  | setQueuePolicy => QueuePolicy.governed
  | listBindings => BindingLists.unlisted
  | pruneSelectors | shortenTypes | addMissingExchanges | bump .. => id

def onQueues : List Step → Lookup → Lookup
  | [] => id
  | step :: rest => onQueues rest ∘ step.onQueue

structure Follows (change : Lookup → Lookup) (r u : Record) : Prop where
  revises : Revises r u
  queue : r.isCategory Category.queue → u.attribute? = change r.attribute?

namespace Follows

variable {change change' : Lookup → Lookup} {r u v : Record}

theorem refl (r : Record) : Follows id r r := ⟨.refl r, fun _ => rfl⟩

theorem trans (h : Follows change r u) (k : Follows change' u v) :
    Follows (change' ∘ change) r v where
  revises := h.revises.trans k.revises
  queue hq := by
    rw [k.queue (h.revises.isCategory _ ▸ hq), h.queue hq]
    rfl

theorem of_other (h : Revises r u) {short : String} (hc : r.isCategory short)
    (hne : short ≠ Category.queue) : Follows change r u :=
  ⟨h, fun hq => by rw [Record.isCategory_eq_false hc _ hne] at hq; cases hq⟩

theorem withVersion (hroot : r.isRoot) (version : String) :
    Follows change r (r.withVersion version) :=
  of_other (.withVersion _ (Record.isRoot_iff.1 hroot)) hroot (by decide)

end Follows

structure Succeeds (change : Lookup → Lookup) (s t : RecordSet) : Prop where
  kept : ∀ r ∈ s.records, r.isCategory Category.binding = false →
    ∃ u ∈ t.records, Follows change r u
  origin : ∀ u ∈ t.records, ∃ r ∈ s.records, Follows change r u

namespace Succeeds

variable {change change' : Lookup → Lookup} {s t v : RecordSet} {c : Changes} {host : Host}

theorem refl (s : RecordSet) : Succeeds id s s :=
  ⟨fun r hr _ => ⟨r, hr, .refl r⟩, fun u hu => ⟨u, hu, .refl u⟩⟩

theorem trans (h : Succeeds change s t) (k : Succeeds change' t v) :
    Succeeds (change' ∘ change) s v where
  kept r hr hb := by
    obtain ⟨u, hu, hru⟩ := h.kept r hr hb
    obtain ⟨x, hx, hux⟩ := k.kept u hu (hru.revises.isCategory _ ▸ hb)
    exact ⟨x, hx, hru.trans hux⟩
  origin x hx := by
    obtain ⟨u, hu, hux⟩ := k.origin x hx
    obtain ⟨r, hr, hru⟩ := h.origin u hu
    exact ⟨r, hr, hru.trans hux⟩

theorem of_decides {verdict : Record → Verdict} (h : Decides verdict RecordSet.empty s c)
    (hleft : ∀ r ∈ s.records, ∀ u, (verdict r).left? r = some u → Follows change r u)
    (hlost : ∀ r ∈ s.records, (verdict r).left? r = none → r.isCategory Category.binding) :
    Succeeds change s (s.apply c) where
  kept r hr hb := by
    cases hl : (verdict r).left? r with
    | none =>
      rw [hlost r hr hl] at hb
      cases hb
    | some u =>
      exact ⟨u, h.mem_apply_iff.2 ⟨r, hr, hl⟩, hleft r hr u hl⟩
  origin u hu := by
    obtain ⟨r, hr, hl⟩ := h.mem_apply_iff.1 hu
    exact ⟨r, hr, hleft r hr u hl⟩

theorem of_revisions {verdict : Record → Verdict} (h : Decides verdict RecordSet.empty s c)
    (hv : ∀ r ∈ s.records, ∃ u, (verdict r).left? r = some u ∧ Follows change r u) :
    Succeeds change s (s.apply c) := by
  apply of_decides h
  · intro r hr u hu
    obtain ⟨t, ht, hru⟩ := hv r hr
    cases ht.symm.trans hu
    exact hru
  · intro r hr hl
    obtain ⟨t, ht, _⟩ := hv r hr
    rw [hl] at ht
    cases ht

theorem reserved (h : Succeeds change s t) (hs : Reserved host s) : Reserved host t := by
  intro e u hu hid
  obtain ⟨r, hr, hru⟩ := h.origin u hu
  rw [hru.revises.bears]
  exact hs e r hr (hru.revises.id.symm.trans hid)

end Succeeds

def Parented (s : RecordSet) : Prop := ∀ b ∈ s.records, b.isCategory Category.binding →
  (b.parent? Category.exchange).isSome ∧ (b.parent? Category.queue).isSome

section Steps

variable {s : RecordSet} {c : Changes} {host : Host}

theorem RootVersion.succeeds {target : String}
    (h : Decides (rootVerdict target) RecordSet.empty s c) : Succeeds id s (s.apply c) := by
  apply Succeeds.of_revisions h
  intro r _
  unfold rootVerdict
  split
  · rename_i hroot
    exact ⟨_, rfl, .withVersion hroot target⟩
  · exact ⟨_, rfl, .refl r⟩

theorem succeeds_queueVerdict {target : String} {change : Record → Record}
    {onQueue : Lookup → Lookup} (h : Decides (queueVerdict target change) RecordSet.empty s c)
    (hrevises : ∀ r : Record, r.shortCategory = Category.queue → Revises r (change r))
    (hqueue : ∀ r : Record, (change r).attribute? = onQueue r.attribute?) :
    Succeeds onQueue s (s.apply c) := by
  apply Succeeds.of_revisions h
  intro r _
  unfold queueVerdict
  split
  · rename_i hroot
    exact ⟨_, rfl, .withVersion hroot target⟩
  · split
    · rename_i hq
      exact ⟨_, rfl, hrevises r (Record.isCategory_iff.1 hq), fun _ => hqueue r⟩
    · rename_i hq
      exact ⟨_, rfl, .refl r, fun hq' => absurd hq' hq⟩

theorem Selectors.succeeds (h : Decides (verdict host s) RecordSet.empty s c) :
    Succeeds id s (s.apply c) := by
  apply Succeeds.of_revisions h
  intro r _
  unfold verdict
  split
  · rename_i hroot
    exact ⟨_, rfl, .withVersion hroot target⟩
  · split
    · rename_i hb
      cases hp : prune? (host.defaultId .topic) s r with
      | none => exact ⟨_, rfl, .refl r⟩
      | some pruned =>
        exact ⟨_, rfl, .of_other (.prune? (Record.isCategory_iff.1 hb) hp) hb (by decide)⟩
    · exact ⟨_, rfl, .refl r⟩

namespace ShortTypes

theorem follows_renamed (r : Record) : Follows id r (renamed r) := by
  have hshort := Revises.withShortCategory r
  unfold renamed
  dsimp only
  split
  · rename_i hroot
    have hcategory : r.isCategory Category.virtualHost := Record.isCategory_iff.2 hroot
    have hversion := Revises.withVersion target (hshort.category.trans hroot)
    exact .of_other (hshort.trans hversion) hcategory (by decide)
  · exact ⟨hshort, fun _ => rfl⟩

theorem succeeds (h : Decides (verdict host s) RecordSet.empty s c) :
    Succeeds id s (s.apply c) := by
  apply Succeeds.of_decides h
  · intro r _ u hu
    obtain ⟨rfl, _⟩ := left?_eq_some_iff.1 hu
    exact follows_renamed r
  · exact fun r hr hl => ((carries h).lost r hr hl).1

theorem parented (h : Decides (verdict host s) RecordSet.empty s c) : Parented (s.apply c) := by
  intro b hb hcategory
  obtain ⟨⟨x, hx, _⟩, q, _, _, hq⟩ := anchored h hb hcategory
  rw [hx, hq]
  exact ⟨rfl, rfl⟩

end ShortTypes

theorem BindingLists.succeeds (h : Decides (verdict s) RecordSet.empty s c) :
    Succeeds unlisted s (s.apply c) := by
  apply Succeeds.of_decides h
  · intro r _ u hu
    refine ⟨revises_left? hu, fun hq => ?_⟩
    have hroot := Record.isRoot_eq_false hq (by decide)
    have hb := Record.isCategory_eq_false hq Category.binding (by decide)
    have hx := Record.isCategory_eq_false hq Category.exchange (by decide)
    have hset := attribute?_without_bindings r
    simp only [verdict, hroot, hb, hx, hq, Bool.false_eq_true, if_false, Bool.true_and] at hu
    split at hu
    · rename_i hhas
      cases hu
      rwa [if_pos hhas] at hset
    · rename_i hhas
      cases hu
      rwa [if_neg hhas] at hset
  · exact fun r _ hl => binding_of_left?_eq_none hl

end Steps

theorem TwoPass.Yields.effect_ok {p : TwoPass} {s : RecordSet} {done : Changes → Prop}
    (h : p.Yields s done fun _ => False) : ∃ c, p.effect s = .ok c ∧ done c := by
  cases he : p.effect s with
  | error e => exact (h.of_effect_error he).elim
  | ok c => exact ⟨c, rfl, h.of_effect_ok he⟩

theorem Succeeds.parented {change : Lookup → Lookup} {s t : RecordSet} (h : Succeeds change s t)
    (hs : Parented s) : Parented t := by
  intro u hu hb
  obtain ⟨r, hr, hru⟩ := h.origin u hu
  rw [Record.parent?, Record.parent?, hru.revises.parents]
  exact hs r hr (hru.revises.isCategory _ ▸ hb)

theorem Step.succeeds (host : Host) (s : RecordSet) {step : Step}
    (hadd : step ≠ .addMissingExchanges) (hlist : step ≠ .listBindings) :
    ∃ c, (step.passes host).effect s = .ok c ∧ Succeeds step.onQueue s (s.apply c) ∧
      (step = .shortenTypes → Parented (s.apply c)) := by
  cases step with
  | pruneSelectors =>
    obtain ⟨c, he, hc⟩ := (@Selectors.decides s host).effect_ok
    exact ⟨c, he, Selectors.succeeds hc, nofun⟩
  | shortenTypes =>
    obtain ⟨c, he, hc⟩ := (@ShortTypes.decides s host).effect_ok
    exact ⟨c, he, ShortTypes.succeeds hc, fun _ => ShortTypes.parented hc⟩
  | promoteSettings =>
    obtain ⟨c, he, hc⟩ := (@QueueSettings.decides s).effect_ok
    refine ⟨c, he, ?_, nofun⟩
    exact succeeds_queueVerdict hc (fun _ => .flatten) QueueSettings.attribute?_flatten
  | setQueuePolicy =>
    obtain ⟨c, he, hc⟩ := (@QueuePolicy.decides s).effect_ok
    refine ⟨c, he, ?_, nofun⟩
    exact succeeds_queueVerdict hc (fun _ => .revise) QueuePolicy.attribute?_revise
  | addMissingExchanges => exact absurd rfl hadd
  | listBindings => exact absurd rfl hlist
  | bump source target =>
    obtain ⟨c, he, hc⟩ := (@RootVersion.decides s target).effect_ok
    exact ⟨c, he, RootVersion.succeeds hc, nofun⟩

theorem Plan.through_succeeds {p : Plan} (steps rest : List Step) (s : RecordSet)
    (hadd : Step.addMissingExchanges ∉ steps) (hlist : Step.listBindings ∉ steps) :
    ∃ t, p.through (steps ++ rest) s = p.through rest t ∧ Succeeds (onQueues steps) s t ∧
      (Step.shortenTypes ∈ steps → Parented t) := by
  induction steps generalizing s with
  | nil => exact ⟨s, rfl, .refl s, by simp⟩
  | cons step steps ih =>
    rw [List.mem_cons, not_or] at hadd hlist
    obtain ⟨c, he, hfirst, hshort⟩ :=
      Step.succeeds p.host s (Ne.symm hadd.1) (Ne.symm hlist.1)
    obtain ⟨t, ht, hrest, hparented⟩ := ih (s.apply c) hadd.2 hlist.2
    refine ⟨t, ?_, hfirst.trans hrest, ?_⟩
    · rw [List.cons_append, through, he]
      exact ht
    · intro hmem
      rcases List.mem_cons.1 hmem with rfl | hmem
      · exact hrest.parented (hshort rfl)
      · exact hparented hmem

end BrokerConfig.Upgrade
