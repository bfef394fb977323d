import BrokerConfig.Proofs.Alike
import BrokerConfig.Proofs.Consolidation
import BrokerConfig.Proofs.ExchangeSupply
import BrokerConfig.Proofs.Regular
import BrokerConfig.Proofs.Route
import BrokerConfig.Sample

namespace BrokerConfig.Upgrade

open Json

variable {host : Host} {s t : RecordSet}

def EffectsAlike : Except Failure Changes → Except Failure Changes → Prop
  | .ok c, .ok d => c.Alike d
  | .error e, .error f => e.ctorIdx = f.ctorIdx
  | _, _ => False

theorem TwoPass.Yields.effects_alike {p q : TwoPass} {done done' : Changes → Prop}
    {failed failed' : Failure → Prop} (hp : p.Yields s done failed) (hq : q.Yields t done' failed')
    (hdone : ∀ c d, done c → done' d → c.Alike d)
    (hfailed : ∀ e f, failed e → failed' f → e.ctorIdx = f.ctorIdx)
    (hleft : ∀ c f, done c → failed' f → False) (hright : ∀ e d, failed e → done' d → False) :
    EffectsAlike (p.effect s) (q.effect t) := by
  cases hs : p.effect s with
  | ok c =>
    cases ht : q.effect t with
    | ok d => exact hdone c d (hp.of_effect_ok hs) (hq.of_effect_ok ht)
    | error f => exact hleft c f (hp.of_effect_ok hs) (hq.of_effect_error ht)
  | error e =>
    cases ht : q.effect t with
    | ok d => exact hright e d (hp.of_effect_error hs) (hq.of_effect_ok ht)
    | error f => exact hfailed e f (hp.of_effect_error hs) (hq.of_effect_error ht)

theorem TwoPass.Yields.decides_alike {p q : TwoPass} {v w : Record → Verdict}
    (hp : p.Yields s (Decides v RecordSet.empty s) fun _ => False)
    (hq : q.Yields t (Decides w RecordSet.empty t) fun _ => False) (h : s.Alike t)
    (hv : ∀ r u, r.Alike u → (v r).Alike (w u)) : EffectsAlike (p.effect s) (q.effect t) := by
  apply hp.effects_alike hq
  · exact fun c d hc hd => hc.alike hd h (fun _ => rfl) fun r _ u _ => hv r u
  · exact fun _ _ he => he.elim
  · exact fun _ _ _ hf => hf
  · exact fun _ _ he _ => he

theorem verdicts_alike {v w : Record → Verdict}
    (hx : ∀ r, r.isCategory Category.exchange → v r = .keep ∧ w r = .keep)
    (hvw : ∀ r, r.isCategory Category.exchange = false → v r = w r) {r u : Record}
    (h : r.Alike u) : (v r).Alike (w u) := by
  by_cases hr : r.isCategory Category.exchange
  · rw [(hx r hr).1, (hx u (h.isCategory _ ▸ hr)).2]
    exact .keep
  · rw [Bool.not_eq_true] at hr
    rw [← h.eq_of_not_exchange hr, hvw r hr]
    exact .refl _

theorem rootVerdict_exchange (version : String) {r : Record} (hx : r.isCategory Category.exchange) :
    rootVerdict version r = .keep := by
  simp [rootVerdict, Record.isRoot_eq_false hx (by decide)]

theorem queueVerdict_exchange (version : String) (change : Record → Record) {r : Record}
    (hx : r.isCategory Category.exchange) : queueVerdict version change r = .keep := by
  have hroot := Record.isRoot_eq_false hx (by decide)
  have hq := Record.isCategory_eq_false hx Category.queue (by decide)
  simp [queueVerdict, hroot, hq]

theorem RootVersion.effects_alike {target : String} (h : s.Alike t) :
    EffectsAlike ((passes target).effect s) ((passes target).effect t) :=
  decides.decides_alike decides h fun _ _ => verdicts_alike
    (fun _ hx => ⟨rootVerdict_exchange _ hx, rootVerdict_exchange _ hx⟩) fun _ _ => rfl

theorem QueueSettings.effects_alike (h : s.Alike t) :
    EffectsAlike (passes.effect s) (passes.effect t) :=
  decides.decides_alike decides h fun _ _ => verdicts_alike
    (fun _ hx => ⟨queueVerdict_exchange _ _ hx, queueVerdict_exchange _ _ hx⟩) fun _ _ => rfl

theorem QueuePolicy.effects_alike (h : s.Alike t) :
    EffectsAlike (passes.effect s) (passes.effect t) :=
  decides.decides_alike decides h fun _ _ => verdicts_alike
    (fun _ hx => ⟨queueVerdict_exchange _ _ hx, queueVerdict_exchange _ _ hx⟩) fun _ _ => rfl

namespace Selectors

theorem verdict_exchange {r : Record} (hx : r.isCategory Category.exchange) :
    verdict host s r = .keep := by
  have hroot := Record.isRoot_eq_false hx (by decide)
  have hb := Record.isCategory_eq_false hx Category.binding (by decide)
  simp [verdict, hroot, hb]

theorem prune?_alike (h : s.Alike t) (topicId : RecordId) (b : Record) :
    prune? topicId s b = prune? topicId t b := by
  have hb : bindsTopic topicId s b = bindsTopic topicId t b := by
    unfold bindsTopic
    cases b.parent? Category.exchange with
    | none => rfl
    | some id =>
      rcases h.cases id with ⟨hs, ht⟩ | ⟨r, u, hs, ht, ha⟩
      · simp only [hs, ht]
      · simp only [hs, ht, ha.textAttribute? (show Attribute.type ≠ _ by decide)]
  simp only [prune?, hb]

theorem effects_alike (h : s.Alike t) :
    EffectsAlike ((passes host).effect s) ((passes host).effect t) := by
  apply decides.decides_alike decides h
  intro _ _ ha
  apply verdicts_alike (v := verdict host s) (w := verdict host t) _ _ ha
  · exact fun _ hx => ⟨verdict_exchange hx, verdict_exchange hx⟩
  · intro r _
    simp only [verdict, prune?_alike h]

end Selectors

namespace ShortTypes

theorem renamed_alike {r u : Record} (h : r.Alike u) : (renamed r).Alike (renamed u) := by
  cases h with
  | refl => exact .refl _
  | @permuted base xs ys exchange perm =>
    have hshort : base.shortCategory = Category.exchange := Record.isCategory_iff.1 exchange
    have hx : ∀ items : List Value,
        renamed (base.withAttribute Attribute.durableBindings (.array items)) =
          (base.withCategory base.shortCategory).withAttribute Attribute.durableBindings
            (.array items) := by
      intro items
      have hne : ((base.withAttribute Attribute.durableBindings (.array items)).withCategory
          base.shortCategory).category ≠ Category.virtualHost := by
        show base.shortCategory ≠ _
        rw [hshort]
        decide
      exact if_neg hne
    rw [hx, hx]
    refine .permuted ?_ perm
    rw [Record.isCategory_iff]
    exact (Category.short_short _).trans hshort

theorem isOrphan_alike (h : s.Alike t) (b : Record) :
    isOrphan host (renamedAll s) b = isOrphan host (renamedAll t) b := by
  have hp : ∀ category id, isPresent category (renamedAll s) id =
      isPresent category (renamedAll t) id := by
    intro category id
    unfold isPresent
    rw [get?_renamedAll, get?_renamedAll]
    rcases h.cases id with ⟨hs, ht⟩ | ⟨r, u, hs, ht, ha⟩
    · rw [hs, ht]
    · rw [hs, ht, Option.map_some, Option.map_some]
      dsimp only
      rw [(renamed_alike ha).category]
  simp only [isOrphan, hp]

theorem effects_alike (h : s.Alike t) :
    EffectsAlike ((passes host).effect s) ((passes host).effect t) := by
  apply decides.decides_alike decides h
  intro r u ha
  unfold verdict
  rw [(renamed_alike ha).category]
  by_cases hb : (renamed u).category = Category.binding
  · have hx : r.isCategory Category.exchange = false := by
      have hshort : u.shortCategory = Category.binding := (category_renamed u).symm.trans hb
      have hbinding : r.isCategory Category.binding := by
        rw [ha.isCategory, Record.isCategory_iff, hshort]
      exact Record.isCategory_eq_false hbinding Category.exchange (by decide)
    rw [ha.eq_of_not_exchange hx, isOrphan_alike h]
    exact .refl _
  · simp only [hb, decide_false, Bool.false_and, Bool.false_eq_true, if_false]
    exact .revise (renamed_alike ha)

end ShortTypes

namespace MissingExchanges

theorem bears_alike {r u : Record} (h : r.Alike u) (name : String) :
    bears name r = bears name u := by
  rw [bears, h.isCategory, h.name?, bears]

theorem any_alike (h : s.Alike t) {p : Record → Bool} (hp : ∀ r u, r.Alike u → p r = p u) :
    s.records.any p = t.records.any p := by
  have himp : ∀ {s t : RecordSet}, s.Alike t → s.records.any p → t.records.any p := by
    intro s t h hs
    obtain ⟨r, hr, hpr⟩ := List.any_eq_true.1 hs
    obtain ⟨u, hu, ha⟩ := h.exists_mem hr
    exact List.any_eq_true.2 ⟨u, hu, hp r u ha ▸ hpr⟩
  exact Bool.eq_iff_iff.2 ⟨himp h, himp h.symm⟩

theorem missingIn_alike (h : s.Alike t) : missingIn s.records = missingIn t.records := by
  apply List.filter_congr
  intro e _
  rw [any_alike h fun r u ha => bears_alike ha e.name]

theorem named_alike (h : s.Alike t) {name : String} {id : RecordId} (hn : Named host s name id) :
    Named host t name id := by
  rcases hn with ⟨x, hx, hb, hid⟩ | ⟨e, he, hn⟩
  · obtain ⟨y, hy, ha⟩ := h.exists_mem hx
    exact .inl ⟨y, hy, bears_alike ha name ▸ hb, ha.id ▸ hid⟩
  · exact .inr ⟨e, missingIn_alike h ▸ he, hn⟩

theorem Named.unique (hs : Regular host s) {name : String} {id other : RecordId}
    (hn : Named host s name id) (ho : Named host s name other) : id = other := by
  have hmissing : ∀ e ∈ missingIn s.records, ∀ x ∈ s.records, bears e.name x = false := by
    intro e he x hx
    have hany := (List.mem_filter.1 he).2
    simp only [Bool.not_eq_true', List.any_eq_false, Bool.not_eq_true] at hany
    exact hany x hx
  rcases hn with ⟨x, hx, hb, rfl⟩ | ⟨e, he, hn, rfl⟩
  · rcases ho with ⟨y, hy, hb', rfl⟩ | ⟨f, hf, rfl, _⟩
    · exact hs.names name x hx y hy hb hb'
    · rw [hmissing f hf x hx] at hb
      cases hb
  · rcases ho with ⟨y, hy, hb', _⟩ | ⟨f, _, hn', rfl⟩
    · rw [← hn, hmissing e he y hy] at hb'
      cases hb'
    · rw [DefaultExchange.name_injective (hn.trans hn'.symm)]

theorem Settles.unique (h : s.Alike t) (hs : Regular host s) {q : Record} {v w : Verdict}
    (hv : Settles host s q v) (hw : Settles host t q w) : v = w := by
  obtain ⟨name, hn, _, hv⟩ := hv
  obtain ⟨other, ho, _, hw⟩ := hw
  cases hn.symm.trans ho
  rcases hv with ⟨x, hx, rfl⟩ | ⟨hx, rfl⟩
  · rcases hw with ⟨y, hy, rfl⟩ | ⟨hy, _⟩
    · rw [Named.unique hs hx (named_alike h.symm hy)]
    · exact absurd (named_alike h hx) (hy x)
  · rcases hw with ⟨y, hy, _⟩ | ⟨_, rfl⟩
    · exact absurd (named_alike h.symm hy) (hx y)
    · rfl

theorem answers_alike (h : s.Alike t) (hs : Regular host s) {r u : Record} {v w : Verdict}
    (ha : r.Alike u) (hv : Answers host s r v) (hw : Answers host t u w) : v.Alike w := by
  by_cases hx : r.isCategory Category.exchange
  · have hu : u.isCategory Category.exchange := ha.isCategory _ ▸ hx
    have hkept : ∀ {s : RecordSet} {r : Record} {v : Verdict}, r.isCategory Category.exchange →
        Answers host s r v → v = .keep := by
      intro s r v hx hv
      have hroot := Record.isRoot_eq_false hx (by decide)
      have hq := Record.isCategory_eq_false hx Category.queue (by decide)
      simpa only [Answers, unsettled, hroot, hq, Bool.false_and, Bool.false_eq_true, if_false]
        using hv
    rw [hkept hx hv, hkept hu hw]
    exact .keep
  · rw [← ha.eq_of_not_exchange (Bool.not_eq_true _ ▸ hx)] at hw
    unfold Answers at hv hw
    split at hv
    · rename_i hroot
      rw [if_pos hroot] at hw
      rw [hv, hw]
      exact .refl _
    · rename_i hroot
      rw [if_neg hroot] at hw
      split at hv
      · rename_i hu
        rw [if_pos hu] at hw
        rw [hv.unique h hs hw]
        exact .refl _
      · rename_i hu
        rw [if_neg hu] at hw
        rw [hv, hw]
        exact .refl _

theorem createdIn_alike (h : s.Alike t) (hs : Regular host s) {root other : RecordId}
    (hroot : missingIn s.records ≠ [] → ∃ r ∈ s.records, r.isRoot ∧ r.id = root)
    (hother : missingIn t.records ≠ [] → ∃ r ∈ t.records, r.isRoot ∧ r.id = other) :
    createdIn host s root = createdIn host t other := by
  have hm := missingIn_alike h
  unfold createdIn
  by_cases hnil : missingIn s.records = []
  · rw [← hm, hnil]
    rfl
  · obtain ⟨r, hr, hrroot, rfl⟩ := hroot hnil
    obtain ⟨u, hu, huroot, rfl⟩ := hother (hm ▸ hnil)
    obtain ⟨r', hr', ha⟩ := h.symm.exists_mem hu
    have hid : r.id = r'.id := hs.root r hr r' hr' hrroot (ha.isRoot ▸ huroot)
    rw [← hm, hid, ha.id]

theorem unsettled_alike (h : s.Alike t) {q : Record} (hq : q ∈ t.records) (hu : unsettled q) :
    q ∈ s.records := by
  obtain ⟨r, hr, ha⟩ := h.symm.exists_mem hq
  have hcat : q.isCategory Category.queue :=
    (Bool.and_eq_true_iff.1 (Bool.and_eq_true_iff.1 hu).1).1
  have hx := Record.isCategory_eq_false hcat Category.exchange (by decide)
  exact ha.eq_of_not_exchange hx ▸ hr

theorem not_fails {c : Changes} {e : Failure} (h : s.Alike t) (hc : Supplies host s c)
    (hnamed : ∀ q ∈ s.records, unsettled q → ¬nameless q) : ¬Fails t e := by
  intro he
  cases he with
  | nameless mem hu hnameless => exact hnamed _ (unsettled_alike h mem hu) hu hnameless
  | rootless _ hrootless mem =>
    obtain ⟨_, root, _, _, hroot⟩ := hc
    obtain ⟨r, hr, hrroot, _⟩ := hroot (missingIn_alike h ▸ List.ne_nil_of_mem mem)
    obtain ⟨u, hu, ha⟩ := h.exists_mem hr
    rw [ha.isRoot, hrootless u hu] at hrroot
    cases hrroot

theorem fails_alike {e f : Failure} (h : s.Alike t) (he : Fails s e) (hf : Fails t f) :
    e.ctorIdx = f.ctorIdx := by
  cases he with
  | nameless mem hu hnameless =>
    cases hf with
    | nameless => rfl
    | rootless hnamed => exact absurd hnameless (hnamed _ (unsettled_alike h.symm mem hu) hu)
  | rootless hnamed =>
    cases hf with
    | nameless mem hu hnameless => exact absurd hnameless (hnamed _ (unsettled_alike h mem hu) hu)
    | rootless => rfl

theorem effects_alike (h : s.Alike t) (hs : Regular host s) (ht : Regular host t) :
    EffectsAlike ((passes host).effect s) ((passes host).effect t) := by
  apply (supplies hs.defaults).effects_alike (supplies ht.defaults)
  · rintro c d ⟨⟨v, root, hc, hv, hroot⟩, _⟩ ⟨⟨w, other, hd, hw, hother⟩, _⟩
    apply hc.alike hd h
    · intro id
      rw [createdIn_alike h hs hroot hother]
    · intro r hr u hu ha
      exact answers_alike h hs ha (hv r hr) (hw u hu)
  · exact fun e f => fails_alike h
  · exact fun c f hc => not_fails h hc.1 hc.2
  · exact fun e d he hd => not_fails h.symm hd.1 hd.2 he

end MissingExchanges

namespace BindingLists

theorem withDurable_alike {r u : Record} {xs ys : List Value} (h : r.Alike u)
    (hx : r.isCategory Category.exchange) (hperm : xs.Perm ys) :
    (withDurable r xs).Alike (withDurable u ys) := by
  have heq : ∀ (r : Record) (items : List Value), withDurable r items =
      (r.withoutAttribute Attribute.bindings).withAttribute Attribute.durableBindings
        (.array items) := fun _ _ => rfl
  cases h with
  | refl =>
    rw [heq, heq]
    exact .permuted hx hperm
  | @permuted base items others exchange perm =>
    have hover : ∀ before after : List Value,
        withDurable (base.withAttribute Attribute.durableBindings (.array before)) after =
          withDurable base after := by
      intro before after
      show base.withAttributes _ = base.withAttributes _
      rw [show (base.withAttribute Attribute.durableBindings (.array before)).attributes =
        base.attributes.insert Attribute.durableBindings (.array before) from rfl,
        OrderedMap.erase_insert _ (by decide), OrderedMap.insert_insert]
    rw [hover, hover, heq, heq]
    exact .permuted exchange hperm

theorem inlineEntries_alike {r u : Record} (h : r.Alike u) : inlineEntries r = inlineEntries u := by
  rw [inlineEntries, h.attribute? (by decide), inlineEntries]

theorem given_alike {r u : Record} (h : r.Alike u) : given r = given u := by
  by_cases hb : r.isCategory Category.binding
  · have hx := Record.isCategory_eq_false hb Category.exchange (by decide)
    rw [h.eq_of_not_exchange hx]
  · simp only [given, ← h.isCategory, hb, ← h.id, ← inlineEntries_alike h,
      ← h.hasAttribute (show Attribute.bindings ≠ _ by decide)]
    rfl

theorem queueGiven_alike {r u : Record} (h : r.Alike u) : queueGiven r = queueGiven u := by
  by_cases hq : r.isCategory Category.queue
  · have hx := Record.isCategory_eq_false hq Category.exchange (by decide)
    rw [h.eq_of_not_exchange hx]
  · simp only [queueGiven, ← h.isCategory, hq]
    rfl

theorem find?_name_exchangesOf {name : String} {x : Record}
    (h : ((exchangesOf s).records.find? fun e => e.name? = some name) = some x) :
    x ∈ s.records ∧ MissingExchanges.bears name x := by
  obtain ⟨hmem, hcat⟩ := List.mem_filter.1 (List.mem_of_find?_eq_some h)
  have hn := List.find?_some h
  exact ⟨hmem, by simpa [MissingExchanges.bears, hcat] using hn⟩

theorem find?_name_alike (h : s.Alike t) (ht : Regular host t) (name : String) :
    ((exchangesOf s).records.find? fun e => e.name? = some name).map Record.id =
      ((exchangesOf t).records.find? fun e => e.name? = some name).map Record.id := by
  have hsome : ∀ {s t : RecordSet}, s.Alike t → ∀ x,
      ((exchangesOf s).records.find? fun e => e.name? = some name) = some x →
      ∃ y ∈ t.records, MissingExchanges.bears name y ∧ y.id = x.id ∧
        ((exchangesOf t).records.find? fun e => e.name? = some name).isSome := by
    intro s t h x hx
    obtain ⟨hmem, hb⟩ := find?_name_exchangesOf hx
    obtain ⟨y, hy, ha⟩ := h.exists_mem hmem
    have hby := MissingExchanges.bears_alike ha name ▸ hb
    refine ⟨y, hy, hby, ha.id.symm, ?_⟩
    obtain ⟨hcat, hn⟩ := Bool.and_eq_true_iff.1 hby
    exact List.find?_isSome.2 ⟨y, List.mem_filter.2 ⟨hy, hcat⟩, hn⟩
  cases hs : (exchangesOf s).records.find? fun e => e.name? = some name with
  | some x =>
    obtain ⟨y, hy, hb, hid, hfound⟩ := hsome h x hs
    obtain ⟨z, hz⟩ := Option.isSome_iff_exists.1 hfound
    obtain ⟨hmem, hb'⟩ := find?_name_exchangesOf hz
    rw [hz, Option.map_some, Option.map_some, ← hid, ht.names name y hy z hmem hb hb']
  | none =>
    cases ht' : (exchangesOf t).records.find? fun e => e.name? = some name with
    | none => rfl
    | some x =>
      obtain ⟨_, _, _, _, hfound⟩ := hsome h.symm x ht'
      rw [hs] at hfound
      cases hfound

theorem resolve?_alike (h : s.Alike t) (ht : Regular host t) (reference : String) :
    resolve? (exchangesOf s) reference = resolve? (exchangesOf t) reference := by
  apply resolve?_congr
  · intro id
    rw [RecordSet.contains, RecordSet.contains, get?_exchangesOf, get?_exchangesOf]
    rcases h.cases id with ⟨hs, ht⟩ | ⟨r, u, hs, ht, ha⟩
    · rw [hs, ht]
    · rw [hs, ht, Option.filter_some, Option.filter_some, ha.isCategory]
      split <;> rfl
  · exact find?_name_alike h ht reference

theorem allGiven_perm (h : s.Alike t) (ht : Regular host t) :
    (allGiven s).Perm (allGiven t) := by
  have hadds : queueAdds (exchangesOf s) = queueAdds (exchangesOf t) := by
    funext queue entry
    rw [queueAdds, resolve?_alike h ht, queueAdds]
  unfold allGiven
  rw [hadds]
  apply List.Perm.append
  · exact h.filterMap_perm fun _ _ => given_alike
  · have hqueues := h.filterMap_perm fun _ _ => queueGiven_alike
    have hflat := hqueues.flatMap_right fun queue =>
      queue.2.flatMap (queueAdds (exchangesOf t) queue.1)
    have hs := OrderedMap.flatMap_group_perm (s.records.filterMap queueGiven)
      (queueAdds (exchangesOf t))
    have ht := OrderedMap.flatMap_group_perm (t.records.filterMap queueGiven)
      (queueAdds (exchangesOf t))
    exact (hs.trans hflat).trans ht.symm

theorem gathered_alike (h : s.Alike t) (ht : Regular host t) (exchange : RecordId) :
    Option.Rel List.Perm ((gathered s).get? exchange) ((gathered t).get? exchange) := by
  have hperm := allGiven_perm h ht
  have hkeys : exchange ∈ (allGiven s).map Prod.fst ↔ exchange ∈ (allGiven t).map Prod.fst :=
    (hperm.map Prod.fst).mem_iff
  rw [gathered, gathered, OrderedMap.get?_group, OrderedMap.get?_group]
  simp only [hkeys]
  split
  · exact .some (hperm.flatMap_right _)
  · exact .none

theorem queueNamesOf_alike (h : s.Alike t) (id : RecordId) :
    (queueNamesOf s).get? id = (queueNamesOf t).get? id := by
  have himp : ∀ {s t : RecordSet}, s.Alike t → ∀ name, (queueNamesOf s).get? id = some name →
      (queueNamesOf t).get? id = some name := by
    intro s t h name hs
    obtain ⟨q, hq, hcat, hid, hname⟩ := mem_queueNamesOf.1 hs
    obtain ⟨u, hu, ha⟩ := h.exists_mem hq
    have hx := Record.isCategory_eq_false hcat Category.exchange (by decide)
    rw [← ha.eq_of_not_exchange hx] at hu
    exact mem_queueNamesOf.2 ⟨q, hu, hcat, hid, hname⟩
  ext name
  exact ⟨himp h name, himp h.symm name⟩

theorem entry_alike (h : s.Alike t) : entry (queueNamesOf s) = entry (queueNamesOf t) := by
  have hnames : (queueNamesOf s).get? = (queueNamesOf t).get? := funext (queueNamesOf_alike h)
  funext binding
  rw [entry, destination, hnames, entry, destination]

theorem verdict_alike (h : s.Alike t) (ht : Regular host t) {r u : Record} (ha : r.Alike u) :
    (verdict s r).Alike (verdict t u) := by
  by_cases hx : r.isCategory Category.exchange
  · have hg := gathered_alike h ht r.id
    rw [verdict_exchange hx, verdict_exchange (ha.isCategory _ ▸ hx), ← ha.id, entry_alike h]
    generalize (gathered s).get? r.id = bindings at hg ⊢
    generalize (gathered t).get? r.id = others at hg ⊢
    cases hg with
    | none => exact .keep
    | some hperm => exact .revise (withDurable_alike ha hx (hperm.map _))
  · rw [Bool.not_eq_true] at hx
    rw [← ha.eq_of_not_exchange hx, verdict_of_not_exchange hx, verdict_of_not_exchange hx]
    exact .refl _

theorem mem_of_binding (h : s.Alike t) {b : Record} (hb : b ∈ t.records)
    (hcat : b.isCategory Category.binding) : b ∈ s.records := by
  obtain ⟨r, hr, ha⟩ := h.symm.exists_mem hb
  have hx := Record.isCategory_eq_false hcat Category.exchange (by decide)
  exact ha.eq_of_not_exchange hx ▸ hr

theorem not_parentless {b : Record}
    (hparents : (b.parent? Category.exchange).isSome ∧ (b.parent? Category.queue).isSome)
    (hlost : b.parent? Category.exchange = none ∨ b.parent? Category.queue = none) : False := by
  rcases hlost with hlost | hlost
  · rw [hlost] at hparents
    cases hparents.1
  · rw [hlost] at hparents
    cases hparents.2

theorem not_fails {e : Failure} (h : s.Alike t) (ht : Regular host t) (hs : Resolved s) :
    ¬Fails t e := by
  intro he
  cases he with
  | parentless mem binding lost =>
    exact not_parentless (hs.parents _ (mem_of_binding h mem binding) binding) lost
  | unresolved _ mem queue listed lost =>
    obtain ⟨q, hq, ha⟩ := h.symm.exists_mem mem
    have hsome := hs.references q hq (ha.isCategory _ ▸ queue) _
      (inlineEntries_alike ha ▸ listed)
    rw [resolve?_alike h ht, lost] at hsome
    cases hsome

theorem fails_alike {e f : Failure} (h : s.Alike t) (he : Fails s e) (hf : Fails t f) :
    e.ctorIdx = f.ctorIdx := by
  cases he with
  | parentless mem binding lost =>
    cases hf with
    | parentless => rfl
    | unresolved parents =>
      exact (not_parentless (parents _ (mem_of_binding h.symm mem binding) binding) lost).elim
  | unresolved parents =>
    cases hf with
    | parentless mem binding lost =>
      exact (not_parentless (parents _ (mem_of_binding h mem binding) binding) lost).elim
    | unresolved => rfl

theorem effects_alike (h : s.Alike t) (hs : Regular host s) (ht : Regular host t) :
    EffectsAlike (passes.effect s) (passes.effect t) := by
  apply consolidates.effects_alike consolidates
  · exact fun c d hc hd => hc.1.alike hd.1 h (fun _ => rfl) fun r _ u _ => verdict_alike h ht
  · exact fun e f => fails_alike h
  · exact fun c f hc => not_fails h ht hc.2
  · exact fun e d he hd => not_fails h.symm hs hd.2 he

end BindingLists

theorem Step.effects_alike (step : Step) (h : s.Alike t) (hs : Regular host s)
    (ht : Regular host t) :
    EffectsAlike ((step.passes host).effect s) ((step.passes host).effect t) := by
  cases step with
  | pruneSelectors => exact Selectors.effects_alike h
  | shortenTypes => exact ShortTypes.effects_alike h
  | promoteSettings => exact QueueSettings.effects_alike h
  | setQueuePolicy => exact QueuePolicy.effects_alike h
  | addMissingExchanges => exact MissingExchanges.effects_alike h hs ht
  | listBindings => exact BindingLists.effects_alike h hs ht
  | bump source target => exact RootVersion.effects_alike h

def AnswersAlike : Except Failure Outcome → Except Failure Outcome → Prop
  | .ok o, .ok o' => o.records.Alike o'.records ∧ o.net.Alike o'.net
  | .error e, .error e' => e.ctorIdx = e'.ctorIdx
  | _, _ => False

namespace Plan

variable {p : Plan}

theorem follow_alike {steps : List Step} {accepted accepted' : List Commit} {o o' : Outcome}
    (h : s.Alike t) (hs : Regular p.host s) (ht : Regular p.host t) (hnet : o.net.Alike o'.net) :
    AnswersAlike (p.follow .acceptAll steps accepted s o).1
      (p.follow .acceptAll steps accepted' t o').1 := by
  induction steps generalizing s t accepted accepted' o o' with
  | nil => exact ⟨h, hnet⟩
  | cons step rest ih =>
    have heffects := step.effects_alike h hs ht
    have hfs := @Step.footprint p.host s step
    have hft := @Step.footprint p.host t step
    simp only [follow]
    cases hes : (step.passes p.host).effect s with
    | error e =>
      cases het : (step.passes p.host).effect t with
      | error f =>
        rw [hes, het] at heffects
        exact heffects
      | ok d =>
        rw [hes, het] at heffects
        exact heffects.elim
    | ok c =>
      cases het : (step.passes p.host).effect t with
      | error f =>
        rw [hes, het] at heffects
        exact heffects.elim
      | ok d =>
        rw [hes, het] at heffects
        have hc : c.Alike d := heffects
        -- both sets stay regular, without which the next step need not be alike on them
        exact ih (h.apply hc) (hs.apply (hfs.of_effect_ok hes)) (ht.apply (hft.of_effect_ok het))
          (hnet.followedBy hc)

theorem isEmpty_alike (h : s.Alike t) : s.isEmpty = t.isEmpty := by
  have himp : ∀ {s t : RecordSet}, s.Alike t → t.isEmpty → s.isEmpty := by
    intro s t h ht
    rw [RecordSet.isEmpty, List.isEmpty_iff, List.eq_nil_iff_forall_not_mem] at ht ⊢
    intro r hr
    obtain ⟨u, hu, _⟩ := h.exists_mem hr
    exact ht u hu
  exact Bool.eq_iff_iff.2 ⟨himp h.symm, himp h⟩

theorem root?_alike (h : s.Alike t) (ht : Regular p.host t) : s.root? = t.root? := by
  have hfound : ∀ {s t : RecordSet}, s.Alike t → ∀ r, s.root? = some r → r ∈ t.records ∧ r.isRoot := by
    intro s t h r hr
    have hroot : r.isRoot := List.find?_some hr
    have hx := Record.isCategory_eq_false hroot Category.exchange (by decide)
    obtain ⟨u, hu, ha⟩ := h.exists_mem (List.mem_of_find?_eq_some hr)
    exact ⟨ha.eq_of_not_exchange hx ▸ hu, hroot⟩
  cases hs : s.root? with
  | some r =>
    obtain ⟨hr, hroot⟩ := hfound h r hs
    have hsome : t.root?.isSome := List.find?_isSome.2 ⟨r, hr, hroot⟩
    obtain ⟨u, hu⟩ := Option.isSome_iff_exists.1 hsome
    have humem := List.mem_of_find?_eq_some hu
    have hid := ht.root r hr u humem hroot (List.find?_some hu)
    rw [hu, RecordSet.eq_of_mem hr humem hid]
  | none =>
    cases ht' : t.root? with
    | none => rfl
    | some u =>
      obtain ⟨hu, hroot⟩ := hfound h.symm u ht'
      have hsome : s.root?.isSome := List.find?_isSome.2 ⟨u, hu, hroot⟩
      rw [hs] at hsome
      cases hsome

theorem upgradeSet_alike (h : s.Alike t) (hs : Regular p.host s) (ht : Regular p.host t) :
    AnswersAlike (ended (p.upgradeSet .acceptAll s .empty)).1
      (ended (p.upgradeSet .acceptAll t .empty)).1 := by
  have hversion : declaredVersion s = declaredVersion t := by
    rw [declaredVersion, root?_alike h ht, declaredVersion]
  have hnet : Changes.empty.Alike Changes.empty := ⟨.of_get?_eq fun _ => rfl, fun _ => rfl⟩
  cases he : s.isEmpty with
  | true =>
    have he' := isEmpty_alike h ▸ he
    unfold upgradeSet
    rw [he, he']
    exact ⟨h, hnet⟩
  | false =>
    rw [ended_upgradeSet he, ended_upgradeSet (isEmpty_alike h ▸ he), hversion]
    cases declaredVersion t with
    | error e => exact rfl
    | ok version =>
      dsimp only
      cases p.route? version with
      | none => exact rfl
      | some steps => exact follow_alike h hs ht hnet

theorem ofList_perm {input other : List Record} (hperm : input.Perm other)
    (hids : (input.map Record.id).Nodup) :
    (RecordSet.ofList input).Alike (RecordSet.ofList other) := by
  have hids' : (other.map Record.id).Nodup := (hperm.map _).nodup_iff.1 hids
  have hs : RecordSet.ofList input = ⟨input, hids⟩ := RecordSet.ofList_records ⟨input, hids⟩
  have ht : RecordSet.ofList other = ⟨other, hids'⟩ := RecordSet.ofList_records ⟨other, hids'⟩
  apply RecordSet.Alike.of_get?_eq
  intro id
  rw [hs, ht]
  ext r
  rw [RecordSet.get?_eq_some_iff, RecordSet.get?_eq_some_iff, hperm.mem_iff]

/-- Upgrades of one and the same records come to the same in whatever order they are visited. -/
theorem upgrade_any_order (p : Plan) (input other : List Record) (hperm : input.Perm other)
    (hids : (input.map Record.id).Nodup)
    (hroot : ∀ r ∈ input, ∀ t ∈ input, r.isRoot → t.isRoot → r = t)
    (hnames : ∀ x ∈ input, ∀ y ∈ input, x.isCategory Category.exchange →
      y.isCategory Category.exchange → x.name? ≠ none → x.name? = y.name? → x = y)
    (hdefaults : ∀ r ∈ input, p.host.isDefaultId r.id → r.isCategory Category.exchange) :
    AnswersAlike (ended (p.upgrade input .empty)).1 (ended (p.upgrade other .empty)).1 := by
  have hregular : ∀ rs : List Record, rs.Perm input → Regular p.host (RecordSet.ofList rs) := by
    intro rs hrs
    have hn : (rs.map Record.id).Nodup := (hrs.map _).nodup_iff.2 hids
    have hs : RecordSet.ofList rs = ⟨rs, hn⟩ := RecordSet.ofList_records ⟨rs, hn⟩
    rw [hs]
    constructor
    · intro r hr t ht hrroot htroot
      rw [hroot r (hrs.mem_iff.1 hr) t (hrs.mem_iff.1 ht) hrroot htroot]
    · intro name x hx y hy hxb hyb
      simp only [MissingExchanges.bears, Bool.and_eq_true, decide_eq_true_eq] at hxb hyb
      rw [hnames x (hrs.mem_iff.1 hx) y (hrs.mem_iff.1 hy) hxb.1 hyb.1 (by simp [hxb.2])
        (hxb.2.trans hyb.2.symm)]
    · exact fun r hr => hdefaults r (hrs.mem_iff.1 hr)
  exact upgradeSet_alike (ofList_perm hperm hids) (hregular input (.refl _))
    (hregular other hperm.symm)

theorem upgrade_any_order_legacy :
    let p := standard (.ofHost Sample.hostName)
    let input := Sample.legacy fun n => ⟨BitVec.ofNat 128 (n + 1)⟩
    input.Perm input.reverse ∧ (input.map Record.id).Nodup ∧
      (∀ r ∈ input, ∀ t ∈ input, r.isRoot → t.isRoot → r = t) ∧
      (∀ x ∈ input, ∀ y ∈ input, x.isCategory Category.exchange →
        y.isCategory Category.exchange → x.name? ≠ none → x.name? = y.name? → x = y) ∧
      (∀ r ∈ input, p.host.isDefaultId r.id → r.isCategory Category.exchange) ∧
      AnswersAlike (ended (p.upgrade input .empty)).1 (ended (p.upgrade input.reverse .empty)).1 := by
  intro p input
  have hperm : input.Perm input.reverse := (List.reverse_perm input).symm
  have hids : (input.map Record.id).Nodup := by decide +kernel
  have hroot : ∀ r ∈ input, ∀ t ∈ input, r.isRoot → t.isRoot → r = t := by decide +kernel
  have hnames : ∀ x ∈ input, ∀ y ∈ input, x.isCategory Category.exchange →
      y.isCategory Category.exchange → x.name? ≠ none → x.name? = y.name? → x = y := by
    decide +kernel
  have hdefaults : ∀ r ∈ input, p.host.isDefaultId r.id → r.isCategory Category.exchange := by
    decide +kernel
  clear_value input p
  exact ⟨hperm, hids, hroot, hnames, hdefaults,
    upgrade_any_order p input input.reverse hperm hids hroot hnames hdefaults⟩

end Plan

end BrokerConfig.Upgrade
