import BrokerConfig.Proofs.Contributions
import BrokerConfig.Proofs.Route
import BrokerConfig.Sample

namespace BrokerConfig.Upgrade.BindingLists

open Json

variable {s t : RecordSet} {c : Changes} {x : RecordId} {r : Record}

def ownEntries (s : RecordSet) (x : RecordId) (r : Record) : List Value :=
  if r.isCategory Category.binding then
    if r.parent? Category.exchange = some x then
      ((r.parent? Category.queue).map fun queue =>
        listed (nameOf r) (destinationIn s queue.print) (r.attribute? Attribute.arguments)).toList
    else []
  else if r.isCategory Category.exchange ∧ r.id = x then
    (inlineList r).map fun e =>
      inlineListed (destinationIn s (textOf (e.member? Attribute.queue))) e
  else []

def listingQueues (s : RecordSet) : List Record :=
  s.records.filter fun q => q.isCategory Category.queue && q.hasAttribute Attribute.bindings

def queueEntries (s : RecordSet) (x : RecordId) (name : String) : List Value :=
  ((listingQueues s).filter fun q => nameOf q = name).flatMap fun q =>
    ((inlineList q).filter fun e => meant? s (exchangeText e) = some x).map
      (inlineListed (destinationIn s name))

def durableList (s : RecordSet) (x : RecordId) : List Value :=
  s.records.flatMap (ownEntries s x) ++
    ((listingQueues s).map nameOf).eraseDups.flatMap (queueEntries s x)

/-- Whether an exchange comes to have a list, if only an empty one. -/
inductive Listed (s : RecordSet) (x : RecordId) : Prop
  | inline (r : Record) (mem : r ∈ s.records) (exchange : r.isCategory Category.exchange)
    (id : r.id = x) (bindings : r.hasAttribute Attribute.bindings)
  | binding (b : Record) (mem : b ∈ s.records) (binding : b.isCategory Category.binding)
    (parent : b.parent? Category.exchange = some x)
  | queue (q : Record) (mem : q ∈ listingQueues s) (e : Value) (entry : e ∈ inlineList q)
    (means : meant? s (exchangeText e) = some x)

structure Lists (entries : List Value) (x u : Record) : Prop where
  id : u.id = x.id
  category : u.category = x.category
  parents : u.parents = x.parents
  durable : u.attribute? Attribute.durableBindings = some (.array entries)
  inline : u.attribute? Attribute.bindings = none
  others : ∀ key, key ≠ Attribute.bindings → key ≠ Attribute.durableBindings →
    u.attribute? key = x.attribute? key

structure Consolidated (s t : RecordSet) : Prop where
  ids : t.ids = (s.records.filter fun r => !r.isCategory Category.binding).map Record.id
  bindings : ∀ u ∈ t.records, u.isCategory Category.binding = false
  inline : ∀ u ∈ t.records, u.isCategory Category.exchange ∨ u.isCategory Category.queue →
    u.hasAttribute Attribute.bindings = false
  listed : ∀ x ∈ s.records, x.isCategory Category.exchange → Listed s x.id →
    ∃ u, t.get? x.id = some u ∧ Lists (durableList s x.id) x u
  unlisted : ∀ x ∈ s.records, x.isCategory Category.exchange → ¬Listed s x.id →
    t.get? x.id = some x

theorem elim_given (s : RecordSet) (x : RecordId) (r : Record) :
    (given r).elim [] (entriesFor (queueNamesOf s) x) = ownEntries s x r := by
  by_cases hb : r.isCategory Category.binding
  · cases hx : r.parent? Category.exchange with
    | none => simp [given, ownEntries, hb, hx]
    | some exchange =>
      cases hq : r.parent? Category.queue with
      | none => simp [given, ownEntries, hb, hx, hq]
      | some queue =>
        by_cases he : exchange = x <;>
          simp [given, ownEntries, entriesFor, hb, hx, hq, he, entry_ofRecord]
  · by_cases hx : r.isCategory Category.exchange
    · have hshare : share s s x r = _ := share_exchange hx
      rw [← hshare, share, ownEntries]
      simp [hb, hx]
    · simp [given, ownEntries, hb, hx]

theorem filterMap_queueGiven (s : RecordSet) : s.records.filterMap queueGiven =
    (listingQueues s).map fun q => (nameOf q, inlineList q) := by
  simp only [← queueName_eq, ← inlineEntries_eq]
  rw [listingQueues, ← List.filterMap_eq_map, List.filterMap_filter]
  rfl

theorem flatMap_allGiven (s : RecordSet) (x : RecordId) :
    (allGiven s).flatMap (entriesFor (queueNamesOf s) x) = durableList s x := by
  have hnamed : ∀ name, (s.records.filterMap queueGiven).flatMap
      (fun queue => if queue.1 = name then queue.2 else []) =
      ((listingQueues s).filter fun q => nameOf q = name).flatMap inlineList := by
    intro name
    rw [filterMap_queueGiven, List.flatMap_map, ← List.filterMap_eq_filter, flatMap_filterMap]
    apply List.flatMap_congr
    intro q _
    by_cases hq : nameOf q = name <;> simp [Option.guard, hq]
  have hqueues : ∀ name, (((s.records.filterMap queueGiven).flatMap
      fun queue => if queue.1 = name then queue.2 else []).flatMap
        (queueAdds (exchangesOf s) name)).flatMap (entriesFor (queueNamesOf s) x) =
      queueEntries s x name := by
    intro name
    rw [hnamed, List.flatMap_assoc, List.flatMap_assoc, queueEntries]
    simp only [flatMap_queueAdds]
  have hnames : (s.records.filterMap queueGiven).map Prod.fst = (listingQueues s).map nameOf := by
    rw [filterMap_queueGiven, List.map_map]
    rfl
  rw [allGiven, List.flatMap_append, flatMap_filterMap, durableList]
  congr 1
  · exact List.flatMap_congr fun r _ => elim_given s x r
  · rw [OrderedMap.entries_group, hnames, List.flatMap_map, List.flatMap_assoc]
    exact List.flatMap_congr fun name _ => hqueues name

theorem exists_given (h : r.isCategory Category.binding → (r.parent? Category.queue).isSome) :
    (∃ bindings, given r = some (x, bindings)) ↔
      r.isCategory Category.binding ∧ r.parent? Category.exchange = some x ∨
      r.isCategory Category.exchange ∧ r.id = x ∧ r.hasAttribute Attribute.bindings := by
  by_cases hb : r.isCategory Category.binding
  · obtain ⟨queue, hq⟩ := Option.isSome_iff_exists.1 (h hb)
    have hx := Record.isCategory_eq_false hb Category.exchange (by decide)
    cases hexchange : r.parent? Category.exchange <;> simp [given, hb, hq, hx, hexchange]
  · by_cases hx : r.isCategory Category.exchange <;>
      by_cases hhas : r.hasAttribute Attribute.bindings <;> simp [given, hb, hx, hhas]

theorem exists_queueAdds (name : String) (e : Value) :
    (∃ bindings, (x, bindings) ∈ queueAdds (exchangesOf s) name e) ↔
      meant? s (exchangeText e) = some x := by
  rw [queueAdds, resolve?_exchangesOf, reference_eq]
  cases meant? s (exchangeText e) <;> simp [eq_comm]

theorem mem_allGiven (h : Resolved s) : x ∈ (allGiven s).map Prod.fst ↔ Listed s x := by
  have hqueue : ∀ r ∈ s.records, r.isCategory Category.binding →
      (r.parent? Category.queue).isSome := fun r hr hb => (h.parents r hr hb).2
  simp only [allGiven, List.map_append, List.mem_append, List.mem_map, Prod.exists,
    exists_and_right, exists_eq_right]
  constructor
  · rintro (⟨bindings, hg⟩ | ⟨bindings, hg⟩)
    · obtain ⟨r, hr, hg⟩ := List.mem_filterMap.1 hg
      rcases (exists_given (hqueue r hr)).1 ⟨bindings, hg⟩ with ⟨hb, hx⟩ | ⟨hx, hid, hhas⟩
      · exact .binding r hr hb hx
      · exact .inline r hr hx hid hhas
    · obtain ⟨⟨name, entries⟩, hgroup, hg⟩ := List.mem_flatMap.1 hg
      obtain ⟨e, he, hg⟩ := List.mem_flatMap.1 hg
      obtain ⟨listed, hl, he⟩ := OrderedMap.mem_group.1 ⟨_, hgroup, he⟩
      rw [filterMap_queueGiven] at hl
      obtain ⟨q, hq, hl⟩ := List.mem_map.1 hl
      cases hl
      exact .queue q hq e he ((exists_queueAdds _ e).1 ⟨bindings, hg⟩)
  · rintro (⟨r, hr, hx, hid, hhas⟩ | ⟨b, hmem, hb, hx⟩ | ⟨q, hq, e, he, hx⟩)
    · obtain ⟨bindings, hg⟩ := (exists_given (hqueue r hr)).2 (.inr ⟨hx, hid, hhas⟩)
      exact .inl ⟨bindings, List.mem_filterMap.2 ⟨r, hr, hg⟩⟩
    · obtain ⟨bindings, hg⟩ := (exists_given (hqueue b hmem)).2 (.inl ⟨hb, hx⟩)
      exact .inl ⟨bindings, List.mem_filterMap.2 ⟨b, hmem, hg⟩⟩
    · obtain ⟨bindings, hg⟩ := (exists_queueAdds (nameOf q) e).2 hx
      have hl : (nameOf q, inlineList q) ∈ s.records.filterMap queueGiven := by
        rw [filterMap_queueGiven]
        exact List.mem_map_of_mem hq
      obtain ⟨entries, hgroup, he⟩ := OrderedMap.mem_group.2 ⟨_, hl, he⟩
      exact .inr ⟨bindings, List.mem_flatMap.2 ⟨_, hgroup, List.mem_flatMap.2 ⟨e, he, hg⟩⟩⟩

theorem left?_listed (h : Resolved s) (hx : r.isCategory Category.exchange)
    (hlisted : Listed s r.id) :
    (verdict s r).left? r = some (withDurable r (durableList s r.id)) := by
  have hget := get?_gathered (queueNamesOf s) s r.id
  rw [if_pos ((mem_allGiven h).2 hlisted), flatMap_allGiven] at hget
  obtain ⟨bindings, hb, hbindings⟩ := Option.map_eq_some_iff.1 hget
  rw [verdict_exchange hx, hb, ← hbindings]
  rfl

theorem left?_unlisted (h : Resolved s) (hx : r.isCategory Category.exchange)
    (hunlisted : ¬Listed s r.id) : (verdict s r).left? r = some r := by
  have hget := get?_gathered (queueNamesOf s) s r.id
  rw [if_neg fun hmem => hunlisted ((mem_allGiven h).1 hmem)] at hget
  rw [verdict_exchange hx, Option.map_eq_none_iff.1 hget]
  rfl

theorem left?_queue (hq : r.isCategory Category.queue) : (verdict s r).left? r =
    some (if r.hasAttribute Attribute.bindings then r.withoutAttribute Attribute.bindings else r) := by
  have hroot := Record.isRoot_eq_false hq (by decide)
  have hb := Record.isCategory_eq_false hq Category.binding (by decide)
  have hx := Record.isCategory_eq_false hq Category.exchange (by decide)
  cases hhas : r.hasAttribute Attribute.bindings <;>
    simp [verdict, hroot, hb, hx, hq, hhas, Verdict.left?]

theorem lists_withDurable (entries : List Value) (r : Record) :
    Lists entries r (withDurable r entries) where
  id := rfl
  category := rfl
  parents := rfl
  durable := (OrderedMap.get?_insert ..).trans (if_pos rfl)
  inline := by
    rw [withDurable, Record.attribute?, Record.withAttributes, OrderedMap.get?_insert,
      OrderedMap.get?_erase, if_neg (by decide), if_pos rfl]
  others key hb hd := by
    rw [withDurable, Record.attribute?, Record.withAttributes, OrderedMap.get?_insert,
      OrderedMap.get?_erase, if_neg hd.symm, if_neg hb]
    rfl

theorem hasAttribute_left? {u : Record} (h : Resolved s) (hr : r ∈ s.records)
    (hl : (verdict s r).left? r = some u)
    (hcat : u.isCategory Category.exchange ∨ u.isCategory Category.queue) :
    u.hasAttribute Attribute.bindings = false := by
  have hkept := (revises_left? hl).isCategory
  rw [hkept, hkept] at hcat
  rcases hcat with hx | hq
  · by_cases hlisted : Listed s r.id
    · rw [left?_listed h hx hlisted] at hl
      cases hl
      exact congrArg Option.isSome (lists_withDurable _ r).inline
    · rw [left?_unlisted h hx hlisted] at hl
      cases hl
      -- an inline list, even an empty one, would have it listed
      rw [← Bool.not_eq_true]
      exact fun hhas => hlisted (.inline r hr hx rfl hhas)
  · rw [left?_queue hq] at hl
    cases hl
    split
    · exact congrArg Option.isSome
        ((r.attribute?_withoutAttribute Attribute.bindings _).trans (if_pos rfl))
    · rename_i hhas
      exact Bool.not_eq_true _ ▸ hhas

theorem consolidated (hdecides : Decides (verdict s) RecordSet.empty s c) (h : Resolved s) :
    Consolidated s (s.apply c) := by
  have hget : ∀ r ∈ s.records, (s.apply c).get? r.id = (verdict s r).left? r :=
    fun r hr => hdecides.get?_of_mem hr List.not_mem_nil
  constructor
  · rw [RecordSet.ids, hdecides.records_apply, List.map_filterMap, ← List.filterMap_eq_map,
      List.filterMap_filter]
    apply List.filterMap_congr
    intro r hr
    cases hl : (verdict s r).left? r with
    | none => simp [binding_of_left?_eq_none hl]
    | some u => simp [not_binding_of_left? hl, (hdecides.about r hr).id_left? hl]
  · exact not_binding_of_mem_apply hdecides
  · intro u hu hcat
    obtain ⟨r, hr, hl⟩ := hdecides.mem_apply_iff.1 hu
    exact hasAttribute_left? h hr hl hcat
  · intro x hx hexchange hlisted
    rw [hget x hx, left?_listed h hexchange hlisted]
    exact ⟨_, rfl, lists_withDurable _ x⟩
  · intro x hx hexchange hunlisted
    rw [hget x hx, left?_unlisted h hexchange hunlisted]

/-- Bindings of all three forms end up in the lists of exchanges, each once. -/
theorem effect_consolidates (s : RecordSet) (c : Changes) (he : passes.effect s = .ok c) :
    Consolidated s (s.apply c) :=
  have h := consolidates.of_effect_ok he
  consolidated h.1 h.2

theorem effect_consolidates_sample :
    let id : Sample.Supply := fun n => ⟨BitVec.ofNat 128 (n + 1)⟩
    let s := RecordSet.ofList (Sample.bindingModel id)
    ∃ c, passes.effect s = .ok c ∧ Consolidated s (s.apply c) ∧
      durableList s (id 1) = [listed "standalone" "q" none, listed "inline" "q" none,
        listed "from-queue" "q" (some (.object [("x-match", .text "any")]))] := by
  intro id s
  have hlist : durableList s (id 1) = [listed "standalone" "q" none, listed "inline" "q" none,
      listed "from-queue" "q" (some (.object [("x-match", .text "any")]))] := by
    decide +kernel
  have hok : (passes.effect s).toOption.any (fun _ => true) = true := by
    decide +kernel
  obtain ⟨c, hc, -⟩ := (Option.any_eq_true ..).1 hok
  clear_value s
  have he := eq_ok_of_toOption hc
  exact ⟨c, he, effect_consolidates s c he, hlist⟩

end BrokerConfig.Upgrade.BindingLists
