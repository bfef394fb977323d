import Mathlib.Data.List.Perm.Basic
import BrokerConfig.Proofs.Consolidation
import BrokerConfig.Proofs.RecordIds

namespace BrokerConfig.Upgrade.BindingLists

open Json

variable {host : Host} {known s t : RecordSet} {names : OrderedMap RecordId String} {x : RecordId}
  {r u : Record}

/-- What is missing or null reads as no text, what is no string as its JSON text. -/
def textOf (value : Option Value) : String :=
  match value.filter fun v => !v.isNull with
  | some v => v.asText?.getD v.print
  | none => ""

theorem asWord_eq (value : Option Value) : asWord value = textOf value := by
  cases value with
  | none => rfl
  | some v => cases v <;> rfl

def nameOf (r : Record) : String := textOf (r.attribute? Attribute.name)

theorem queueName_eq (q : Record) : queueName q = nameOf q := asWord_eq _

def inlineList (r : Record) : List Value :=
  match r.attribute? Attribute.bindings with
  | some (.array entries) => entries
  | _ => []

theorem inlineEntries_eq (r : Record) : inlineEntries r = inlineList r := by
  unfold inlineEntries inlineList
  cases r.attribute? Attribute.bindings with
  | none => rfl
  | some value => cases value <;> rfl

theorem inlineList_eq_nil (h : r.attribute? Attribute.bindings = none) : inlineList r = [] := by
  rw [inlineList, h]

def exchangeText (e : Value) : String := textOf (e.member? Attribute.exchange)

theorem reference_eq (e : Value) : reference e = exchangeText e := asWord_eq _

/-- The exchange that a queue's entry means: the one of that id, or else the first of that name.
A well-formed id stands for itself even if nothing has it. -/
def meant? (s : RecordSet) (reference : String) : Option RecordId :=
  let parsed := RecordId.ofText? reference
  (parsed.filter fun id => (s.get? id).any fun x => x.isCategory Category.exchange)
    |>.or ((s.records.find? fun x =>
      x.isCategory Category.exchange ∧ x.name? = some reference).map Record.id)
    |>.or parsed

theorem resolve?_exchangesOf (s : RecordSet) (reference : String) :
    resolve? (exchangesOf s) reference = meant? s reference := by
  have hcontains : (exchangesOf s).contains =
      fun id => (s.get? id).any fun x => x.isCategory Category.exchange := by
    funext id
    rw [RecordSet.contains, get?_exchangesOf]
    cases s.get? id with
    | none => rfl
    | some x => cases hx : x.isCategory Category.exchange <;> simp [hx]
  unfold resolve? meant?
  dsimp only
  rw [hcontains, exchangesOf, List.find?_filter]
  cases (RecordId.ofText? reference).filter _ with
  | some id => rfl
  | none =>
    simp only [Bool.decide_and, Bool.decide_eq_true]
    cases List.find? _ s.records <;> rfl

def queueNameIn? (s : RecordSet) (id : RecordId) : Option String :=
  ((s.get? id).filter fun q => q.isCategory Category.queue).map nameOf

theorem queueNameIn?_eq_some_iff {id : RecordId} {name : String} :
    queueNameIn? s id = some name ↔
      ∃ q ∈ s.records, q.isCategory Category.queue ∧ q.id = id ∧ nameOf q = name := by
  simp only [queueNameIn?, Option.map_eq_some_iff, Option.filter_eq_some_iff,
    RecordSet.get?_eq_some_iff]
  constructor
  · rintro ⟨q, ⟨⟨hq, hid⟩, hcat⟩, hname⟩
    exact ⟨q, hq, hcat, hid, hname⟩
  · rintro ⟨q, hq, hcat, hid, hname⟩
    exact ⟨q, ⟨⟨hq, hid⟩, hcat⟩, hname⟩

theorem get?_queueNamesOf (s : RecordSet) : (queueNamesOf s).get? = queueNameIn? s := by
  funext id
  ext name
  simp only [mem_queueNamesOf, queueNameIn?_eq_some_iff, queueName_eq]

/-- The name of the queue whose id a reference is. Any other reference stands for itself. -/
def destinationIn (s : RecordSet) (reference : String) : String :=
  ((RecordId.ofText? reference).bind (queueNameIn? s)).getD reference

theorem destination_queueNamesOf (s : RecordSet) :
    destination (queueNamesOf s) = destinationIn s := by
  funext reference
  rw [destination, get?_queueNamesOf, destinationIn]

def listed (key destination : String) (arguments : Option Value) : Value :=
  .object ([(Attribute.bindingKey, .text key), (Attribute.destination, .text destination)] ++
    ((arguments.filter fun v => !v.isNull).map fun v => (Attribute.arguments, v)).toList)

theorem entry_of (key queue : String) (arguments : Option Value) :
    entry names (.of key queue arguments) = listed key (destination names queue) arguments := by
  unfold entry Captured.of listed
  cases arguments.filter fun v => !v.isNull <;> rfl

def inlineListed (destination : String) (e : Value) : Value :=
  listed (textOf (e.member? Attribute.name)) destination (e.member? Attribute.arguments)

/-- What a record adds to the list of the exchange `x`: a binding adds itself if its queue is there,
an exchange its inline bindings, and a queue those that refer to the exchange. -/
def share (known s : RecordSet) (x : RecordId) (r : Record) : List Value :=
  if r.isCategory Category.binding then
    if r.parent? Category.exchange = some x then
      (((r.parent? Category.queue).bind (queueNameIn? s)).map fun queue =>
        listed (nameOf r) queue (r.attribute? Attribute.arguments)).toList
    else []
  else if r.isCategory Category.exchange then
    if r.id = x then
      (inlineList r).map fun e =>
        inlineListed (destinationIn s (textOf (e.member? Attribute.queue))) e
    else []
  else if r.isCategory Category.queue then
    ((inlineList r).filter fun e => meant? known (exchangeText e) = some x).map
      (inlineListed (destinationIn s (nameOf r)))
  else []

def contributions (known s : RecordSet) (x : RecordId) : List Value :=
  s.records.flatMap (share known s x)

/-- The exchanges that bindings may be attached to: those of the set, and the default ones, which
may still be without records. -/
def Attachable (host : Host) (s : RecordSet) (x : RecordId) : Prop :=
  host.isDefaultId x ∨ ∃ r ∈ s.records, r.isCategory Category.exchange ∧ r.id = x

def HasQueue (s : RecordSet) (b : Record) : Prop :=
  ∃ q ∈ s.records, q.isCategory Category.queue ∧ b.parent? Category.queue = some q.id

def Stray (host : Host) (s : RecordSet) (b : Record) : Prop :=
  b.isCategory Category.binding ∧
    ¬((∃ x, b.parent? Category.exchange = some x ∧ Attachable host s x) ∧ HasQueue s b)

structure Retains (r u : Record) : Prop where
  id : u.id = r.id
  category : u.shortCategory = r.shortCategory
  parents : u.parents = r.parents
  name : u.attribute? Attribute.name = r.attribute? Attribute.name
  bindings : u.attribute? Attribute.bindings = r.attribute? Attribute.bindings
  arguments : r.isCategory Category.binding →
    u.attribute? Attribute.arguments = r.attribute? Attribute.arguments

namespace Retains

theorem refl (r : Record) : Retains r r := ⟨rfl, rfl, rfl, rfl, rfl, fun _ => rfl⟩

theorem isCategory (h : Retains r u) (short : String) :
    u.isCategory short = r.isCategory short := by
  simp only [Record.isCategory, h.category]

theorem parent? (h : Retains r u) (category : String) : u.parent? category = r.parent? category := by
  rw [Record.parent?, h.parents, Record.parent?]

theorem nameOf (h : Retains r u) : nameOf u = nameOf r := by
  rw [BindingLists.nameOf, h.name, BindingLists.nameOf]

theorem inlineList (h : Retains r u) : inlineList u = inlineList r := by
  rw [BindingLists.inlineList, h.bindings, BindingLists.inlineList]

theorem share (h : Retains r u) (hn : ∀ id, queueNameIn? t id = queueNameIn? s id) :
    share known t x u = share known s x r := by
  have hnames : queueNameIn? t = queueNameIn? s := funext hn
  have hdestination : destinationIn t = destinationIn s := by
    funext reference
    rw [destinationIn, hnames, destinationIn]
  simp only [BindingLists.share, h.isCategory, h.parent?, h.id, h.nameOf, h.inlineList, hnames,
    hdestination]
  by_cases hb : r.isCategory Category.binding
  · simp only [hb, h.arguments hb]
  · simp only [hb, Bool.false_eq_true, if_false]

end Retains

structure Carries (host : Host) (left : Record → Option Record) (created : List Record)
    (s t : RecordSet) : Prop where
  records : t.records.Perm (s.records.filterMap left ++ created)
  retained : ∀ r ∈ s.records, ∀ u, left r = some u → Retains r u
  lost : ∀ r ∈ s.records, left r = none → Stray host s r
  supplied : ∀ u ∈ created, u.isCategory Category.exchange ∧ host.isDefaultId u.id ∧
    u.attribute? Attribute.bindings = none

namespace Carries

variable {left : Record → Option Record} {created : List Record}

theorem exists_of_mem (h : Carries host left created s t) (hr : r ∈ s.records)
    (hb : r.isCategory Category.binding = false) : ∃ u ∈ t.records, Retains r u := by
  cases hl : left r with
  | some u =>
    have hu : u ∈ s.records.filterMap left := List.mem_filterMap.2 ⟨r, hr, hl⟩
    exact ⟨u, h.records.mem_iff.2 (List.mem_append_left created hu), h.retained r hr u hl⟩
  | none =>
    have hstray := h.lost r hr hl
    rw [hstray.1] at hb
    cases hb

theorem of_mem (h : Carries host left created s t) (hu : u ∈ t.records) :
    (∃ r ∈ s.records, left r = some u ∧ Retains r u) ∨ u ∈ created := by
  rcases List.mem_append.1 (h.records.mem_iff.1 hu) with hu | hu
  · obtain ⟨r, hr, hl⟩ := List.mem_filterMap.1 hu
    exact .inl ⟨r, hr, hl, h.retained r hr u hl⟩
  · exact .inr hu

theorem queueNameIn? (h : Carries host left created s t) (id : RecordId) :
    queueNameIn? t id = queueNameIn? s id := by
  ext name
  rw [queueNameIn?_eq_some_iff, queueNameIn?_eq_some_iff]
  constructor
  · rintro ⟨u, hu, hq, hid, hname⟩
    rcases h.of_mem hu with ⟨r, hr, _, hret⟩ | hu
    · exact ⟨r, hr, hret.isCategory _ ▸ hq, hret.id ▸ hid, hret.nameOf ▸ hname⟩
    · have hx := Record.isCategory_eq_false (h.supplied u hu).1 Category.queue (by decide)
      rw [hx] at hq
      cases hq
  · rintro ⟨r, hr, hq, hid, hname⟩
    have hb := Record.isCategory_eq_false hq Category.binding (by decide)
    obtain ⟨u, hu, hret⟩ := h.exists_of_mem hr hb
    exact ⟨u, hu, hret.isCategory _ ▸ hq, hret.id.trans hid, hret.nameOf.trans hname⟩

theorem exists_exchange (h : Carries host left created s t)
    (hr : ∃ r ∈ s.records, r.isCategory Category.exchange ∧ r.id = x) :
    ∃ u ∈ t.records, u.isCategory Category.exchange ∧ u.id = x := by
  obtain ⟨r, hr, hx, rfl⟩ := hr
  have hb := Record.isCategory_eq_false hx Category.binding (by decide)
  obtain ⟨u, hu, hret⟩ := h.exists_of_mem hr hb
  exact ⟨u, hu, hret.isCategory _ ▸ hx, hret.id⟩

theorem attachable (h : Carries host left created s t) : Attachable host t x ↔ Attachable host s x := by
  constructor
  · rintro (hd | ⟨u, hu, hx, rfl⟩)
    · exact .inl hd
    · rcases h.of_mem hu with ⟨r, hr, _, hret⟩ | hu
      · exact .inr ⟨r, hr, hret.isCategory _ ▸ hx, hret.id.symm⟩
      · exact .inl (h.supplied u hu).2.1
  · rintro (hd | hr)
    · exact .inl hd
    · exact .inr (h.exists_exchange hr)

theorem hasQueue (h : Carries host left created s t) {b : Record} (hb : HasQueue s b) :
    HasQueue t b := by
  obtain ⟨q, hq, hcat, hparent⟩ := hb
  have hne := Record.isCategory_eq_false hcat Category.binding (by decide)
  obtain ⟨u, hu, hret⟩ := h.exists_of_mem hq hne
  exact ⟨u, hu, hret.isCategory _ ▸ hcat, hret.id ▸ hparent⟩

end Carries

theorem share_stray (h : Stray host s r) (hx : Attachable host s x) :
    share known s x r = [] := by
  obtain ⟨hb, hstray⟩ := h
  rw [share, if_pos hb]
  split
  · rename_i hparent
    have hqueue : ¬HasQueue s r := fun hq => hstray ⟨⟨x, hparent, hx⟩, hq⟩
    cases hq : (r.parent? Category.queue).bind (queueNameIn? s) with
    | none => rfl
    | some name =>
      obtain ⟨id, hid, hname⟩ := Option.bind_eq_some_iff.1 hq
      obtain ⟨q, hmem, hcat, rfl, _⟩ := queueNameIn?_eq_some_iff.1 hname
      exact absurd ⟨q, hmem, hcat, hid⟩ hqueue
  · rfl

theorem share_without_bindings (hx : r.isCategory Category.exchange)
    (hb : r.attribute? Attribute.bindings = none) : share known s x r = [] := by
  have hnot := Record.isCategory_eq_false hx Category.binding (by decide)
  simp [share, hnot, hx, inlineList_eq_nil hb]

theorem flatMap_filterMap {α β γ : Type} (f : α → Option β) (g : β → List γ) (l : List α) :
    (l.filterMap f).flatMap g = l.flatMap fun a => (f a).elim [] g := by
  rw [List.filterMap_eq_flatMap_toList, List.flatMap_assoc]
  congr 1
  funext a
  cases f a <;> simp

theorem Carries.contributions {left : Record → Option Record} {created : List Record}
    (h : Carries host left created s t) (hx : Attachable host s x) :
    (contributions known t x).Perm (contributions known s x) := by
  have hcreated : created.flatMap (share known t x) = [] := by
    rw [List.flatMap_eq_nil_iff]
    intro u hu
    exact share_without_bindings (h.supplied u hu).1 (h.supplied u hu).2.2
  have hleft : (s.records.filterMap left).flatMap (share known t x) =
      s.records.flatMap (share known s x) := by
    rw [flatMap_filterMap]
    apply List.flatMap_congr
    intro r hr
    -- a stray adds nothing to an exchange that bindings may be attached to
    cases hl : left r with
    | some u => exact (h.retained r hr u hl).share h.queueNameIn?
    | none => exact (share_stray (h.lost r hr hl) hx).symm
  have hperm := h.records.flatMap_right (share known t x)
  rw [List.flatMap_append, hcreated, List.append_nil, hleft] at hperm
  exact hperm

def entriesFor (names : OrderedMap RecordId String) (x : RecordId)
    (given : RecordId × List Captured) : List Value :=
  if given.1 = x then given.2.map (entry names) else []

theorem destination_print {q : Record} (hq : q ∈ s.records) (hcat : q.isCategory Category.queue) :
    destinationIn s q.id.print = nameOf q := by
  have hname : queueNameIn? s q.id = some (nameOf q) :=
    queueNameIn?_eq_some_iff.2 ⟨q, hq, hcat, rfl, rfl⟩
  rw [destinationIn, RecordId.ofText?_print, Option.bind_some, hname, Option.getD_some]

theorem entry_ofRecord (s : RecordSet) (b : Record) (queue : RecordId) :
    entry (queueNamesOf s) (ofRecord b queue) =
      listed (nameOf b) (destinationIn s queue.print) (b.attribute? Attribute.arguments) := by
  rw [ofRecord, entry_of, asWord_eq, destination_queueNamesOf, nameOf]

theorem entry_ofExchangeEntry (s : RecordSet) (e : Value) :
    entry (queueNamesOf s) (ofExchangeEntry e) =
      inlineListed (destinationIn s (textOf (e.member? Attribute.queue))) e := by
  rw [ofExchangeEntry, entry_of, asWord_eq, asWord_eq, destination_queueNamesOf, inlineListed]

theorem entry_ofQueueEntry (s : RecordSet) (queue : String) (e : Value) :
    entry (queueNamesOf s) (ofQueueEntry queue e) = inlineListed (destinationIn s queue) e := by
  rw [ofQueueEntry, entry_of, asWord_eq, destination_queueNamesOf, inlineListed]

theorem share_binding (hb : r.isCategory Category.binding) (hq : HasQueue s r) :
    share known s x r = (given r).elim [] (entriesFor (queueNamesOf s) x) := by
  obtain ⟨q, hmem, hcat, hparent⟩ := hq
  have hname : queueNameIn? s q.id = some (nameOf q) :=
    queueNameIn?_eq_some_iff.2 ⟨q, hmem, hcat, rfl, rfl⟩
  cases hx : r.parent? Category.exchange with
  | none => simp [share, given, hb, hx]
  | some exchange =>
    by_cases he : exchange = x
    · simp [share, given, entriesFor, hb, hx, he, hparent, hname, entry_ofRecord,
        destination_print hmem hcat]
    · simp [share, given, entriesFor, hb, hx, he, hparent]

theorem share_exchange (hx : r.isCategory Category.exchange) :
    share known s x r = (given r).elim [] (entriesFor (queueNamesOf s) x) := by
  have hb := Record.isCategory_eq_false hx Category.binding (by decide)
  cases hhas : r.hasAttribute Attribute.bindings with
  | false =>
    simp [share, given, hb, hx, hhas, inlineList_eq_nil (Record.attribute?_eq_none hhas)]
  | true =>
    simp only [share, given, entriesFor, hb, hx, hhas, Bool.false_eq_true, if_false, if_true,
      Bool.and_self, Option.elim_some, List.map_map, inlineEntries_eq]
    congr 2
    funext e
    exact (entry_ofExchangeEntry s e).symm

theorem flatMap_queueAdds (known s : RecordSet) (x : RecordId) (name : String)
    (entries : List Value) :
    entries.flatMap (fun e =>
      (queueAdds (exchangesOf known) name e).flatMap (entriesFor (queueNamesOf s) x)) =
      (entries.filter fun e => meant? known (exchangeText e) = some x).map
        (inlineListed (destinationIn s name)) := by
  rw [← List.filterMap_eq_filter, List.map_filterMap, List.filterMap_eq_flatMap_toList]
  apply List.flatMap_congr
  intro e _
  rw [queueAdds, resolve?_exchangesOf, reference_eq]
  cases hmeant : meant? known (exchangeText e) with
  | none => simp [Option.guard, hmeant]
  | some exchange =>
    by_cases he : exchange = x <;>
      simp [Option.guard, hmeant, entriesFor, he, entry_ofQueueEntry]

theorem share_queue (hq : r.isCategory Category.queue) :
    share known s x r = (queueGiven r).elim [] fun queue =>
      (queue.2.flatMap (queueAdds (exchangesOf known) queue.1)).flatMap
        (entriesFor (queueNamesOf s) x) := by
  have hb := Record.isCategory_eq_false hq Category.binding (by decide)
  have hx := Record.isCategory_eq_false hq Category.exchange (by decide)
  cases hhas : r.hasAttribute Attribute.bindings with
  | false =>
    simp [share, queueGiven, hb, hx, hq, hhas, inlineList_eq_nil (Record.attribute?_eq_none hhas)]
  | true =>
    simp only [share, queueGiven, hb, hx, hq, hhas, Bool.false_eq_true, if_false, if_true,
      Bool.and_self, Option.elim_some, List.flatMap_assoc, flatMap_queueAdds, inlineEntries_eq,
      queueName_eq]

theorem share_eq (hq : r.isCategory Category.binding → HasQueue s r) :
    share known s x r =
      (given r).elim [] (entriesFor (queueNamesOf s) x) ++ (queueGiven r).elim [] fun queue =>
        (queue.2.flatMap (queueAdds (exchangesOf known) queue.1)).flatMap
          (entriesFor (queueNamesOf s) x) := by
  by_cases hb : r.isCategory Category.binding
  · have hnot := Record.isCategory_eq_false hb Category.queue (by decide)
    have hnone : queueGiven r = none := by simp [queueGiven, hnot]
    rw [share_binding hb (hq hb), hnone, Option.elim_none, List.append_nil]
  · by_cases hx : r.isCategory Category.exchange
    · have hnot := Record.isCategory_eq_false hx Category.queue (by decide)
      have hnone : queueGiven r = none := by simp [queueGiven, hnot]
      rw [share_exchange hx, hnone, Option.elim_none, List.append_nil]
    · have hnone : given r = none := by simp [given, hb, hx]
      rw [hnone, Option.elim_none, List.nil_append]
      by_cases hqueue : r.isCategory Category.queue
      · exact share_queue hqueue
      · simp [share, queueGiven, hb, hx, hqueue]

theorem allGiven_perm_contributions
    (h : ∀ b ∈ s.records, b.isCategory Category.binding → HasQueue s b) :
    ((allGiven s).flatMap (entriesFor (queueNamesOf s) x)).Perm (contributions s s x) := by
  -- gathering the entries of queues by name only changes their order
  have hqueues := (OrderedMap.flatMap_group_perm (s.records.filterMap queueGiven)
    (queueAdds (exchangesOf s))).flatMap_right (entriesFor (queueNamesOf s) x)
  rw [List.flatMap_assoc (l := s.records.filterMap queueGiven), flatMap_filterMap] at hqueues
  have hshares : ∀ r ∈ s.records, share s s x r = _ := fun r hr => share_eq (h r hr)
  rw [allGiven, List.flatMap_append, flatMap_filterMap, contributions, List.flatMap_congr hshares]
  exact (hqueues.append_left _).trans (List.flatMap_append_perm s.records _ _)

theorem get?_gathered (names : OrderedMap RecordId String) (s : RecordSet) (x : RecordId) :
    ((gathered s).get? x).map (fun bindings => bindings.map (entry names)) =
      if x ∈ (allGiven s).map Prod.fst then some ((allGiven s).flatMap (entriesFor names x))
      else none := by
  have hentries : ∀ given : RecordId × List Captured,
      (if given.1 = x then given.2 else []).map (entry names) = entriesFor names x given := by
    intro given
    unfold entriesFor
    split <;> rfl
  rw [gathered, OrderedMap.get?_group]
  split
  · rw [Option.map_some, List.map_flatMap]
    simp only [hentries]
  · rfl

theorem gathered_contributions
    (h : ∀ b ∈ s.records, b.isCategory Category.binding → HasQueue s b)
    (hne : contributions s s x ≠ []) :
    ∃ bindings, (gathered s).get? x = some bindings ∧
      (bindings.map (entry (queueNamesOf s))).Perm (contributions s s x) := by
  have hperm := allGiven_perm_contributions (x := x) h
  have hmem : x ∈ (allGiven s).map Prod.fst := by
    by_contra hmem
    have hnil : (allGiven s).flatMap (entriesFor (queueNamesOf s) x) = [] := by
      rw [List.flatMap_eq_nil_iff]
      intro given hg
      have hx : given.1 ≠ x := fun e => hmem (e ▸ List.mem_map_of_mem hg)
      exact if_neg hx
    rw [hnil] at hperm
    exact hne hperm.nil_eq.symm
  have hget := get?_gathered (queueNamesOf s) s x
  rw [if_pos hmem] at hget
  obtain ⟨bindings, hb, hbindings⟩ := Option.map_eq_some_iff.1 hget
  exact ⟨bindings, hb, hbindings ▸ hperm⟩

end BrokerConfig.Upgrade.BindingLists
