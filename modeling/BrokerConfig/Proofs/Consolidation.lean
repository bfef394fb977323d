import BrokerConfig.Proofs.Revision
import BrokerConfig.Proofs.StepVerdicts

namespace BrokerConfig.Upgrade.BindingLists

open Json

variable {s : RecordSet}

def given (r : Record) : Option (RecordId × List Captured) :=
  if r.isCategory Category.binding then
    (r.parent? Category.exchange).bind fun exchange =>
      (r.parent? Category.queue).map fun queue => (exchange, [ofRecord r queue])
  else if r.isCategory Category.exchange && r.hasAttribute Attribute.bindings then
    some (r.id, (inlineEntries r).map ofExchangeEntry)
  else none

def queueName (queue : Record) : String := asWord (queue.attribute? Attribute.name)

def queueGiven (r : Record) : Option (String × List Value) :=
  if r.isCategory Category.queue && r.hasAttribute Attribute.bindings then
    some (queueName r, inlineEntries r)
  else none

def reference (entry : Value) : String := asWord (entry.member? Attribute.exchange)

def queueAdds (exchanges : RecordSet) (queue : String) (entry : Value) :
    List (RecordId × List Captured) :=
  ((resolve? exchanges (reference entry)).map fun exchange =>
    (exchange, [ofQueueEntry queue entry])).toList

def exchangesOf (s : RecordSet) : RecordSet :=
  ⟨s.records.filter fun r => r.isCategory Category.exchange,
    s.distinct.sublist (List.filter_sublist.map _)⟩

def queueNamesOf (s : RecordSet) : OrderedMap RecordId String where
  entries := (s.records.filter fun r => r.isCategory Category.queue).map fun q => (q.id, queueName q)
  distinct := by
    rw [List.map_map]
    exact s.distinct.sublist (List.filter_sublist.map _)

def allGiven (s : RecordSet) : List (RecordId × List Captured) :=
  s.records.filterMap given ++
    (OrderedMap.group (s.records.filterMap queueGiven)).entries.flatMap fun queue =>
      queue.2.flatMap (queueAdds (exchangesOf s) queue.1)

def gathered (s : RecordSet) : OrderedMap RecordId (List Captured) := OrderedMap.group (allGiven s)

def verdict (s : RecordSet) (r : Record) : Verdict :=
  if r.isRoot then .revise (r.withVersion target)
  else if r.isCategory Category.binding then .drop r
  else if r.isCategory Category.exchange then
    match (gathered s).get? r.id with
    | some bindings => .revise (withDurable r (bindings.map (entry (queueNamesOf s))))
    | none => .keep
  else if r.isCategory Category.queue && r.hasAttribute Attribute.bindings then
    .revise (r.withoutAttribute Attribute.bindings)
  else .keep

structure Resolved (s : RecordSet) : Prop where
  parents : ∀ b ∈ s.records, b.isCategory Category.binding →
    (b.parent? Category.exchange).isSome ∧ (b.parent? Category.queue).isSome
  references : ∀ q ∈ s.records, q.isCategory Category.queue → ∀ entry ∈ inlineEntries q,
    (resolve? (exchangesOf s) (reference entry)).isSome

/-- Why a run fails: a lost parent comes before a reference that leads nowhere. -/
inductive Fails (s : RecordSet) : Failure → Prop
  | parentless {b : Record} (mem : b ∈ s.records) (binding : b.isCategory Category.binding)
    (lost : b.parent? Category.exchange = none ∨ b.parent? Category.queue = none)
    (parent : String) : Fails s (.unresolvedParent b.id b.category parent)
  | unresolved {q : Record} {entry : Value}
    (parents : ∀ b ∈ s.records, b.isCategory Category.binding →
      (b.parent? Category.exchange).isSome ∧ (b.parent? Category.queue).isSome)
    (mem : q ∈ s.records) (queue : q.isCategory Category.queue) (listed : entry ∈ inlineEntries q)
    (lost : resolve? (exchangesOf s) (reference entry) = none) :
    Fails s (.unresolvedExchange (queueName q) (reference entry))

def visitVerdict (r : Record) : Verdict :=
  if r.isRoot then .revise (r.withVersion target)
  else if r.isCategory Category.binding then .drop r
  else if r.isCategory Category.queue && r.hasAttribute Attribute.bindings then
    .revise (r.withoutAttribute Attribute.bindings)
  else .keep

structure Visited (seen : List Record) (w : Work State) : Prop where
  captured : w.state.captured = OrderedMap.group (seen.filterMap given)
  exchanges : w.state.exchanges.records = seen.filter fun r => r.isCategory Category.exchange
  queueNames : w.state.queueNames.entries =
    (seen.filter fun r => r.isCategory Category.queue).map fun q => (q.id, queueName q)
  queueEntries : w.state.queueEntries = OrderedMap.group (seen.filterMap queueGiven)
  changes : w.changes = Changes.decided visitVerdict seen
  parents : ∀ b ∈ seen, b.isCategory Category.binding →
    (b.parent? Category.exchange).isSome ∧ (b.parent? Category.queue).isSome

theorem Visited.initial : Visited [] (Work.initial start) where
  captured := rfl
  exchanges := rfl
  queueNames := rfl
  queueEntries := rfl
  changes := rfl
  parents := by simp

theorem Visited.append {seen : List Record} {w w' : Work State} {r : Record} (h : Visited seen w)
    (hcaptured : w'.state.captured = OrderedMap.group (seen.filterMap given ++ (given r).toList))
    (hexchanges : w'.state.exchanges.records =
      w.state.exchanges.records ++ if r.isCategory Category.exchange then [r] else [])
    (hnames : w'.state.queueNames.entries = w.state.queueNames.entries ++
      if r.isCategory Category.queue then [(r.id, queueName r)] else [])
    (hentries : w'.state.queueEntries =
      OrderedMap.group (seen.filterMap queueGiven ++ (queueGiven r).toList))
    (hchanges : w'.changes = w.changes.take (visitVerdict r))
    (hparents : r.isCategory Category.binding →
      (r.parent? Category.exchange).isSome ∧ (r.parent? Category.queue).isSome) :
    Visited (seen ++ [r]) w' where
  captured := by
    rw [hcaptured, List.filterMap_append]
    cases hg : given r <;> simp [hg]
  exchanges := by
    rw [hexchanges, h.exchanges, List.filter_append]
    simp [List.filter_cons]
  queueNames := by
    rw [hnames, h.queueNames, List.filter_append, List.map_append]
    congr 1
    cases hq : r.isCategory Category.queue <;> simp [hq]
  queueEntries := by
    rw [hentries, List.filterMap_append]
    cases hg : queueGiven r <;> simp [hg]
  changes := by rw [hchanges, h.changes, Changes.decided_concat]
  parents b hb := by
    rcases List.mem_append.1 hb with hb | hb
    · exact h.parents b hb
    · exact List.mem_singleton.1 hb ▸ hparents

theorem Visited.records_insert {seen : List Record} {w : Work State} {r : Record}
    (h : Visited seen w) (hfresh : ∀ t ∈ seen, t.id ≠ r.id) :
    (w.state.exchanges.insert r).records = w.state.exchanges.records ++ [r] := by
  apply Keyed.put_of_not_mem
  rw [h.exchanges, List.mem_map]
  rintro ⟨t, ht, hid⟩
  exact hfresh t (List.mem_filter.1 ht).1 hid

theorem Visited.entries_insert {seen : List Record} {w : Work State} {r : Record}
    (h : Visited seen w) (hfresh : ∀ t ∈ seen, t.id ≠ r.id) (name : String) :
    (w.state.queueNames.insert r.id name).entries =
      w.state.queueNames.entries ++ [(r.id, name)] := by
  apply Keyed.put_of_not_mem
  rw [h.queueNames, List.map_map, List.mem_map]
  rintro ⟨t, ht, hid⟩
  exact hfresh t (List.mem_filter.1 ht).1 hid

namespace Visited

variable {seen : List Record} {w : Work State} {r : Record} {failed : Failure → Work State → Prop}

theorem root (h : Visited seen w) (hroot : r.isRoot) :
    Ends (Pass.moveTo target r) w (fun _ w' => Visited (seen ++ [r]) w') failed := by
  have hb := Record.isCategory_eq_false hroot Category.binding (by decide)
  have hx := Record.isCategory_eq_false hroot Category.exchange (by decide)
  have hq := Record.isCategory_eq_false hroot Category.queue (by decide)
  rw [Pass.ends_moveTo]
  apply h.append
  · simp [given, hb, hx, h.captured]
  · simp [hx]
  · simp [hq]
  · simp [queueGiven, hq, h.queueEntries]
  · simp [visitVerdict, hroot, Changes.take]
  · simp [hb]

theorem binding (h : Visited seen w) (hb : r.isCategory Category.binding) (hr : r ∈ s.records) :
    Ends (visitBinding r) w (fun _ w' => Visited (seen ++ [r]) w') fun e _ => Fails s e := by
  have hroot := Record.isRoot_eq_false hb (by decide)
  have hx := Record.isCategory_eq_false hb Category.exchange (by decide)
  have hq := Record.isCategory_eq_false hb Category.queue (by decide)
  unfold visitBinding
  cases hxp : r.parent? Category.exchange with
  | none => exact .parentless hr hb (.inl hxp) Category.exchange
  | some exchange =>
    cases hqp : r.parent? Category.queue with
    | none => exact .parentless hr hb (.inr hqp) Category.queue
    | some queue =>
      simp only [ends_bind, Pass.ends_modifyState, Pass.ends_delete]
      apply h.append
      · simp [given, hb, hxp, hqp, capture, h.captured, OrderedMap.group_concat]
      · simp [hx, capture]
      · simp [hq, capture]
      · simp [queueGiven, hq, capture, h.queueEntries]
      · simp [visitVerdict, hroot, hb, Changes.take]
      · simp [hxp, hqp]

theorem exchange (h : Visited seen w) (hx : r.isCategory Category.exchange)
    (hfresh : ∀ t ∈ seen, t.id ≠ r.id) :
    Ends (Pass.modifyState (seeExchange r)) w (fun _ w' => Visited (seen ++ [r]) w') failed := by
  have hroot := Record.isRoot_eq_false hx (by decide)
  have hb := Record.isCategory_eq_false hx Category.binding (by decide)
  have hq := Record.isCategory_eq_false hx Category.queue (by decide)
  rw [Pass.ends_modifyState]
  unfold seeExchange
  cases hhas : r.hasAttribute Attribute.bindings
  all_goals
    apply h.append
    · simp [given, hb, hx, hhas, capture, h.captured, OrderedMap.group_concat]
    · simp [hx, capture, h.records_insert hfresh]
    · simp [hq, capture]
    · simp [queueGiven, hq, capture, h.queueEntries]
    · simp [visitVerdict, hroot, hb, hq, Changes.take]
    · simp [hb]

theorem queue (h : Visited seen w) (hq : r.isCategory Category.queue)
    (hfresh : ∀ t ∈ seen, t.id ≠ r.id) :
    Ends (visitQueue r) w (fun _ w' => Visited (seen ++ [r]) w') failed := by
  have hroot := Record.isRoot_eq_false hq (by decide)
  have hb := Record.isCategory_eq_false hq Category.binding (by decide)
  have hx := Record.isCategory_eq_false hq Category.exchange (by decide)
  have hnames := h.entries_insert hfresh (queueName r)
  simp only [visitQueue, ends_bind, Pass.ends_modifyState]
  by_cases hhas : r.hasAttribute Attribute.bindings
  · simp only [hhas, if_true, Pass.ends_update, seeQueue]
    apply h.append
    · simp [given, hb, hx, h.captured]
    · simp [hx]
    · simpa [hq, queueName] using hnames
    · simp [queueGiven, hq, hhas, h.queueEntries, OrderedMap.group_concat, queueName]
    · simp [visitVerdict, hroot, hb, hq, hhas, Changes.take]
    · simp [hb]
  · simp only [hhas, Bool.false_eq_true, if_false, ends_pure, seeQueue]
    apply h.append
    · simp [given, hb, hx, h.captured]
    · simp [hx]
    · simpa [hq, queueName] using hnames
    · simp [queueGiven, hhas, h.queueEntries]
    · simp [visitVerdict, hroot, hb, hhas, Changes.take]
    · simp [hb]

theorem other (h : Visited seen w) (hroot : ¬r.isRoot) (hb : ¬r.isCategory Category.binding)
    (hx : ¬r.isCategory Category.exchange) (hq : ¬r.isCategory Category.queue) :
    Visited (seen ++ [r]) w := by
  apply h.append
  · simp [given, hb, hx, h.captured]
  · simp [hx]
  · simp [hq]
  · simp [queueGiven, hq, h.queueEntries]
  · simp [visitVerdict, hroot, hb, hq, Changes.take]
  · simp [hb]

end Visited

theorem visited_visit {seen : List Record} {w : Work State} {r : Record} (hr : r ∈ s.records)
    (hfresh : ∀ t ∈ seen, t.id ≠ r.id) (h : Visited seen w) :
    Ends (visit r) w (fun _ w' => Visited (seen ++ [r]) w') fun e _ => Fails s e := by
  unfold visit
  split
  · rename_i hroot
    exact h.root hroot
  · rename_i hroot
    split
    · rename_i hb
      exact h.binding hb hr
    · rename_i hb
      split
      · rename_i hx
        exact h.exchange hx hfresh
      · rename_i hx
        split
        · rename_i hq
          exact h.queue hq hfresh
        · rename_i hq
          exact h.other hroot hb hx hq

structure Capturing (w : Work State) (taken : List (RecordId × List Captured)) (w' : Work State) :
    Prop where
  captured : w'.state.captured = OrderedMap.group taken
  exchanges : w'.state.exchanges = w.state.exchanges
  queueNames : w'.state.queueNames = w.state.queueNames
  changes : w'.changes = w.changes

theorem ends_captureEntries {queue : String} {entries : List Value} {w w' : Work State}
    {taken : List (RecordId × List Captured)} (h : Capturing w taken w') :
    Ends (captureEntries queue entries) w'
      (fun _ w'' => Capturing w (taken ++ entries.flatMap (queueAdds w.state.exchanges queue)) w'' ∧
        ∀ entry ∈ entries, (resolve? w.state.exchanges (reference entry)).isSome)
      fun e _ => ∃ entry ∈ entries, resolve? w.state.exchanges (reference entry) = none ∧
        e = .unresolvedExchange queue (reference entry) := by
  rw [captureEntries_eq]
  apply Pass.ends_each fun done (w'' : Work State) =>
    Capturing w (taken ++ done.flatMap (queueAdds w.state.exchanges queue)) w'' ∧
      ∀ entry ∈ done, (resolve? w.state.exchanges (reference entry)).isSome
  · simpa using h
  · rintro before entry after hs w'' ⟨hw, hresolved⟩
    simp only [captureEntry, ends_bind, Pass.ends_getState, hw.exchanges]
    cases hx : resolve? w.state.exchanges (asWord (entry.member? Attribute.exchange)) with
    | none => exact ⟨entry, by simp [hs], hx, rfl⟩
    | some exchange =>
      rw [Pass.ends_modifyState]
      refine ⟨⟨?_, hw.exchanges, hw.queueNames, hw.changes⟩, ?_⟩
      · simp [capture, hw.captured, queueAdds, reference, hx, ← List.append_assoc,
          OrderedMap.group_concat]
      · intro other ho
        rcases List.mem_append.1 ho with ho | ho
        · exact hresolved other ho
        · rw [List.mem_singleton.1 ho, reference, hx]
          rfl

theorem ends_captureQueues {queues : List (String × List Value)} {w w' : Work State}
    {taken : List (RecordId × List Captured)} (h : Capturing w taken w') :
    Ends (Pass.each (fun queue => captureEntries queue.1 queue.2) queues) w'
      (fun _ w'' => Capturing w (taken ++ queues.flatMap fun queue =>
          queue.2.flatMap (queueAdds w.state.exchanges queue.1)) w'' ∧
        ∀ queue ∈ queues, ∀ entry ∈ queue.2,
          (resolve? w.state.exchanges (reference entry)).isSome)
      fun e _ => ∃ queue ∈ queues, ∃ entry ∈ queue.2,
        resolve? w.state.exchanges (reference entry) = none ∧
        e = .unresolvedExchange queue.1 (reference entry) := by
  apply Pass.ends_each fun (done : List (String × List Value)) (w'' : Work State) =>
    Capturing w (taken ++ done.flatMap fun queue =>
        queue.2.flatMap (queueAdds w.state.exchanges queue.1)) w'' ∧
      ∀ queue ∈ done, ∀ entry ∈ queue.2, (resolve? w.state.exchanges (reference entry)).isSome
  · simpa using h
  · rintro before queue after hs w'' ⟨hw, hresolved⟩
    apply (ends_captureEntries hw).mono
    · rintro _ v ⟨hw', hqueue⟩
      refine ⟨by simpa using hw', ?_⟩
      intro other ho
      rcases List.mem_append.1 ho with ho | ho
      · exact hresolved other ho
      · exact List.mem_singleton.1 ho ▸ hqueue
    · rintro e _ ⟨entry, he, hnone⟩
      exact ⟨queue, by simp [hs], entry, he, hnone⟩

theorem ends_settleAll {state : State} {captured : List (RecordId × List Captured)} {w : Work State}
    {done : Unit → Work State → Prop} {failed : Failure → Work State → Prop}
    (h : ∀ events, done () ⟨w.state, captured.foldl (fun c bindings =>
      ((state.exchanges.get? bindings.1).map fun exchange =>
        withDurable exchange (bindings.2.map (entry state.queueNames))).elim c c.update) w.changes,
      events⟩) :
    Ends (Pass.each (fun bindings => settle state bindings.1 bindings.2) captured) w done failed := by
  induction captured generalizing w with
  | nil => exact h w.events
  | cons bindings rest ih =>
    simp only [Pass.each, settle, ends_bind]
    cases hx : state.exchanges.get? bindings.1 with
    | some exchange =>
      simp only [ends_bind, Pass.ends_report, Pass.ends_update]
      apply ih
      intro events
      have hd := h events
      rwa [List.foldl_cons, hx] at hd
    | none =>
      rw [Pass.ends_report]
      apply ih
      intro events
      have hd := h events
      rwa [List.foldl_cons, hx] at hd

theorem get?_exchangesOf (s : RecordSet) (id : RecordId) :
    (exchangesOf s).get? id = (s.get? id).filter fun r => r.isCategory Category.exchange :=
  RecordSet.find?_filter s _ id

theorem mem_queueNamesOf {id : RecordId} {name : String} :
    (queueNamesOf s).get? id = some name ↔
      ∃ q ∈ s.records, q.isCategory Category.queue ∧ q.id = id ∧ queueName q = name := by
  rw [OrderedMap.get?_eq_some_iff]
  simp only [queueNamesOf, List.mem_map, List.mem_filter, Prod.mk.injEq]
  constructor
  · rintro ⟨q, ⟨hq, hcat⟩, hid, hname⟩
    exact ⟨q, hq, hcat, hid, hname⟩
  · rintro ⟨q, hq, hcat, hid, hname⟩
    exact ⟨q, ⟨hq, hcat⟩, hid, hname⟩

theorem resolve?_congr {xs ys : RecordSet} {reference : String}
    (hids : ∀ id, xs.contains id = ys.contains id)
    (hnames : (xs.records.find? fun e => e.name? = some reference).map Record.id =
      (ys.records.find? fun e => e.name? = some reference).map Record.id) :
    resolve? xs reference = resolve? ys reference := by
  unfold resolve?
  dsimp only
  rw [show xs.contains = ys.contains from funext hids]
  split
  · rfl
  · generalize xs.records.find? _ = x at hnames ⊢
    generalize ys.records.find? _ = y at hnames ⊢
    cases x with
    | none =>
      cases y with
      | none => rfl
      | some y => cases hnames
    | some x =>
      cases y with
      | none => cases hnames
      | some y => exact hnames

theorem about_visitVerdict (r : Record) : (visitVerdict r).About r.id := by
  unfold visitVerdict
  split
  · rfl
  · split
    · rfl
    · split
      · rfl
      · trivial

theorem about_verdict (s : RecordSet) (r : Record) : (verdict s r).About r.id := by
  unfold verdict
  split
  · rfl
  · split
    · rfl
    · split
      · cases (gathered s).get? r.id with
        | some bindings => rfl
        | none => trivial
      · split
        · rfl
        · trivial

theorem mem_queueGiven {name : String} {entries : List Value}
    (h : (name, entries) ∈ s.records.filterMap queueGiven) :
    ∃ q ∈ s.records, q.isCategory Category.queue ∧ queueName q = name ∧ inlineEntries q = entries := by
  obtain ⟨q, hq, hg⟩ := List.mem_filterMap.1 h
  unfold queueGiven at hg
  split at hg
  · rename_i hc
    cases hg
    exact ⟨q, hq, (Bool.and_eq_true_iff.1 hc).1, rfl, rfl⟩
  · cases hg

theorem queueGiven_of_mem {q : Record} {entry : Value} (hq : q.isCategory Category.queue)
    (he : entry ∈ inlineEntries q) : queueGiven q = some (queueName q, inlineEntries q) := by
  have hhas : q.hasAttribute Attribute.bindings := by
    by_contra hnot
    rw [inlineEntries, Record.attribute?_eq_none (Bool.eq_false_iff.2 hnot)] at he
    cases he
  simp [queueGiven, hq, hhas]

theorem verdict_exchange {r : Record} (hx : r.isCategory Category.exchange) :
    verdict s r = match (gathered s).get? r.id with
      | some bindings => .revise (withDurable r (bindings.map (entry (queueNamesOf s))))
      | none => .keep := by
  have hroot := Record.isRoot_eq_false hx (by decide)
  have hb := Record.isCategory_eq_false hx Category.binding (by decide)
  simp [verdict, hroot, hb, hx]

theorem visitVerdict_exchange {r : Record} (hx : r.isCategory Category.exchange) :
    visitVerdict r = .keep := by
  have hroot := Record.isRoot_eq_false hx (by decide)
  have hb := Record.isCategory_eq_false hx Category.binding (by decide)
  have hq := Record.isCategory_eq_false hx Category.queue (by decide)
  simp [visitVerdict, hroot, hb, hq]

theorem verdict_of_not_exchange {r : Record} (hx : r.isCategory Category.exchange = false) :
    verdict s r = visitVerdict r := by
  simp [verdict, visitVerdict, hx]

def listed? (s : RecordSet) (bindings : RecordId × List Captured) : Option Record :=
  ((exchangesOf s).get? bindings.1).map fun exchange =>
    withDurable exchange (bindings.2.map (entry (queueNamesOf s)))

theorem find?_bind_listed? (id : RecordId) :
    (Keyed.find? Prod.fst id (gathered s).entries).bind (listed? s) =
      (s.get? id).bind fun r =>
        if r.isCategory Category.exchange then (verdict s r).revision? else none := by
  cases hr : s.get? id with
  | none =>
    rw [Option.bind_none, Option.bind_eq_none_iff]
    intro bindings hb
    have hid : bindings.1 = id := by simpa using List.find?_some hb
    rw [listed?, hid, get?_exchangesOf, hr]
    rfl
  | some r =>
    have hid := RecordSet.id_of_get? hr
    by_cases hx : r.isCategory Category.exchange
    · rw [Option.bind_some, if_pos hx, verdict_exchange hx, hid, OrderedMap.get?]
      cases hb : Keyed.find? Prod.fst id (gathered s).entries with
      | none => rfl
      | some bindings =>
        have hbid : bindings.1 = id := by simpa using List.find?_some hb
        simp [listed?, hbid, get?_exchangesOf, hr, hx, Verdict.revision?]
    · rw [Option.bind_some, if_neg hx, Option.bind_eq_none_iff]
      intro bindings hb
      have hbid : bindings.1 = id := by simpa using List.find?_some hb
      simp [listed?, hbid, get?_exchangesOf, hr, hx]

theorem decides_settled {w : Work State} (h : Visited s.records w) :
    Decides (verdict s) RecordSet.empty s
      ((gathered s).entries.foldl (fun c bindings => (listed? s bindings).elim c c.update)
        w.changes) := by
  have hvisits : Decides visitVerdict RecordSet.empty s w.changes := by
    rw [h.changes]
    exact .decided fun r _ => about_visitVerdict r
  have hid : ∀ bindings ∈ (gathered s).entries, ∀ u, listed? s bindings = some u →
      u.id = bindings.1 := by
    intro bindings _ u hu
    obtain ⟨exchange, hx, rfl⟩ := Option.map_eq_some_iff.1 hu
    exact (RecordSet.get?_eq_some_iff.1 hx).2
  have hfold := Changes.get?_foldl_update (gathered s).distinct hid w.changes
  -- only exchanges are settled, and no visit asks for anything for them
  refine ⟨fun r _ => about_verdict s r, fun id => ?_, fun id => ?_⟩
  · rw [(hfold id).1, find?_bind_listed?, hvisits.updates]
    cases s.get? id with
    | none => rfl
    | some r =>
      simp only [Option.bind_some, RecordSet.get?_empty, Option.none_or]
      by_cases hx : r.isCategory Category.exchange
      · rw [if_pos hx, visitVerdict_exchange hx]
        exact Option.or_none
      · rw [if_neg hx, verdict_of_not_exchange (Bool.not_eq_true _ ▸ hx), Option.none_or]
  · rw [(hfold id).2, find?_bind_listed?, hvisits.deletes]
    cases s.get? id with
    | none => rfl
    | some r =>
      simp only [Option.bind_some]
      by_cases hx : r.isCategory Category.exchange
      · rw [if_pos hx, visitVerdict_exchange hx, verdict_exchange hx]
        cases (gathered s).get? r.id <;> rfl
      · rw [if_neg hx, verdict_of_not_exchange (Bool.not_eq_true _ ▸ hx)]
        rfl

theorem exchangesOf_eq {w : Work State} (h : Visited s.records w) :
    w.state.exchanges = exchangesOf s := by
  obtain ⟨⟨_, ⟨records, _⟩, _, _⟩, _, _⟩ := w
  have he : records = s.records.filter fun r => r.isCategory Category.exchange := h.exchanges
  subst he
  rfl

theorem queueNamesOf_eq {w : Work State} (h : Visited s.records w) :
    w.state.queueNames = queueNamesOf s := by
  obtain ⟨⟨_, _, ⟨entries, _⟩, _⟩, _, _⟩ := w
  have he : entries = (s.records.filter fun r => r.isCategory Category.queue).map fun q =>
      (q.id, queueName q) := h.queueNames
  subst he
  rfl

theorem ends_complete_visited {w : Work State} (h : Visited s.records w) :
    Ends complete w
      (fun _ w' => Decides (verdict s) RecordSet.empty s w'.changes ∧ Resolved s)
      fun e _ => Fails s e := by
  have hx := exchangesOf_eq h
  rw [ends_complete, h.queueEntries]
  have hcapture := @ends_captureQueues
    (OrderedMap.group (s.records.filterMap queueGiven)).entries w
    { w with state := { w.state with queueEntries := OrderedMap.empty } }
    (s.records.filterMap given) ⟨h.captured, rfl, rfl, rfl⟩
  rw [hx] at hcapture
  apply hcapture.mono
  · rintro _ w' ⟨hw', hresolved⟩
    apply ends_settleAll
    intro events
    have hg : w'.state.captured = gathered s := hw'.captured
    rw [hg, hw'.exchanges, hw'.queueNames, hx, queueNamesOf_eq h, hw'.changes]
    refine ⟨decides_settled h, h.parents, ?_⟩
    intro q hq hcat entry he
    obtain ⟨entries, hmem, he⟩ := OrderedMap.mem_group.2
      ⟨_, List.mem_filterMap.2 ⟨q, hq, queueGiven_of_mem hcat he⟩, he⟩
    exact hresolved _ hmem entry he
  · rintro e _ ⟨⟨name, entries⟩, hmem, entry, he, hnone, rfl⟩
    obtain ⟨given, hgiven, he⟩ := OrderedMap.mem_group.1 ⟨_, hmem, he⟩
    obtain ⟨q, hq, hcat, rfl, rfl⟩ := mem_queueGiven hgiven
    exact .unresolved h.parents hq hcat he hnone

theorem consolidates :
    passes.Yields s (fun c => Decides (verdict s) RecordSet.empty s c ∧ Resolved s) (Fails s) := by
  rw [yields_iff]
  have hvisit : Ends (Pass.each visit s.records) (Work.initial start)
      (fun _ w => Visited s.records w) fun e _ => Fails s e := by
    apply Pass.ends_each Visited .initial
    intro before r after hs w hw
    exact visited_visit (by simp [hs]) (RecordSet.id_ne_of_split hs) hw
  apply hvisit.imp
  intro _ w hw
  exact ends_complete_visited hw

theorem revises_left? {r u : Record} (h : (verdict s r).left? r = some u) : Revises r u := by
  unfold verdict at h
  split at h
  · rename_i hroot
    cases h
    exact .withVersion target (Record.isRoot_iff.1 hroot)
  · split at h
    · cases h
    · split at h
      · rename_i hx
        cases hg : (gathered s).get? r.id with
        | none =>
          rw [hg] at h
          cases h
          exact .refl r
        | some bindings =>
          rw [hg] at h
          cases h
          exact .withDurable _ (Record.isCategory_iff.1 hx)
      · split at h
        · rename_i hq
          cases h
          exact .withoutBindings (Record.isCategory_iff.1 (Bool.and_eq_true_iff.1 hq).1)
        · cases h
          exact .refl r

theorem not_binding_of_left? {r u : Record} (h : (verdict s r).left? r = some u) :
    r.isCategory Category.binding = false := by
  unfold verdict at h
  split at h
  · rename_i hroot
    exact Record.isCategory_eq_false hroot Category.binding (by decide)
  · split at h
    · cases h
    · rename_i hb
      exact Bool.not_eq_true _ ▸ hb

theorem not_binding_of_mem_apply {c : Changes} (h : Decides (verdict s) RecordSet.empty s c) :
    ∀ u ∈ (s.apply c).records, u.isCategory Category.binding = false := by
  intro u hu
  obtain ⟨r, _, hl⟩ := h.mem_apply_iff.1 hu
  rw [(revises_left? hl).isCategory]
  exact not_binding_of_left? hl

theorem exists_left? {r : Record} (hx : r.isCategory Category.exchange) :
    ∃ u, (verdict s r).left? r = some u := by
  rw [verdict_exchange hx]
  cases (gathered s).get? r.id with
  | none => exact ⟨r, rfl⟩
  | some bindings => exact ⟨_, rfl⟩

theorem binding_of_left?_eq_none {r : Record} (h : (verdict s r).left? r = none) :
    r.isCategory Category.binding := by
  unfold verdict at h
  split at h
  · cases h
  · split at h
    · assumption
    · split at h
      · cases hg : (gathered s).get? r.id with
        | none =>
          rw [hg] at h
          cases h
        | some bindings =>
          rw [hg] at h
          cases h
      · split at h <;> cases h

end BrokerConfig.Upgrade.BindingLists
