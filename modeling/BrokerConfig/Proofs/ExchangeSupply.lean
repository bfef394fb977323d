import BrokerConfig.Proofs.Footprint
import BrokerConfig.Proofs.StepVerdicts

namespace BrokerConfig.Upgrade.MissingExchanges

variable {host : Host} {s : RecordSet}

def missingIn (rs : List Record) : List DefaultExchange :=
  DefaultExchange.all.filter fun e => !rs.any (bears e.name)

def Unborne (rs : List Record) (name : String) : Prop :=
  ∀ x ∈ rs, x.isCategory Category.exchange → x.name? ≠ some name

theorem unborne_iff {rs : List Record} {name : String} :
    Unborne rs name ↔ ∀ x ∈ rs, bears name x = false := by
  simp only [Unborne, bears, Bool.and_eq_false_imp, decide_eq_false_iff_not, ne_eq]

theorem mem_missingIn_iff {rs : List Record} {e : DefaultExchange} :
    e ∈ missingIn rs ↔ Unborne rs e.name := by
  simp [missingIn, unborne_iff, DefaultExchange.mem_all]

def unsettled (r : Record) : Bool :=
  r.isCategory Category.queue && wantsDeadLetters r && !hasAlternate r

def nameless (r : Record) : Prop := r.name? = none ∨ r.name? = some ""

def Named (host : Host) (s : RecordSet) (name : String) (id : RecordId) : Prop :=
  (∃ x ∈ s.records, bears name x ∧ x.id = id) ∨
    ∃ e ∈ missingIn s.records, e.name = name ∧ host.defaultId e = id

def Settles (host : Host) (s : RecordSet) (q : Record) (v : Verdict) : Prop :=
  ∃ name, q.name? = some name ∧ name ≠ "" ∧
    ((∃ x, Named host s (host.deadLetterName name) x ∧ v = .revise (withAlternate q x)) ∨
      (∀ x, ¬Named host s (host.deadLetterName name) x) ∧ v = .keep)

def Answers (host : Host) (s : RecordSet) (r : Record) (v : Verdict) : Prop :=
  if r.isRoot then v = .revise (r.withVersion target)
  else if unsettled r then Settles host s r v
  else v = .keep

def createdIn (host : Host) (s : RecordSet) (root : RecordId) : RecordSet :=
  RecordSet.ofList ((missingIn s.records).map fun e => newRecord host e root)

def Supplies (host : Host) (s : RecordSet) (c : Changes) : Prop :=
  ∃ verdict root, Decides verdict (createdIn host s root) s c ∧
    (∀ r ∈ s.records, Answers host s r (verdict r)) ∧
    (missingIn s.records ≠ [] → ∃ r ∈ s.records, r.isRoot ∧ r.id = root)

/-- Why a run fails: a nameless queue comes before a missing virtual host. -/
inductive Fails (s : RecordSet) : Failure → Prop
  | nameless {q : Record} (mem : q ∈ s.records) (unsettled : unsettled q) (nameless : nameless q) :
    Fails s (.missingQueueName q.id)
  | rootless {e : DefaultExchange} (named : ∀ q ∈ s.records, unsettled q → ¬nameless q)
    (rootless : ∀ r ∈ s.records, r.isRoot = false) (mem : e ∈ missingIn s.records) :
    Fails s (.missingRootRecord e.name)

def Pending (host : Host) (seen : List Record) (r : Record) (updated : Option Record)
    (waiting : Option Waiting) : Prop :=
  if r.isRoot then updated = some (r.withVersion target) ∧ waiting = none
  else if unsettled r then
    ∃ name, r.name? = some name ∧ name ≠ "" ∧
      ((∃ x ∈ seen, bears (host.deadLetterName name) x ∧ updated = some (withAlternate r x.id) ∧
          waiting = none) ∨
        updated = none ∧ waiting = some ⟨r, host.deadLetterName name⟩)
  else updated = none ∧ waiting = none

structure Known (seen : List Record) (state : State) : Prop where
  missing : state.missing = missingIn seen
  root : ∀ id, state.root = some id → ∃ r ∈ seen, r.isRoot ∧ r.id = id
  rootless : state.root = none → ∀ r ∈ seen, r.isRoot = false
  named : ∀ name id, state.exchanges.get? name = some id → ∃ x ∈ seen, bears name x ∧ x.id = id
  unnamed : ∀ name, state.exchanges.get? name = none → ∀ x ∈ seen, bears name x = false

structure Visited (host : Host) (seen : List Record) (w : Work State) : Prop where
  known : Known seen w.state
  pending : ∀ r ∈ seen,
    Pending host seen r (w.changes.updates.get? r.id) (w.state.waiting.get? r.id)
  untouched : ∀ id, (∀ r ∈ seen, r.id ≠ id) →
    w.changes.updates.get? id = none ∧ w.state.waiting.get? id = none
  deletes : ∀ id, w.changes.deletes.get? id = none

theorem missingIn_append (seen : List Record) (r : Record) :
    missingIn (seen ++ [r]) = (missingIn seen).filter fun e => !bears e.name r := by
  simp only [missingIn, List.filter_filter, List.any_append, List.any_cons, List.any_nil,
    Bool.or_false, Bool.not_or, Bool.and_comm]

namespace Known

variable {seen : List Record} {state : State} {r : Record}

theorem see (h : Known seen state) (hb : ∀ name, bears name r = false) :
    Known (seen ++ [r]) { state with root := if r.isRoot then some r.id else state.root } where
  missing := by
    rw [missingIn_append]
    exact h.missing.trans (List.filter_eq_self.2 fun e _ => by simp [hb]).symm
  root id hid := by
    by_cases hroot : r.isRoot
    · rw [if_pos hroot] at hid
      exact ⟨r, by simp, hroot, Option.some.inj hid⟩
    · rw [if_neg hroot] at hid
      obtain ⟨t, ht, hd⟩ := h.root id hid
      exact ⟨t, by simp [ht], hd⟩
  rootless hnone t ht := by
    by_cases hroot : r.isRoot
    · rw [if_pos hroot] at hnone
      cases hnone
    · rw [if_neg hroot] at hnone
      rcases List.mem_append.1 ht with ht | ht
      · exact h.rootless hnone t ht
      · rw [List.mem_singleton.1 ht]
        exact Bool.not_eq_true _ ▸ hroot
  named name id hid := by
    obtain ⟨t, ht, hd⟩ := h.named name id hid
    exact ⟨t, by simp [ht], hd⟩
  unnamed name hnone t ht := by
    rcases List.mem_append.1 ht with ht | ht
    · exact h.unnamed name hnone t ht
    · exact List.mem_singleton.1 ht ▸ hb name

theorem seeRoot (h : Known seen state) (hroot : r.isRoot) :
    Known (seen ++ [r]) { state with root := some r.id } := by
  have hx := Record.isCategory_eq_false hroot Category.exchange (by decide)
  have hk := h.see (bears_of_not_exchange hx)
  rwa [if_pos hroot] at hk

theorem skip (h : Known seen state) (hroot : r.isRoot = false)
    (hb : ∀ name, bears name r = false) : Known (seen ++ [r]) state := by
  have hk := h.see hb
  rwa [hroot, if_neg Bool.false_ne_true] at hk

theorem seeExchange (h : Known seen state) (hx : r.isCategory Category.exchange) :
    Known (seen ++ [r]) (seeExchange r state) := by
  have hroot := Record.isRoot_eq_false hx (by decide)
  unfold MissingExchanges.seeExchange
  cases hn : r.name? with
  | none => exact h.skip hroot (by simp [bears, hn])
  | some own =>
    have hb : ∀ name, bears name r = decide (own = name) := by simp [bears, hn, hx]
    exact {
      missing := by
        rw [missingIn_append, ← h.missing]
        apply List.filter_congr
        intro e _
        simp [hb, eq_comm]
      root := by
        intro id hid
        obtain ⟨t, ht, hd⟩ := h.root id hid
        exact ⟨t, by simp [ht], hd⟩
      rootless := by
        intro hnone t ht
        rcases List.mem_append.1 ht with ht | ht
        · exact h.rootless hnone t ht
        · exact List.mem_singleton.1 ht ▸ hroot
      named := by
        intro name id hid
        rw [OrderedMap.get?_insert] at hid
        by_cases he : own = name
        · rw [if_pos he] at hid
          exact ⟨r, by simp, by simp [hb, he], Option.some.inj hid⟩
        · rw [if_neg he] at hid
          obtain ⟨t, ht, hd⟩ := h.named name id hid
          exact ⟨t, by simp [ht], hd⟩
      unnamed := by
        intro name hnone t ht
        rw [OrderedMap.get?_insert] at hnone
        by_cases he : own = name
        · rw [if_pos he] at hnone
          cases hnone
        · rw [if_neg he] at hnone
          rcases List.mem_append.1 ht with ht | ht
          · exact h.unnamed name hnone t ht
          · rw [List.mem_singleton.1 ht, hb]
            simpa using he }

end Known

theorem pending_unsettled {seen : List Record} {r : Record} {updated : Option Record}
    {waiting : Option Waiting} (hroot : r.isRoot = false) (hu : unsettled r) :
    Pending host seen r updated waiting ↔
      ∃ name, r.name? = some name ∧ name ≠ "" ∧
        ((∃ x ∈ seen, bears (host.deadLetterName name) x ∧
            updated = some (withAlternate r x.id) ∧ waiting = none) ∨
          updated = none ∧ waiting = some ⟨r, host.deadLetterName name⟩) := by
  simp only [Pending, hroot, hu, Bool.false_eq_true, if_false, if_true]

theorem Pending.append {seen : List Record} {r : Record} {updated : Option Record}
    {waiting : Option Waiting} (h : Pending host seen r updated waiting) (t : Record) :
    Pending host (seen ++ [t]) r updated waiting := by
  unfold Pending at h ⊢
  split
  · rename_i hroot
    simpa [hroot] using h
  · rename_i hroot
    rw [if_neg hroot] at h
    split
    · rename_i hu
      rw [if_pos hu] at h
      obtain ⟨name, hn, hne, ⟨x, hx, h⟩ | h⟩ := h
      · exact ⟨name, hn, hne, .inl ⟨x, by simp [hx], h⟩⟩
      · exact ⟨name, hn, hne, .inr h⟩
    · rename_i hu
      rwa [if_neg hu] at h

namespace Visited

variable {seen : List Record} {w w' : Work State} {r : Record}

theorem initial : Visited host [] (Work.initial start) where
  known :=
    { missing := rfl
      root := by simp [Work.initial, start]
      rootless := by simp
      named := by simp [Work.initial, start]
      unnamed := by simp }
  pending := by simp
  untouched _ _ := ⟨rfl, rfl⟩
  deletes _ := rfl

theorem append (h : Visited host seen w) (hfresh : ∀ t ∈ seen, t.id ≠ r.id)
    (hknown : Known (seen ++ [r]) w'.state)
    (hother : ∀ id, id ≠ r.id → w'.changes.updates.get? id = w.changes.updates.get? id ∧
      w'.state.waiting.get? id = w.state.waiting.get? id)
    (hown : Pending host (seen ++ [r]) r (w'.changes.updates.get? r.id)
      (w'.state.waiting.get? r.id))
    (hdeletes : ∀ id, w'.changes.deletes.get? id = none) : Visited host (seen ++ [r]) w' where
  known := hknown
  pending t ht := by
    rcases List.mem_append.1 ht with ht | ht
    · obtain ⟨hu, hw⟩ := hother t.id (hfresh t ht)
      rw [hu, hw]
      exact (h.pending t ht).append r
    · exact List.mem_singleton.1 ht ▸ hown
  untouched id hid := by
    obtain ⟨hu, hw⟩ := hother id fun e => hid r (by simp) e.symm
    rw [hu, hw]
    exact h.untouched id fun t ht => hid t (by simp [ht])
  deletes := hdeletes

theorem update {u : Record} {state : State} {events : List Event} (h : Visited host seen w)
    (hfresh : ∀ t ∈ seen, t.id ≠ r.id) (hu : u.id = r.id) (hknown : Known (seen ++ [r]) state)
    (hwaiting : state.waiting = w.state.waiting)
    (hown : Pending host (seen ++ [r]) r (some u) none) :
    Visited host (seen ++ [r]) ⟨state, w.changes.update u, events⟩ := by
  apply h.append hfresh hknown
  · intro id hne
    rw [Changes.updates_get?_update, if_neg fun e => hne (e.symm.trans hu), hwaiting]
    exact ⟨rfl, rfl⟩
  · rw [Changes.updates_get?_update, if_pos hu, hwaiting, (h.untouched r.id hfresh).2]
    exact hown
  · intro id
    rw [Changes.deletes_get?_update, h.deletes]
    split <;> rfl

theorem leave {state : State} (h : Visited host seen w) (hfresh : ∀ t ∈ seen, t.id ≠ r.id)
    (hknown : Known (seen ++ [r]) state) (hwaiting : state.waiting = w.state.waiting)
    (hroot : r.isRoot = false) (hu : unsettled r = false) :
    Visited host (seen ++ [r]) { w with state } := by
  apply h.append hfresh hknown
  · intro id _
    rw [hwaiting]
    exact ⟨rfl, rfl⟩
  · rw [hwaiting]
    simpa [Pending, hroot, hu] using h.untouched r.id hfresh
  · exact h.deletes

theorem wait {name : String} (h : Visited host seen w) (hfresh : ∀ t ∈ seen, t.id ≠ r.id)
    (hroot : r.isRoot = false) (hb : ∀ name, bears name r = false) (hu : unsettled r)
    (hn : r.name? = some name) (hne : name ≠ "") :
    Visited host (seen ++ [r])
      { w with state := { w.state with
          waiting := w.state.waiting.insert r.id ⟨r, host.deadLetterName name⟩ } } := by
  have hknown := h.known.skip hroot hb
  apply h.append hfresh
  · exact ⟨hknown.missing, hknown.root, hknown.rootless, hknown.named, hknown.unnamed⟩
  · intro id hid
    rw [OrderedMap.get?_insert, if_neg hid.symm]
    exact ⟨rfl, rfl⟩
  · rw [OrderedMap.get?_insert, if_pos rfl, (h.untouched r.id hfresh).1, pending_unsettled hroot hu]
    exact ⟨name, hn, hne, .inr ⟨rfl, rfl⟩⟩
  · exact h.deletes

end Visited

theorem visited_visitQueue {seen : List Record} {w : Work State} {r : Record} (hr : r ∈ s.records)
    (hq : r.isCategory Category.queue) (hfresh : ∀ t ∈ seen, t.id ≠ r.id)
    (h : Visited host seen w) :
    Ends (visitQueue host r) w
      (fun _ w' => Visited host (seen ++ [r]) w' ∧ (unsettled r → ¬nameless r))
      fun e _ => Fails s e := by
  have hroot := Record.isRoot_eq_false hq (by decide)
  have hb := bears_of_not_exchange (Record.isCategory_eq_false hq Category.exchange (by decide))
  have hskip := h.known.skip hroot hb
  unfold visitQueue
  split
  · rename_i hwants
    have hu : unsettled r := by simpa [unsettled, hq] using hwants
    cases hn : r.name? with
    | none => exact .nameless hr hu (.inl hn)
    | some name =>
      by_cases hne : name = ""
      · subst hne
        exact .nameless hr hu (.inr hn)
      have hnamed : unsettled r → ¬nameless r := by simp [nameless, hn, hne]
      cases hx : w.state.exchanges.get? (host.deadLetterName name) with
      | some id =>
        simp only [hne, if_false, ends_bind, Pass.ends_getState, hx, Pass.ends_update]
        obtain ⟨x, hmem, hbears, rfl⟩ := h.known.named _ _ hx
        refine ⟨h.update hfresh rfl hskip rfl ?_, hnamed⟩
        rw [pending_unsettled hroot hu]
        exact ⟨name, hn, hne, .inl ⟨x, by simp [hmem], hbears, rfl, rfl⟩⟩
      | none =>
        simp only [hne, if_false, ends_bind, Pass.ends_getState, hx, Pass.ends_modifyState]
        exact ⟨h.wait hfresh hroot hb hu hn hne, hnamed⟩
  · rename_i hwants
    have hu : unsettled r = false := by simpa [unsettled, hq] using hwants
    exact ⟨h.leave hfresh hskip rfl hroot hu, by simp [hu]⟩

theorem visited_visit {seen : List Record} {w : Work State} {r : Record} (hr : r ∈ s.records)
    (hfresh : ∀ t ∈ seen, t.id ≠ r.id) (h : Visited host seen w) :
    Ends (visit host r) w (fun _ w' => Visited host (seen ++ [r]) w' ∧ (unsettled r → ¬nameless r))
      fun e _ => Fails s e := by
  unfold visit
  split
  · rename_i hroot
    have hq := Record.isCategory_eq_false hroot Category.queue (by decide)
    have hu : unsettled r = false := by simp [unsettled, hq]
    refine ⟨?_, by simp [hu]⟩
    exact h.update hfresh rfl (h.known.seeRoot hroot) rfl (by simp [Pending, hroot])
  · rename_i hroot
    rw [Bool.not_eq_true] at hroot
    split
    · rename_i hx
      have hq := Record.isCategory_eq_false hx Category.queue (by decide)
      have hu : unsettled r = false := by simp [unsettled, hq]
      refine ⟨h.leave hfresh (h.known.seeExchange hx) ?_ hroot hu, by simp [hu]⟩
      unfold seeExchange
      split <;> rfl
    · rename_i hx
      split
      · rename_i hq
        exact visited_visitQueue hr hq hfresh h
      · rename_i hq
        have hskip := h.known.skip hroot (bears_of_not_exchange (Bool.not_eq_true _ ▸ hx))
        have hu : unsettled r = false := by simp [unsettled, hq]
        exact ⟨h.leave hfresh hskip rfl hroot hu, by simp [hu]⟩

def withCreated (host : Host) (es : List DefaultExchange) (known : OrderedMap String RecordId) :
    OrderedMap String RecordId :=
  es.foldl (fun known e => known.insert e.name (host.defaultId e)) known

theorem ends_createAll {es : List DefaultExchange} {w : Work State} {root : RecordId}
    {done : Unit → Work State → Prop} {failed : Failure → Work State → Prop}
    (hroot : w.state.root = some root)
    (h : ∀ events, done () ⟨⟨some root, w.state.missing, withCreated host es w.state.exchanges,
        w.state.waiting⟩,
      (es.map fun e => newRecord host e root).foldl Changes.update w.changes, events⟩) :
    Ends (Pass.each (create host) es) w done failed := by
  induction es generalizing w with
  | nil =>
    have h := h w.events
    rw [← hroot] at h
    exact h
  | cons e rest ih =>
    simp only [Pass.each, create, ends_bind, Pass.ends_getState, hroot, Pass.ends_report,
      Pass.ends_modifyState, Pass.ends_update]
    exact ih rfl h

theorem ends_settleAll {known : OrderedMap String RecordId} {ws : List Waiting} {w : Work State}
    {done : Unit → Work State → Prop} {failed : Failure → Work State → Prop}
    (h : ∀ events, done () ⟨w.state, ws.foldl (fun c q =>
      ((known.get? q.exchange).map (withAlternate q.queue)).elim c c.update) w.changes, events⟩) :
    Ends (Pass.each (settleOne known) ws) w done failed := by
  induction ws generalizing w with
  | nil => exact h w.events
  | cons q rest ih =>
    simp only [Pass.each, settleOne, ends_bind]
    cases hk : known.get? q.exchange with
    | some id =>
      rw [Pass.ends_update]
      apply ih
      intro events
      have hd := h events
      rwa [List.foldl_cons, hk] at hd
    | none =>
      rw [Pass.ends_report]
      apply ih
      intro events
      have hd := h events
      rwa [List.foldl_cons, hk] at hd

theorem nodup_missing (rs : List Record) : ((missingIn rs).map DefaultExchange.name).Nodup := by
  have hall : (DefaultExchange.all.map DefaultExchange.name).Nodup := by decide
  exact hall.sublist (List.filter_sublist.map _)

theorem get?_withCreated {known : OrderedMap String RecordId}
    (hnamed : ∀ name id, known.get? name = some id → ∃ x ∈ s.records, bears name x ∧ x.id = id)
    (hunnamed : ∀ name, known.get? name = none → ∀ x ∈ s.records, bears name x = false)
    (name : String) :
    (∀ id, (withCreated host (missingIn s.records) known).get? name = some id →
      Named host s name id) ∧
    ((withCreated host (missingIn s.records) known).get? name = none →
      ∀ id, ¬Named host s name id) := by
  let entries := (missingIn s.records).map fun e => (e.name, host.defaultId e)
  have hkeys : (entries.map Prod.fst).Nodup := by
    have hk : entries.map Prod.fst = (missingIn s.records).map DefaultExchange.name := by
      simp [entries]
    rw [hk]
    exact nodup_missing s.records
  have hget : (withCreated host (missingIn s.records) known).get? name =
      ((Keyed.find? Prod.fst name entries).map Prod.snd).or (known.get? name) := by
    rw [← OrderedMap.get?_foldl_insert known hkeys name, List.foldl_map]
    rfl
  rw [hget]
  cases hf : Keyed.find? Prod.fst name entries with
  | some entry =>
    obtain ⟨hmem, hname⟩ := (Keyed.find?_eq_some_iff hkeys).1 hf
    obtain ⟨e, he, rfl⟩ := List.mem_map.1 hmem
    refine ⟨?_, fun h => by cases h⟩
    rintro id ⟨⟩
    exact .inr ⟨e, he, hname, rfl⟩
  | none =>
    have hno : ∀ e ∈ missingIn s.records, e.name ≠ name := by
      intro e he hname
      have hsome := (Keyed.find?_eq_some_iff hkeys).2
        ⟨List.mem_map.2 ⟨e, he, rfl⟩, hname⟩
      rw [hf] at hsome
      cases hsome
    refine ⟨fun id hid => .inl (hnamed name id hid), ?_⟩
    rintro hnone id (⟨x, hx, hb, _⟩ | ⟨e, he, hname, _⟩)
    · rw [hunnamed name hnone x hx] at hb
      cases hb
    · exact hno e he hname

namespace Visited

variable {w : Work State}

theorem waiting_queue (h : Visited host s.records w) {id : RecordId} {q : Waiting}
    (hq : w.state.waiting.get? id = some q) :
    q.queue ∈ s.records ∧ q.queue.id = id ∧ q.queue.isRoot = false ∧ unsettled q.queue := by
  by_cases hid : ∃ r ∈ s.records, r.id = id
  · obtain ⟨r, hr, rfl⟩ := hid
    have hp := h.pending r hr
    unfold Pending at hp
    split at hp
    · rw [hp.2] at hq
      cases hq
    · rename_i hroot
      split at hp
      · rename_i hu
        obtain ⟨name, _, _, ⟨x, _, _, _, hw⟩ | ⟨_, hw⟩⟩ := hp
        · rw [hw] at hq
          cases hq
        · rw [hw] at hq
          cases hq
          exact ⟨hr, rfl, Bool.not_eq_true _ ▸ hroot, hu⟩
      · rw [hp.2] at hq
        cases hq
  · rw [(h.untouched id fun r hr e => hid ⟨r, hr, e⟩).2] at hq
    cases hq

theorem nodup_waiting (h : Visited host s.records w) :
    (w.state.waiting.values.map fun q => q.queue.id).Nodup := by
  have hkeys : w.state.waiting.values.map (fun q => q.queue.id) =
      w.state.waiting.entries.map Prod.fst := by
    rw [OrderedMap.values, List.map_map]
    apply List.map_congr_left
    rintro ⟨k, q⟩ hmem
    exact (h.waiting_queue (OrderedMap.get?_eq_some_iff.2 hmem)).2.1
  rw [hkeys]
  exact w.state.waiting.distinct

theorem find?_waiting (h : Visited host s.records w) (id : RecordId) :
    Keyed.find? (fun q : Waiting => q.queue.id) id w.state.waiting.values =
      w.state.waiting.get? id := by
  ext q
  rw [Keyed.find?_eq_some_iff h.nodup_waiting]
  constructor
  · rintro ⟨hmem, rfl⟩
    obtain ⟨⟨k, v⟩, hentry, rfl⟩ := List.mem_map.1 hmem
    have hget := OrderedMap.get?_eq_some_iff.2 hentry
    rwa [(h.waiting_queue hget).2.1]
  · intro hget
    exact ⟨List.mem_map_of_mem (OrderedMap.get?_eq_some_iff.1 hget), (h.waiting_queue hget).2.1⟩

end Visited

def settled (known : OrderedMap String RecordId) (w : Work State) (id : RecordId) : Option Record :=
  ((w.state.waiting.get? id).bind fun q =>
    (known.get? q.exchange).map (withAlternate q.queue)).or (w.changes.updates.get? id)

def settledVerdict (known : OrderedMap String RecordId) (w : Work State) (r : Record) : Verdict :=
  match settled known w r.id with
  | some u => .revise u
  | none => .keep

theorem revision?_settledVerdict (known : OrderedMap String RecordId) (w : Work State)
    (r : Record) : (settledVerdict known w r).revision? = settled known w r.id := by
  unfold settledVerdict
  cases settled known w r.id <;> rfl

theorem removal?_settledVerdict (known : OrderedMap String RecordId) (w : Work State)
    (r : Record) : (settledVerdict known w r).removal? = none := by
  unfold settledVerdict
  cases settled known w r.id <;> rfl

namespace Visited

variable {w : Work State}

theorem about_settled (h : Visited host s.records w) (known : OrderedMap String RecordId)
    (r : Record) : (settledVerdict known w r).About r.id := by
  unfold settledVerdict
  cases hu : settled known w r.id with
  | none => trivial
  | some u =>
    rcases Option.or_eq_some_iff.1 hu with hw | ⟨_, hw⟩
    · obtain ⟨q, hq, hx⟩ := Option.bind_eq_some_iff.1 hw
      obtain ⟨id, _, rfl⟩ := Option.map_eq_some_iff.1 hx
      exact (h.waiting_queue hq).2.1
    · exact RecordSet.id_of_get? hw

theorem settled_eq (h : Visited host s.records w) (known : OrderedMap String RecordId)
    (id : RecordId) :
    settled known w id = (s.get? id).bind fun r => (settledVerdict known w r).revision? := by
  cases hs : s.get? id with
  | some r =>
    rw [Option.bind_some, revision?_settledVerdict, RecordSet.id_of_get? hs]
  | none =>
    have hid := RecordSet.get?_eq_none_iff.1 hs
    obtain ⟨hu, hw⟩ := h.untouched id fun r hr e => hid (RecordSet.mem_ids.2 ⟨r, hr, e⟩)
    simp [settled, hu, hw]

theorem settled_created (h : Visited host s.records w)
    (hd : ∀ r ∈ s.records, host.isDefaultId r.id → r.isCategory Category.exchange)
    (known : OrderedMap String RecordId) {id : RecordId} (hid : host.isDefaultId id) :
    settled known w id = none := by
  rw [h.settled_eq known]
  cases hs : s.get? id with
  | none => rfl
  | some r =>
    obtain ⟨hr, rfl⟩ := RecordSet.get?_eq_some_iff.1 hs
    have hx := hd r hr hid
    have hroot := Record.isRoot_eq_false hx (by decide)
    have hq := Record.isCategory_eq_false hx Category.queue (by decide)
    have hp := h.pending r hr
    simp only [Pending, hroot, unsettled, hq, Bool.false_and, Bool.false_eq_true, if_false] at hp
    rw [Option.bind_some, revision?_settledVerdict, settled, hp.1, hp.2]
    rfl

theorem answers (h : Visited host s.records w) {known : OrderedMap String RecordId}
    (hk : ∀ name, (∀ id, known.get? name = some id → Named host s name id) ∧
      (known.get? name = none → ∀ id, ¬Named host s name id))
    {r : Record} (hr : r ∈ s.records) : Answers host s r (settledVerdict known w r) := by
  have hp := h.pending r hr
  unfold Pending at hp
  unfold Answers settledVerdict settled
  split
  · rename_i hroot
    rw [if_pos hroot] at hp
    rw [hp.1, hp.2]
    rfl
  · rename_i hroot
    rw [if_neg hroot] at hp
    split
    · rename_i hu
      rw [if_pos hu] at hp
      obtain ⟨name, hn, hne, ⟨x, hx, hb, hupdated, hw⟩ | ⟨hupdated, hw⟩⟩ := hp
      · rw [hupdated, hw]
        exact ⟨name, hn, hne, .inl ⟨x.id, .inl ⟨x, hx, hb, rfl⟩, rfl⟩⟩
      · rw [hupdated, hw]
        refine ⟨name, hn, hne, ?_⟩
        obtain ⟨hsome, hnone⟩ := hk (host.deadLetterName name)
        cases hid : known.get? (host.deadLetterName name) with
        | some id =>
          simp only [Option.bind_some, hid]
          exact .inl ⟨id, hsome id hid, rfl⟩
        | none =>
          simp only [Option.bind_some, hid]
          exact .inr ⟨hnone hid, rfl⟩
    · rename_i hu
      rw [if_neg hu] at hp
      rw [hp.1, hp.2]
      rfl

end Visited

theorem mem_createdIn {root : RecordId} {u : Record} (h : u ∈ (createdIn host s root).records) :
    ∃ e ∈ missingIn s.records, u = newRecord host e root := by
  have hall : ∀ (rs : List Record) (t : RecordSet), u ∈ (t.insertAll rs).records →
      u ∈ rs ∨ u ∈ t.records := by
    intro rs
    induction rs with
    | nil => exact fun t ht => .inr ht
    | cons r rest ih =>
      intro t ht
      rcases ih (t.insert r) ht with hu | hu
      · exact .inl (by simp [hu])
      · rcases RecordSet.mem_insert.1 hu with rfl | ⟨hu, _⟩
        · exact .inl (by simp)
        · exact .inr hu
  rcases hall _ _ h with hu | hu
  · obtain ⟨e, he, rfl⟩ := List.mem_map.1 hu
    exact ⟨e, he, rfl⟩
  · cases hu

theorem isDefaultId_createdIn {root id : RecordId} (h : id ∈ (createdIn host s root).ids) :
    host.isDefaultId id := by
  obtain ⟨u, hu, rfl⟩ := RecordSet.mem_ids.1 h
  obtain ⟨e, _, rfl⟩ := mem_createdIn hu
  exact host.isDefaultId_defaultId e

theorem supplies_settled {w : Work State} {root : RecordId} (h : Visited host s.records w)
    (hd : ∀ r ∈ s.records, host.isDefaultId r.id → r.isCategory Category.exchange)
    (hroot : missingIn s.records ≠ [] → ∃ r ∈ s.records, r.isRoot ∧ r.id = root) :
    Supplies host s (w.state.waiting.values.foldl (fun c q =>
      (((withCreated host (missingIn s.records) w.state.exchanges).get? q.exchange).map
        (withAlternate q.queue)).elim c c.update)
      (((missingIn s.records).map fun e => newRecord host e root).foldl Changes.update
        w.changes)) := by
  let known := withCreated host (missingIn s.records) w.state.exchanges
  have hk : ∀ name, (∀ id, known.get? name = some id → Named host s name id) ∧
      (known.get? name = none → ∀ id, ¬Named host s name id) :=
    get?_withCreated h.known.named h.known.unnamed
  have hcreated : ∀ id, (((missingIn s.records).map fun e => newRecord host e root).foldl
      Changes.update w.changes).updates.get? id =
      ((createdIn host s root).get? id).or (w.changes.updates.get? id) := by
    intro id
    rw [Changes.foldl_update, RecordSet.get?_insertAll_ofList]
    rfl
  have hdeletes : ∀ id, (((missingIn s.records).map fun e => newRecord host e root).foldl
      Changes.update w.changes).deletes.get? id = none := by
    intro id
    rw [Changes.foldl_update, RecordSet.get?_eraseAll, h.deletes]
    split <;> rfl
  have hfold := fun id => Changes.get?_foldl_update (f := fun q =>
      (known.get? q.exchange).map (withAlternate q.queue)) h.nodup_waiting
    (by
      intro q _ u hu
      obtain ⟨x, _, rfl⟩ := Option.map_eq_some_iff.1 hu
      rfl)
    (((missingIn s.records).map fun e => newRecord host e root).foldl Changes.update w.changes) id
  refine ⟨settledVerdict known w, root, ?_, fun r hr => h.answers hk hr, hroot⟩
  refine ⟨fun r _ => h.about_settled known r, fun id => ?_, fun id => ?_⟩
  · rw [(hfold id).1, h.find?_waiting, hcreated, ← h.settled_eq known]
    cases hc : (createdIn host s root).get? id with
    | none => rfl
    | some u =>
      have hid : id ∈ (createdIn host s root).ids :=
        RecordSet.contains_iff.1 (by rw [RecordSet.contains, hc]; rfl)
      have hnone := h.settled_created hd known (isDefaultId_createdIn hid)
      rw [settled, Option.or_eq_none_iff] at hnone
      rw [hnone.1]
      rfl
  · rw [(hfold id).2, hdeletes, ite_self]
    cases s.get? id with
    | none => rfl
    | some r => exact (removal?_settledVerdict known w r).symm

theorem ends_complete_visited {w : Work State} (h : Visited host s.records w)
    (hnamed : ∀ q ∈ s.records, unsettled q → ¬nameless q)
    (hd : ∀ r ∈ s.records, host.isDefaultId r.id → r.isCategory Category.exchange) :
    Ends (complete host) w (fun _ w' => Supplies host s w'.changes) fun e _ => Fails s e := by
  rw [ends_complete, h.known.missing]
  cases hroot : w.state.root with
  | some root =>
    apply ends_createAll
    · exact hroot
    intro events
    apply ends_settleAll
    intro events
    obtain ⟨r, hr⟩ := h.known.root root hroot
    exact @supplies_settled host s w root h hd fun _ => ⟨r, hr⟩
  | none =>
    cases hm : missingIn s.records with
    | nil =>
      apply ends_settleAll
      intro events
      have hs := @supplies_settled host s w ⟨0⟩ h hd fun hne => absurd hm hne
      rw [hm] at hs
      exact hs
    | cons e rest =>
      simp only [Pass.each, create, ends_bind, Pass.ends_getState, hroot, ends_throw]
      exact .rootless hnamed (h.known.rootless hroot) (by simp [hm])

theorem supplies (hd : ∀ r ∈ s.records, host.isDefaultId r.id → r.isCategory Category.exchange) :
    (passes host).Yields s
      (fun c => Supplies host s c ∧ ∀ q ∈ s.records, unsettled q → ¬nameless q) (Fails s) := by
  rw [yields_iff]
  have hvisit : Ends (Pass.each (visit host) s.records) (Work.initial start)
      (fun _ w => Visited host s.records w ∧ ∀ q ∈ s.records, unsettled q → ¬nameless q)
      fun e _ => Fails s e := by
    apply Pass.ends_each fun seen w =>
      Visited host seen w ∧ ∀ q ∈ seen, unsettled q → ¬nameless q
    · exact ⟨.initial, by simp⟩
    · rintro before r after hs w ⟨hw, hnamed⟩
      apply (visited_visit (by simp [hs]) (RecordSet.id_ne_of_split hs) hw).imp
      rintro _ w' ⟨hw', hr⟩
      refine ⟨hw', ?_⟩
      intro q hq
      rcases List.mem_append.1 hq with hq | hq
      · exact hnamed q hq
      · exact List.mem_singleton.1 hq ▸ hr
  apply hvisit.imp
  rintro _ w ⟨hw, hnamed⟩
  exact (ends_complete_visited hw hnamed hd).imp fun _ _ h => ⟨h, hnamed⟩

end BrokerConfig.Upgrade.MissingExchanges
