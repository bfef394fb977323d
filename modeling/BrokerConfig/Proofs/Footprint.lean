import BrokerConfig.Proofs.RecordSets
import BrokerConfig.Proofs.Revision
import BrokerConfig.Proofs.StepLoops

namespace BrokerConfig.Upgrade

namespace MissingExchanges

def bears (name : String) (r : Record) : Bool :=
  r.isCategory Category.exchange && r.name? = some name

theorem bears_of_not_exchange {r : Record} (h : r.isCategory Category.exchange = false)
    (name : String) : bears name r = false := by
  simp [bears, h]

theorem shortCategory_newRecord (host : Host) (e : DefaultExchange) (root : RecordId) :
    (newRecord host e root).shortCategory = Category.exchange := by
  show Category.short Category.exchange = Category.exchange
  decide

end MissingExchanges

open MissingExchanges (bears newRecord)

inductive Successor (host : Host) (s : RecordSet) (u : Record) : Prop
  | revised {r : Record} (mem : r ∈ s.records) (revises : Revises r u)
  | created {e : DefaultExchange} {root : RecordId} (eq : u = newRecord host e root)
    (missing : ∀ x ∈ s.records, bears e.name x = false)

theorem Host.isDefaultId_defaultId (host : Host) (e : DefaultExchange) :
    host.isDefaultId (host.defaultId e) := by
  simp only [isDefaultId, List.any_eq_true, decide_eq_true_eq]
  exact ⟨e, DefaultExchange.mem_all e, rfl⟩

structure Footprint (host : Host) (version : String) (s : RecordSet) (seen : List Record)
    (c : Changes) : Prop where
  within : ∀ r ∈ seen, r ∈ s.records
  apart : ∀ u ∈ c.updates.records, u.id ∉ c.deletes.ids
  updated : ∀ u ∈ c.updates.records, Successor host s u
  versioned : ∀ u ∈ c.updates.records, u.isRoot →
    u.attribute? Attribute.modelVersion = some (.text version)
  deleted : ∀ d ∈ c.deletes.records, ∃ r ∈ s.records, Revises r d ∧ r.isCategory Category.binding
  rooted : ∀ r ∈ seen, r.isRoot → r.id ∈ c.updates.ids

namespace Footprint

variable {host : Host} {version : String} {s : RecordSet} {seen : List Record} {c : Changes}

theorem empty : Footprint host version s [] Changes.empty where
  within := by simp
  apart := by simp [Changes.empty, RecordSet.empty]
  updated := by simp [Changes.empty, RecordSet.empty]
  versioned := by simp [Changes.empty, RecordSet.empty]
  deleted := by simp [Changes.empty, RecordSet.empty]
  rooted := by simp

theorem mem_update {c : Changes} {r u : Record} :
    u ∈ (c.update r).updates.records ↔ u = r ∨ u ∈ c.updates.records ∧ u.id ≠ r.id :=
  RecordSet.mem_insert

theorem update {u : Record} (h : Footprint host version s seen c) (hu : Successor host s u)
    (hv : u.isRoot → u.attribute? Attribute.modelVersion = some (.text version)) :
    Footprint host version s seen (c.update u) where
  within := h.within
  apart t ht := by
    have hd : (c.update u).deletes.ids = c.deletes.ids.filter (· ≠ u.id) :=
      RecordSet.ids_erase _ _
    rw [hd]
    rcases mem_update.1 ht with rfl | ⟨ht, _⟩
    · simp
    · exact fun hm => h.apart t ht (List.mem_filter.1 hm).1
  updated t ht := by
    rcases mem_update.1 ht with rfl | ⟨ht, _⟩
    · exact hu
    · exact h.updated t ht
  versioned t ht := by
    rcases mem_update.1 ht with rfl | ⟨ht, _⟩
    · exact hv
    · exact h.versioned t ht
  deleted d hd := h.deleted d (RecordSet.mem_erase.1 hd).1
  rooted r hr hroot := by
    obtain ⟨t, ht, hid⟩ := RecordSet.mem_ids.1 (h.rooted r hr hroot)
    by_cases he : t.id = u.id
    · exact RecordSet.mem_ids.2 ⟨u, mem_update.2 (.inl rfl), he ▸ hid⟩
    · exact RecordSet.mem_ids.2 ⟨t, mem_update.2 (.inr ⟨ht, he⟩), hid⟩

theorem delete {r d : Record} (h : Footprint host version s seen c) (hr : r ∈ s.records)
    (hd : Revises r d) (hb : r.isCategory Category.binding) :
    Footprint host version s seen (c.delete d) where
  within := h.within
  apart t ht := by
    obtain ⟨ht, hne⟩ := RecordSet.mem_erase.1 ht
    intro hm
    obtain ⟨e, he, hid⟩ := RecordSet.mem_ids.1 hm
    rcases RecordSet.mem_insert.1 he with rfl | ⟨he, _⟩
    · exact hne hid.symm
    · exact h.apart t ht (RecordSet.mem_ids.2 ⟨e, he, hid⟩)
  updated t ht := h.updated t (RecordSet.mem_erase.1 ht).1
  versioned t ht := h.versioned t (RecordSet.mem_erase.1 ht).1
  deleted e he := by
    rcases RecordSet.mem_insert.1 he with rfl | ⟨he, _⟩
    · exact ⟨r, hr, hd, hb⟩
    · exact h.deleted e he
  rooted t ht hroot := by
    obtain ⟨u, hu, hid⟩ := RecordSet.mem_ids.1 (h.rooted t ht hroot)
    -- a virtual host is no binding, so the ids differ
    have hne : u.id ≠ d.id := by
      intro e
      have htr : t = r := RecordSet.eq_of_mem (h.within t ht) hr (hid.symm.trans (e.trans hd.id))
      rw [htr, Record.isRoot_iff, Record.isCategory_iff.1 hb] at hroot
      exact absurd hroot (by decide)
    exact RecordSet.mem_ids.2 ⟨u, RecordSet.mem_erase.2 ⟨hu, hne⟩, hid⟩

theorem see {r : Record} (h : Footprint host version s seen c) (hr : r ∈ s.records)
    (hroot : r.isRoot → r.id ∈ c.updates.ids) : Footprint host version s (seen ++ [r]) c where
  within t ht := by
    rcases List.mem_append.1 ht with ht | ht
    · exact h.within t ht
    · exact List.mem_singleton.1 ht ▸ hr
  apart := h.apart
  updated := h.updated
  versioned := h.versioned
  deleted := h.deleted
  rooted t ht ht' := by
    rcases List.mem_append.1 ht with ht | ht
    · exact h.rooted t ht ht'
    · rw [List.mem_singleton.1 ht] at ht' ⊢
      exact hroot ht'

theorem skip {r : Record} (h : Footprint host version s seen c) (hr : r ∈ s.records)
    (hroot : r.isRoot = false) : Footprint host version s (seen ++ [r]) c :=
  h.see hr (by simp [hroot])

theorem revise {r u : Record} (h : Footprint host version s seen c) (hr : r ∈ s.records)
    (hu : Revises r u)
    (hv : r.isRoot → u.attribute? Attribute.modelVersion = some (.text version)) :
    Footprint host version s (seen ++ [r]) (c.update u) := by
  apply (h.update (.revised hr hu) (hu.isRoot ▸ hv)).see hr
  intro _
  exact RecordSet.mem_ids.2 ⟨u, mem_update.2 (.inl rfl), hu.id⟩

theorem reviseOther {r u : Record} (h : Footprint host version s seen c) (hr : r ∈ s.records)
    (hu : Revises r u) (hroot : r.isRoot = false) :
    Footprint host version s (seen ++ [r]) (c.update u) :=
  h.revise hr hu (by simp [hroot])

theorem moveTo {r : Record} (h : Footprint host version s seen c) (hr : r ∈ s.records)
    (hroot : r.isRoot) : Footprint host version s (seen ++ [r]) (c.update (r.withVersion version)) :=
  h.revise hr (Revises.withVersion version (Record.isRoot_iff.1 hroot)) fun _ =>
    (Record.attribute?_withAttribute ..).trans (if_pos rfl)

end Footprint

variable {host : Host} {s : RecordSet}

theorem footprint_recordwise {visit : Record → Pass Unit Unit} {version : String}
    (h : ∀ r ∈ s.records, ∀ seen w, Footprint host version s seen w.changes →
      Ends (visit r) w (fun _ w' => Footprint host version s (seen ++ [r]) w'.changes)
        fun _ _ => True) :
    (TwoPass.recordwise visit).Yields s (Footprint host version s s.records) fun _ => True := by
  rw [TwoPass.yields_recordwise]
  apply Pass.ends_each (fun seen w => Footprint host version s seen w.changes) .empty
  intro before r after hs w hw
  exact h r (by simp [hs]) before w hw

theorem Selectors.footprint :
    (passes host).Yields s (Footprint host target s s.records) fun _ => True := by
  rw [yields_iff]
  apply Pass.ends_each (fun seen w => Footprint host target s seen w.changes) .empty
  intro before r after hs w hw
  have hr : r ∈ s.records := by simp [hs]
  unfold settle
  split
  · rename_i hroot
    exact hw.moveTo hr hroot
  · rename_i hroot
    rw [Bool.not_eq_true] at hroot
    split
    · rename_i hb
      cases hu : prune? (host.defaultId .topic) s r with
      | some u =>
        simpa using hw.reviseOther hr (Revises.prune? (Record.isCategory_iff.1 hb) hu) hroot
      | none => exact hw.skip hr hroot
    · exact hw.skip hr hroot

theorem ShortTypes.footprint :
    (passes host).Yields s (Footprint host target s s.records) fun _ => True := by
  rw [yields_iff]
  have hvisit : Ends (Pass.each visit s.records) (Work.initial ())
      (fun _ w => Footprint host target s s.records w.changes) fun _ _ => True := by
    apply Pass.ends_each (fun seen w => Footprint host target s seen w.changes) .empty
    intro before r after hs w hw
    have hr : r ∈ s.records := by simp [hs]
    have hu := Revises.withShortCategory r
    unfold visit
    dsimp only
    split
    · rename_i hroot
      have hv : (r.withCategory r.shortCategory).shortCategory = Category.virtualHost :=
        hu.category.trans hroot
      exact hw.revise hr (hu.trans (Revises.withVersion target hv)) fun _ =>
        (Record.attribute?_withAttribute ..).trans (if_pos rfl)
    · rename_i hroot
      apply hw.reviseOther hr hu
      rw [← Bool.not_eq_true, Record.isRoot_iff]
      exact hroot
  apply hvisit.imp
  intro _ w hw
  apply Pass.ends_each (fun _ w' => Footprint host target s s.records w'.changes) hw
  intro before d after horphans w' hw'
  have hd : d ∈ orphans host w.changes.updates := by simp [horphans]
  simp only [orphans, List.mem_filter, Bool.and_eq_true, decide_eq_true_eq] at hd
  obtain ⟨hd, hb, _⟩ := hd
  have hshort : d.shortCategory = Category.binding := by
    rw [Record.shortCategory, hb]
    decide
  simp only [deleteOrphan, ends_bind, Pass.ends_report, Pass.ends_delete]
  cases hw.updated d hd with
  | revised hr hu => exact hw'.delete hr hu (Record.isCategory_iff.2 (hu.category ▸ hshort))
  | created hc _ =>
    rw [hc, MissingExchanges.shortCategory_newRecord] at hshort
    exact absurd hshort (by decide)

theorem QueueSettings.footprint :
    passes.Yields s (Footprint host target s s.records) fun _ => True := by
  apply footprint_recordwise
  intro r hr seen w hw
  unfold visit
  split
  · rename_i hroot
    exact hw.moveTo hr hroot
  · rename_i hroot
    rw [Bool.not_eq_true] at hroot
    split
    · rename_i hq
      exact hw.reviseOther hr (Revises.flatten (Record.isCategory_iff.1 hq)) hroot
    · exact hw.skip hr hroot

theorem QueuePolicy.footprint :
    passes.Yields s (Footprint host target s s.records) fun _ => True := by
  apply footprint_recordwise
  intro r hr seen w hw
  unfold visit
  split
  · rename_i hroot
    exact hw.moveTo hr hroot
  · rename_i hroot
    rw [Bool.not_eq_true] at hroot
    split
    · rename_i hq
      exact hw.reviseOther hr (Revises.revise (Record.isCategory_iff.1 hq)) hroot
    · exact hw.skip hr hroot

theorem RootVersion.footprint {target : String} :
    (passes target).Yields s (Footprint host target s s.records) fun _ => True := by
  apply footprint_recordwise
  intro r hr seen w hw
  unfold visit
  split
  · rename_i hroot
    exact hw.moveTo hr hroot
  · rename_i hroot
    exact hw.skip hr (Bool.not_eq_true _ ▸ hroot)

namespace MissingExchanges

structure Sound (s : RecordSet) (seen : List Record) (state : State) : Prop where
  waiting : ∀ w ∈ state.waiting.values, w.queue ∈ s.records ∧ w.queue.isCategory Category.queue
  missing : ∀ e ∈ state.missing, ∀ x ∈ seen, bears e.name x = false

theorem Sound.skip {seen : List Record} {state : State} {r : Record} (h : Sound s seen state)
    (hx : r.isCategory Category.exchange = false) : Sound s (seen ++ [r]) state where
  waiting := h.waiting
  missing e he x hmem := by
    rcases List.mem_append.1 hmem with hmem | hmem
    · exact h.missing e he x hmem
    · exact List.mem_singleton.1 hmem ▸ bears_of_not_exchange hx _

theorem Sound.seeExchange {seen : List Record} {state : State} {r : Record}
    (h : Sound s seen state) : Sound s (seen ++ [r]) (seeExchange r state) := by
  unfold MissingExchanges.seeExchange
  cases hn : r.name? with
  | none =>
    refine ⟨h.waiting, fun e he x hmem => ?_⟩
    rcases List.mem_append.1 hmem with hmem | hmem
    · exact h.missing e he x hmem
    · simp [List.mem_singleton.1 hmem, bears, hn]
  | some name =>
    refine ⟨h.waiting, fun e he x hmem => ?_⟩
    obtain ⟨he, hne⟩ := List.mem_filter.1 he
    rcases List.mem_append.1 hmem with hmem | hmem
    · exact h.missing e he x hmem
    · simp only [decide_eq_true_eq] at hne
      simp [List.mem_singleton.1 hmem, bears, hn, hne.symm]

theorem footprint_visit {r : Record} {seen : List Record} {w : Work State} (hr : r ∈ s.records)
    (hw : Footprint host target s seen w.changes) (hq : Sound s seen w.state) :
    Ends (visit host r) w
      (fun _ w' => Footprint host target s (seen ++ [r]) w'.changes ∧ Sound s (seen ++ [r]) w'.state)
      fun _ _ => True := by
  unfold visit
  split
  · rename_i hroot
    have hx := Record.isCategory_eq_false hroot Category.exchange (by decide)
    have hs := hq.skip hx
    exact ⟨hw.moveTo hr hroot, hs.waiting, hs.missing⟩
  · rename_i hroot
    rw [Bool.not_eq_true] at hroot
    split
    · exact ⟨hw.skip hr hroot, hq.seeExchange⟩
    · rename_i hx
      have hs := hq.skip (Bool.not_eq_true _ ▸ hx)
      split
      · rename_i hcat
        unfold visitQueue
        split
        · cases hn : r.name? with
          | none => trivial
          | some name =>
            by_cases he : name = ""
            · simp [he]
            · cases hx : w.state.exchanges.get? (host.deadLetterName name) with
              | some id =>
                simpa [he, hx] using
                  ⟨hw.reviseOther hr (Revises.withAlternate id (Record.isCategory_iff.1 hcat)) hroot,
                    hs⟩
              | none =>
                simp only [he, if_false, ends_bind, Pass.ends_getState, hx, Pass.ends_modifyState]
                refine ⟨hw.skip hr hroot, ?_, hs.missing⟩
                intro q hmem
                rcases OrderedMap.mem_values_insert hmem with rfl | hmem
                · exact ⟨hr, hcat⟩
                · exact hq.waiting q hmem
        · exact ⟨hw.skip hr hroot, hs⟩
      · exact ⟨hw.skip hr hroot, hs⟩

theorem footprint_complete {w : Work State} (hw : Footprint host target s s.records w.changes)
    (hq : Sound s s.records w.state) :
    Ends (complete host) w (fun _ w' => Footprint host target s s.records w'.changes)
      fun _ _ => True := by
  rw [ends_complete]
  have hcreate : Ends (Pass.each (create host) w.state.missing)
      { w with state := { w.state with missing := [] } }
      (fun _ w' => Footprint host target s s.records w'.changes ∧
        w'.state.waiting = w.state.waiting)
      fun _ _ => True := by
    apply Pass.ends_each fun _ (w' : Work State) =>
      Footprint host target s s.records w'.changes ∧ w'.state.waiting = w.state.waiting
    · exact ⟨hw, rfl⟩
    · rintro before e after hmissing w' ⟨hw', hwaiting⟩
      unfold create
      cases hroot : w'.state.root with
      | none => simp [hroot]
      | some root =>
        simp only [ends_bind, Pass.ends_getState, hroot, Pass.ends_report,
          Pass.ends_modifyState, Pass.ends_update]
        refine ⟨hw'.update (.created rfl (hq.missing e (by simp [hmissing]))) ?_, hwaiting⟩
        intro hroot
        rw [Record.isRoot_iff, shortCategory_newRecord] at hroot
        exact absurd hroot (by decide)
  apply hcreate.imp
  rintro _ w' ⟨hw', hwaiting⟩
  rw [hwaiting]
  apply Pass.ends_each (fun _ w'' => Footprint host target s s.records w''.changes)
  · exact hw'
  · intro before q after hvalues w'' hw''
    obtain ⟨hr, hcat⟩ := hq.waiting q (by simp [hvalues])
    unfold settleOne
    split
    · rename_i id _
      have hu := Revises.withAlternate id (Record.isCategory_iff.1 hcat)
      apply hw''.update (.revised hr hu)
      intro hroot
      rw [hu.isRoot, Record.isRoot_iff, Record.isCategory_iff.1 hcat] at hroot
      exact absurd hroot (by decide)
    · exact hw''

theorem footprint : (passes host).Yields s (Footprint host target s s.records) fun _ => True := by
  rw [yields_iff]
  have hvisit : Ends (Pass.each (visit host) s.records) (Work.initial start)
      (fun _ w => Footprint host target s s.records w.changes ∧ Sound s s.records w.state)
      fun _ _ => True := by
    apply Pass.ends_each
      (fun seen w => Footprint host target s seen w.changes ∧ Sound s seen w.state)
    · refine ⟨.empty, ?_, by simp⟩
      simp [Work.initial, start, OrderedMap.values, OrderedMap.empty]
    · rintro before r after hs w ⟨hw, hq⟩
      exact footprint_visit (by simp [hs]) hw hq
  apply hvisit.imp
  rintro _ w ⟨hw, hq⟩
  exact footprint_complete hw hq

end MissingExchanges

namespace BindingLists

def KnownIn (s : RecordSet) (state : State) : Prop :=
  ∀ x ∈ state.exchanges.records, x ∈ s.records ∧ x.isCategory Category.exchange

theorem footprint_visit {r : Record} {seen : List Record} {w : Work State} (hr : r ∈ s.records)
    (hw : Footprint host target s seen w.changes) (hx : KnownIn s w.state) :
    Ends (visit r) w
      (fun _ w' => Footprint host target s (seen ++ [r]) w'.changes ∧ KnownIn s w'.state)
      fun _ _ => True := by
  unfold visit
  split
  · rename_i hroot
    exact ⟨hw.moveTo hr hroot, hx⟩
  · rename_i hroot
    rw [Bool.not_eq_true] at hroot
    split
    · rename_i hb
      unfold visitBinding
      cases r.parent? Category.exchange with
      | none => trivial
      | some exchange =>
        cases r.parent? Category.queue with
        | none => trivial
        | some queue => exact ⟨(hw.delete hr (.refl r) hb).skip hr hroot, hx⟩
    · split
      · rename_i hcat
        refine ⟨hw.skip hr hroot, ?_⟩
        have hinsert : KnownIn s { w.state with exchanges := w.state.exchanges.insert r } := by
          intro x hmem
          rcases RecordSet.mem_insert.1 hmem with rfl | ⟨hmem, _⟩
          · exact ⟨hr, hcat⟩
          · exact hx x hmem
        unfold seeExchange
        dsimp only
        split
        · exact hinsert
        · exact hinsert
      · split
        · rename_i hcat
          have hsee : (seeQueue r w.state).exchanges = w.state.exchanges := by
            unfold seeQueue
            dsimp only
            split <;> rfl
          have hx' : KnownIn s (seeQueue r w.state) := by
            unfold KnownIn
            rw [hsee]
            exact hx
          simp only [visitQueue, ends_bind, Pass.ends_modifyState]
          split
          · exact ⟨hw.reviseOther hr (Revises.withoutBindings (Record.isCategory_iff.1 hcat)) hroot,
              hx'⟩
          · exact ⟨hw.skip hr hroot, hx'⟩
        · exact ⟨hw.skip hr hroot, hx⟩

theorem footprint_complete {w : Work State} (hw : Footprint host target s s.records w.changes)
    (hx : KnownIn s w.state) :
    Ends complete w (fun _ w' => Footprint host target s s.records w'.changes)
      fun _ _ => True := by
  rw [ends_complete]
  have hcapture : Ends
      (Pass.each (fun queue => captureEntries queue.1 queue.2) w.state.queueEntries.entries)
      { w with state := { w.state with queueEntries := OrderedMap.empty } }
      (fun _ w' => w'.changes = w.changes ∧ w'.state.exchanges = w.state.exchanges)
      fun _ _ => True := by
    apply Pass.ends_each fun _ (w' : Work State) =>
      w'.changes = w.changes ∧ w'.state.exchanges = w.state.exchanges
    · exact ⟨rfl, rfl⟩
    · rintro _ queue _ - w' hw'
      rw [captureEntries_eq]
      apply Pass.ends_each (fun _ (w' : Work State) =>
        w'.changes = w.changes ∧ w'.state.exchanges = w.state.exchanges) hw'
      rintro _ entry _ - w'' hw''
      simp only [captureEntry, ends_bind, Pass.ends_getState]
      split
      · trivial
      · exact hw''
  apply hcapture.imp
  rintro _ w' ⟨hchanges, hknown⟩
  apply Pass.ends_each (fun _ w'' => Footprint host target s s.records w''.changes) (hchanges ▸ hw)
  rintro _ entry _ - w'' hw''
  unfold settle
  split
  · exact hw''
  · rename_i x hget
    rw [hknown] at hget
    obtain ⟨hr, hcat⟩ := hx x (RecordSet.mem_of_get? hget)
    have hu := Revises.withDurable (entry.2.map (BindingLists.entry w'.state.queueNames))
      (Record.isCategory_iff.1 hcat)
    simp only [ends_bind, Pass.ends_report, Pass.ends_update]
    apply hw''.update (.revised hr hu)
    intro hroot
    rw [hu.isRoot, Record.isRoot_iff, Record.isCategory_iff.1 hcat] at hroot
    exact absurd hroot (by decide)

theorem footprint : passes.Yields s (Footprint host target s s.records) fun _ => True := by
  rw [yields_iff]
  have hvisit : Ends (Pass.each visit s.records) (Work.initial start)
      (fun _ w => Footprint host target s s.records w.changes ∧ KnownIn s w.state)
      fun _ _ => True := by
    apply Pass.ends_each (fun seen w => Footprint host target s seen w.changes ∧ KnownIn s w.state)
    · exact ⟨.empty, by simp [KnownIn, Work.initial, start, RecordSet.empty]⟩
    · rintro before r after hs w ⟨hw, hx⟩
      exact footprint_visit (by simp [hs]) hw hx
  apply hvisit.imp
  rintro _ w ⟨hw, hx⟩
  exact footprint_complete hw hx

end BindingLists

theorem Step.footprint (step : Step) :
    (step.passes host).Yields s (Footprint host step.target s s.records) fun _ => True := by
  cases step with
  | pruneSelectors => exact Selectors.footprint
  | shortenTypes => exact ShortTypes.footprint
  | promoteSettings => exact QueueSettings.footprint
  | setQueuePolicy => exact QueuePolicy.footprint
  | addMissingExchanges => exact MissingExchanges.footprint
  | listBindings => exact BindingLists.footprint
  | bump source target => exact RootVersion.footprint

end BrokerConfig.Upgrade
