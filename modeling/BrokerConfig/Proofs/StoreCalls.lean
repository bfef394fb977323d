import BrokerConfig.Proofs.Endings
import BrokerConfig.Proofs.RecordSets
import BrokerConfig.Store.Calls

namespace BrokerConfig.Store

variable {store : Store} {failed : StoreError → Store → Prop}

def openedWith (store : Store) (initial : List Record) : RecordSet :=
  if store.initialized then store.contents else RecordSet.ofList initial

theorem ends_openWith {initial : List Record} {store : Store} {done : Bool → Store → Prop} :
    Ends (openWith initial) store done failed ↔
      done (!store.initialized) ⟨true, true, store.openedWith initial⟩ := by
  obtain ⟨isOpen, initialized, contents⟩ := store
  cases initialized <;> rfl

theorem ends_requireOpen {done : Unit → Store → Prop} :
    Ends requireOpen store done failed ↔
      if store.isOpen then done () store else failed .notOpen store := by
  simp only [requireOpen, ends_bind, ends_get]
  cases store.isOpen <;> rfl

theorem ends_reload {done : List Record → Store → Prop} :
    Ends reload store done failed ↔
      if store.isOpen then done store.contents.records store else failed .notOpen store := by
  simp only [reload, ends_bind, ends_requireOpen, ends_get, ends_pure]

theorem ends_update {create : Bool} {records : List Record} {done : Unit → Store → Prop}
    (ho : store.isOpen) (known : create ∨ ∀ r ∈ records, r.id ∈ store.contents.ids) :
    Ends (update create records) store done failed ↔
      done () { store with contents := store.contents.insertAll records } := by
  have hf : (records.find? fun r => !create && !store.contents.contains r.id) = none := by
    rw [List.find?_eq_none]
    rcases known with hc | hk
    · simp [hc]
    · intro r hr
      simp [RecordSet.contains_iff.2 (hk r hr)]
  rw [update, ends_bind, ends_requireOpen, if_pos ho]
  simp only [ends_bind, ends_get, hf, ends_modify]

theorem ends_update_unknown {records : List Record} {r : Record} {done : Unit → Store → Prop}
    (ho : store.isOpen)
    (first : records.find? (fun r => r.id ∉ store.contents.ids) = some r) :
    Ends (update false records) store done failed ↔ failed (.unknownRecord r.id) store := by
  have hf : (records.find? fun r => !false && !store.contents.contains r.id) = some r := by
    simpa [RecordSet.contains_eq_decide] using first
  rw [update, ends_bind, ends_requireOpen, if_pos ho]
  simp only [ends_bind, ends_get, hf, ends_throw]

theorem removeEach_eq (records : List Record) (store : Store) :
    removeEach records store =
      .ok ((records.map Record.id).eraseDups.filter (· ∈ store.contents.ids))
        { store with contents := store.contents.eraseAll (records.map Record.id) } := by
  induction records generalizing store with
  | nil => rfl
  | cons r rest ih =>
    have hrest : (rest.map Record.id).eraseDups.filter (· ∈ (store.contents.erase r.id).ids) =
        ((rest.map Record.id).filter fun id => !id == r.id).eraseDups.filter
          (· ∈ store.contents.ids) := by
      rw [filter_eraseDups, List.filter_filter, RecordSet.ids_erase]
      congr 1
      funext id
      by_cases hid : id = r.id <;> simp [hid]
    show EStateM.bind (removeEach rest) _ { store with contents := store.contents.erase r.id } = _
    rw [EStateM.bind, ih, List.map_cons, List.eraseDups_cons, List.filter_cons, hrest]
    cases hr : store.contents.contains r.id with
    | true =>
      rw [if_pos (decide_eq_true (RecordSet.contains_iff.1 hr))]
      rfl
    | false =>
      have hnone : r.id ∉ store.contents.ids := fun hid => by
        rw [RecordSet.contains_iff.2 hid] at hr
        cases hr
      rw [if_neg (by simpa using hnone)]
      rfl

theorem ends_remove {records : List Record} {store : Store}
    {done : List RecordId → Store → Prop} (ho : store.isOpen) :
    Ends (remove records) store done failed ↔
      done ((records.map Record.id).eraseDups.filter (· ∈ store.contents.ids))
        { store with contents := store.contents.eraseAll (records.map Record.id) } := by
  rw [remove, ends_bind, ends_requireOpen, if_pos ho]
  exact ends_of_ok (removeEach_eq records store)

def Call.NeedsOpen : Call → Prop
  | .openWith _ | .close => False
  | .reload | .update _ _ | .remove _ | .create _ => True

inductive Turn (store : Store) : Served → Prop
  | opened (initial : List Record) :
    Turn store ⟨store, .openWith initial,
      .ok (.opened (!store.initialized) (store.openedWith initial).records),
      ⟨true, true, store.openedWith initial⟩⟩
  | closed : Turn store ⟨store, .close, .ok .done, { store with isOpen := false }⟩
  | refused (call : Call) (needs : call.NeedsOpen) (shut : store.isOpen = false) :
    Turn store ⟨store, call, .error .notOpen, store⟩
  | reloaded (isOpen : store.isOpen) :
    Turn store ⟨store, .reload, .ok (.listed store.contents.records), store⟩
  | updated (create : Bool) (records : List Record) (isOpen : store.isOpen)
    (known : create ∨ ∀ r ∈ records, r.id ∈ store.contents.ids) :
    Turn store ⟨store, .update create records, .ok .done,
      { store with contents := store.contents.insertAll records }⟩
  | unknown (records : List Record) (r : Record) (isOpen : store.isOpen)
    (first : records.find? (fun r => r.id ∉ store.contents.ids) = some r) :
    Turn store ⟨store, .update false records, .error (.unknownRecord r.id), store⟩
  | removed (records : List Record) (isOpen : store.isOpen) :
    Turn store ⟨store, .remove records,
      .ok (.removed ((records.map Record.id).eraseDups.filter (· ∈ store.contents.ids))),
      { store with contents := store.contents.eraseAll (records.map Record.id) }⟩
  | created (r : Record) (isOpen : store.isOpen) (fresh : r.id ∉ store.contents.ids) :
    Turn store ⟨store, .create r, .ok .done, { store with contents := store.contents.insert r }⟩
  | duplicate (r : Record) (isOpen : store.isOpen) (held : r.id ∈ store.contents.ids) :
    Turn store ⟨store, .create r, .error (.duplicateRecord r.id), store⟩

theorem turn_of_ends {call : Call}
    (h : Ends (answer call) store (fun a after => Turn store ⟨store, call, .ok a, after⟩)
      fun e after => Turn store ⟨store, call, .error e, after⟩) : Turn store (serve store call) := by
  unfold Ends at h
  unfold serve
  cases ha : answer call store <;> rw [ha] at h <;> exact h

theorem turn_update (ho : store.isOpen) (create : Bool) (records : List Record) :
    Ends (answer (.update create records)) store
      (fun a after => Turn store ⟨store, .update create records, .ok a, after⟩)
      fun e after => Turn store ⟨store, .update create records, .error e, after⟩ := by
  rw [answer, ends_bind]
  by_cases known : create ∨ ∀ r ∈ records, r.id ∈ store.contents.ids
  · rw [ends_update ho known]
    exact .updated create records ho known
  · obtain ⟨hc, r, hr, hunknown⟩ : create = false ∧ ∃ r ∈ records, r.id ∉ store.contents.ids := by
      simpa using known
    obtain ⟨first, hfirst⟩ : ∃ first, records.find? (fun r => r.id ∉ store.contents.ids) =
        some first :=
      Option.isSome_iff_exists.1 (List.find?_isSome.2 ⟨r, hr, decide_eq_true hunknown⟩)
    subst hc
    rw [ends_update_unknown ho hfirst]
    exact .unknown records first ho hfirst

theorem turn_create (ho : store.isOpen) (r : Record) :
    Ends (answer (.create r)) store (fun a after => Turn store ⟨store, .create r, .ok a, after⟩)
      fun e after => Turn store ⟨store, .create r, .error e, after⟩ := by
  simp only [answer, create, ends_bind, ends_requireOpen]
  rw [if_pos ho]
  simp only [ends_get, RecordSet.contains_eq_decide]
  by_cases hr : r.id ∈ store.contents.ids
  · rw [if_pos (decide_eq_true hr)]
    exact .duplicate r ho hr
  · rw [if_neg (by simpa using hr)]
    exact .created r ho hr

theorem serve_shut {call : Call} (hneeds : call.NeedsOpen) (hshut : store.isOpen = false) :
    serve store call = ⟨store, call, .error .notOpen, store⟩ := by
  obtain ⟨isOpen, initialized, contents⟩ := store
  cases hshut
  cases call with
  | openWith | close => cases hneeds
  | reload | update | remove | create => rfl

theorem turn_serve (store : Store) (call : Call) : Turn store (serve store call) := by
  by_cases hshut : call.NeedsOpen ∧ store.isOpen = false
  · rw [serve_shut hshut.1 hshut.2]
    exact .refused call hshut.1 hshut.2
  · have ho : call.NeedsOpen → store.isOpen := fun hneeds => by simpa [hneeds] using hshut
    apply turn_of_ends
    cases call with
    | openWith initial =>
      simp only [answer, ends_bind, ends_openWith]
      exact .opened initial
    | close => exact .closed
    | reload =>
      rw [answer, ends_bind, ends_reload, if_pos (ho trivial)]
      exact .reloaded (ho trivial)
    | update create records => exact turn_update (ho trivial) create records
    | remove records =>
      simp only [answer, ends_bind, ends_remove (ho trivial)]
      exact .removed records (ho trivial)
    | create r => exact turn_create (ho trivial) r

end BrokerConfig.Store
