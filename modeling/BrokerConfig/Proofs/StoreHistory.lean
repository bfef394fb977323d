import BrokerConfig.Proofs.StoreCalls

namespace BrokerConfig.Store

/-- Records with a batch written over them. An id that is known keeps its place and takes its last
record in the batch; the other ids follow in the order in which they first come up. -/
def overlay (held batch : List Record) : List Record :=
  held.map (fun r => (RecordSet.latest? batch r.id).getD r) ++
    ((batch.map Record.id).eraseDups.filter fun id => id ∉ held.map Record.id).filterMap
      (RecordSet.latest? batch)

inductive Origin
  | new
  | ofRecords (records : List Record)
  deriving DecidableEq

def Origin.store : Origin → Store
  | .new => .new
  | .ofRecords records => .ofRecords records

def Origin.held : Origin → List Record
  | .new => []
  | .ofRecords records => overlay [] records

def Call.Opens : Call → Prop
  | .openWith _ => True
  | .reload | .update _ _ | .remove _ | .create _ | .close => False

def Call.leavesOpen (isOpen : Bool) : Call → Bool
  | .openWith _ => true
  | .close => false
  | .reload | .update _ _ | .remove _ | .create _ => isOpen

def Served.effect (e : Served) (held : List Record) : List Record :=
  match e.call, e.result with
  | .openWith initial, .ok (.opened true _) => overlay [] initial
  | .update _ records, .ok _ => overlay held records
  | .remove records, .ok _ => held.filter fun r => r.id ∉ records.map Record.id
  | .create r, .ok _ => held ++ [r]
  | _, _ => held

def openAfter (past : List Served) : Bool :=
  past.foldl (fun isOpen e => e.call.leavesOpen isOpen) false

def heldAfter (origin : Origin) (past : List Served) : List Record :=
  past.foldl (fun held e => e.effect held) origin.held

def Unused (origin : Origin) (past : List Served) : Prop :=
  origin = .new ∧ ∀ e ∈ past, ¬e.call.Opens

inductive Answered (held : List Record) : Call → Except StoreError Answer → Prop
  | listed : Answered held .reload (.ok (.listed held))
  | updated (create : Bool) (records : List Record)
    (known : create ∨ ∀ r ∈ records, r.id ∈ held.map Record.id) :
    Answered held (.update create records) (.ok .done)
  | unknown (records : List Record) (r : Record)
    (first : records.find? (fun r => r.id ∉ held.map Record.id) = some r) :
    Answered held (.update false records) (.error (.unknownRecord r.id))
  | removed (records : List Record) :
    Answered held (.remove records)
      (.ok (.removed ((records.map Record.id).eraseDups.filter (· ∈ held.map Record.id))))
  | created (r : Record) (fresh : r.id ∉ held.map Record.id) :
    Answered held (.create r) (.ok .done)
  | duplicate (r : Record) (known : r.id ∈ held.map Record.id) :
    Answered held (.create r) (.error (.duplicateRecord r.id))

structure Reflects (origin : Origin) (past : List Served) (store : Store) : Prop where
  isOpen : store.isOpen = openAfter past
  initialized : store.initialized = false ↔ Unused origin past
  records : store.contents.records = heldAfter origin past
  once : (store.contents.records.map Record.id).Nodup
  own : ∀ id r, store.contents.get? id = some r ↔ r ∈ store.contents.records ∧ r.id = id

structure Accounted (origin : Origin) (past : List Served) (e : Served) : Prop where
  before : Reflects origin past e.before
  after : Reflects origin (past ++ [e]) e.after
  atomic : ∀ error, e.result = .error error → e.after = e.before
  shut : e.call.NeedsOpen → (e.result = .error .notOpen ↔ openAfter past = false)
  answered : e.call.NeedsOpen → openAfter past → Answered (heldAfter origin past) e.call e.result
  opening : ∀ initial, e.call = .openWith initial →
    ∃ isNew, e.result = .ok (.opened isNew (heldAfter origin (past ++ [e]))) ∧
      (isNew = true ↔ Unused origin past)
  closing : e.call = .close → e.result = .ok .done

variable {origin : Origin} {past : List Served} {store : Store} {e : Served}

theorem records_insertAll (s : RecordSet) (batch : List Record) :
    (s.insertAll batch).records = overlay s.records batch := by
  have hknown : s.ids.filterMap (s.insertAll batch).get? =
      s.records.map fun r => (RecordSet.latest? batch r.id).getD r := by
    rw [RecordSet.ids, List.filterMap_map, ← List.filterMap_eq_map]
    apply List.filterMap_congr
    intro r hr
    simp only [Function.comp_apply, RecordSet.get?_insertAll_latest, RecordSet.get?_of_mem hr]
    cases RecordSet.latest? batch r.id <;> rfl
  have hnew : ((batch.map Record.id).eraseDups.filter (· ∉ s.ids)).filterMap
      (s.insertAll batch).get? =
      ((batch.map Record.id).eraseDups.filter (· ∉ s.ids)).filterMap
        (RecordSet.latest? batch) := by
    apply List.filterMap_congr
    intro id hid
    have hs : s.get? id = none :=
      RecordSet.get?_eq_none_iff.2 (of_decide_eq_true (List.mem_filter.1 hid).2)
    rw [RecordSet.get?_insertAll_latest, hs, Option.or_none]
  rw [RecordSet.records_eq_filterMap, RecordSet.ids_insertAll_eraseDups, List.filterMap_append,
    hknown, hnew]
  rfl

theorem records_ofList (records : List Record) :
    (RecordSet.ofList records).records = overlay [] records :=
  records_insertAll RecordSet.empty records

namespace Turn

theorem before (h : Turn store e) : e.before = store := by
  cases h <;> rfl

theorem atomic (h : Turn store e) {error : StoreError} (he : e.result = .error error) :
    e.after = store := by
  cases h with
  | refused | reloaded | unknown | duplicate => rfl
  | opened | closed | updated | removed | created => cases he

theorem leavesOpen (h : Turn store e) : e.after.isOpen = e.call.leavesOpen store.isOpen := by
  cases h with
  | refused call needs shut => cases call <;> first | rfl | cases needs
  | _ => rfl

theorem initialized (h : Turn store e) :
    e.after.initialized = false ↔ store.initialized = false ∧ ¬e.call.Opens := by
  cases h with
  | opened => simp [Call.Opens]
  | refused call needs shut => cases call <;> simp_all [Call.Opens, Call.NeedsOpen]
  | _ => simp [Call.Opens]

theorem shut (h : Turn store e) (hneeds : e.call.NeedsOpen) :
    e.result = .error .notOpen ↔ store.isOpen = false := by
  cases h with
  | opened | closed => cases hneeds
  | refused call needs shut => simp [shut]
  | reloaded isOpen | updated _ _ isOpen | unknown _ _ isOpen | removed _ isOpen
  | created _ isOpen | duplicate _ isOpen => simp [isOpen]

theorem answered (h : Turn store e) (hneeds : e.call.NeedsOpen) (ho : store.isOpen) :
    Answered store.contents.records e.call e.result := by
  cases h with
  | opened | closed => cases hneeds
  | refused call needs shut =>
    rw [shut] at ho
    cases ho
  | reloaded => exact .listed
  | updated create records _ known => exact .updated create records known
  | unknown records r _ first => exact .unknown records r first
  | removed records => exact .removed records
  | created r _ fresh => exact .created r fresh
  | duplicate r _ held => exact .duplicate r held

theorem effect (h : Turn store e) : e.after.contents.records = e.effect store.contents.records := by
  cases h with
  | opened initial =>
    simp only [Served.effect, openedWith]
    cases store.initialized with
    | false => exact records_ofList initial
    | true => rfl
  | refused call needs shut => cases call <;> rfl
  | updated create records => exact records_insertAll store.contents records
  | removed records => exact RecordSet.records_eraseAll store.contents _
  | created r _ fresh => exact Keyed.put_of_not_mem Record.id fresh
  | closed | reloaded | unknown | duplicate => rfl

theorem opening (h : Turn store e) {initial : List Record} (he : e.call = .openWith initial) :
    e.result = .ok (.opened (!store.initialized) e.after.contents.records) := by
  cases h with
  | opened => rfl
  | refused call needs shut =>
    cases he
    cases needs
  | _ => cases he

theorem closing (h : Turn store e) (he : e.call = .close) : e.result = .ok .done := by
  cases h with
  | closed => rfl
  | refused call needs shut =>
    cases he
    cases needs
  | _ => cases he

end Turn

theorem openAfter_concat (past : List Served) (e : Served) :
    openAfter (past ++ [e]) = e.call.leavesOpen (openAfter past) := by
  simp [openAfter]

theorem heldAfter_concat (origin : Origin) (past : List Served) (e : Served) :
    heldAfter origin (past ++ [e]) = e.effect (heldAfter origin past) := by
  simp [heldAfter]

theorem unused_concat : Unused origin (past ++ [e]) ↔ Unused origin past ∧ ¬e.call.Opens := by
  simp only [Unused, List.forall_mem_append, List.forall_mem_singleton, and_assoc]

theorem reflects_store (origin : Origin) : Reflects origin [] origin.store where
  isOpen := by cases origin <;> rfl
  initialized := by cases origin <;> simp [Unused, Origin.store, new, ofRecords]
  records := by
    cases origin with
    | new => rfl
    | ofRecords records => exact records_ofList records
  once := origin.store.contents.distinct
  own _ _ := RecordSet.get?_eq_some_iff

theorem Reflects.turn (h : Reflects origin past store) (ht : Turn store e) :
    Reflects origin (past ++ [e]) e.after where
  isOpen := by rw [ht.leavesOpen, h.isOpen, openAfter_concat]
  initialized := by rw [ht.initialized, h.initialized, unused_concat]
  records := by rw [ht.effect, h.records, heldAfter_concat]
  once := e.after.contents.distinct
  own _ _ := RecordSet.get?_eq_some_iff

theorem Reflects.accounted (h : Reflects origin past store) (ht : Turn store e) :
    Accounted origin past e where
  before := ht.before ▸ h
  after := h.turn ht
  atomic _ he := ht.before ▸ ht.atomic he
  shut hneeds := by rw [ht.shut hneeds, h.isOpen]
  answered hneeds ho := h.records ▸ ht.answered hneeds (h.isOpen.trans ho)
  opening initial he := by
    refine ⟨!store.initialized, ?_, ?_⟩
    · rw [ht.opening he, (h.turn ht).records]
    · rw [Bool.not_eq_true', h.initialized]
  closing he := ht.closing he

theorem Reflects.session (h : Reflects origin past store) {calls : List Call}
    {done later : List Served} (hs : session store calls = done ++ e :: later) :
    Accounted origin (past ++ done) e := by
  induction calls generalizing past store done with
  | nil => simp [Store.session] at hs
  | cons call rest ih =>
    have ht := turn_serve store call
    cases done with
    | nil =>
      obtain ⟨rfl, -⟩ := List.cons.inj hs
      rw [List.append_nil]
      exact h.accounted ht
    | cons first done =>
      -- the first call joins the past, and the store it leaves reflects that
      obtain ⟨rfl, hrest⟩ := List.cons.inj hs
      have hnext := ih (h.turn ht) hrest
      rwa [List.append_assoc] at hnext

theorem calls_session (store : Store) (calls : List Call) :
    (session store calls).map Served.call = calls := by
  induction calls generalizing store with
  | nil => rfl
  | cons call rest ih =>
    have hcall : (serve store call).call = call := by
      unfold serve
      cases answer call store <;> rfl
    rw [Store.session, List.map_cons, hcall, ih]

/-- Every call of a session is answered as its past tells, and leaves the store accordingly. -/
theorem session_accounted (origin : Origin) (calls : List Call) :
    (session origin.store calls).map Served.call = calls ∧
      ∀ past e later, session origin.store calls = past ++ e :: later →
        Accounted origin past e :=
  ⟨calls_session origin.store calls, fun _ _ _ hs => (reflects_store origin).session hs⟩

theorem session_accounted_unknown :
    let known := Record.bare ⟨1⟩ Category.queue
    let unknown := Record.bare ⟨2⟩ Category.queue
    let batch := [known.withAttribute Attribute.name (.text "renamed"), unknown]
    ∃ past e later,
      session Origin.new.store [.openWith [known], .update false batch, .reload] =
        past ++ e :: later ∧
      e.result = .error (.unknownRecord unknown.id) ∧ e.after = e.before ∧
      e.before.contents.records = [known] ∧ heldAfter .new past = [known] := by
  intro known unknown batch
  have hopened : heldAfter .new [serve Origin.new.store (.openWith [known])] = [known] := rfl
  obtain ⟨-, haccounted⟩ :=
    session_accounted .new [.openWith [known], .update false batch, .reload]
  have he := haccounted [_] _ [_] rfl
  exact ⟨[_], _, [_], rfl, rfl, he.atomic _ rfl, he.before.records.trans hopened, hopened⟩

end BrokerConfig.Store
