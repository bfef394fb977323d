import BrokerConfig.Proofs.NetEffect

namespace BrokerConfig

namespace RecordSet

theorem get?_apply_update (s : RecordSet) (c : Changes) (r : Record) (id : RecordId) :
    (s.apply (c.update r)).get? id = ((s.apply c).insert r).get? id := by
  rw [get?_insert, get?_apply, get?_apply, Changes.updates_get?_update]
  by_cases h : r.id = id
  · rw [if_pos h, if_pos h, Option.some_or]
  · have hdeleted : id ∈ (c.update r).deletes.ids ↔ id ∈ c.deletes.ids := by
      simp [Changes.update, ids_erase, eq_comm (a := id), h]
    simp only [if_neg h, hdeleted]

theorem get?_apply_delete (s : RecordSet) (c : Changes) (r : Record) (id : RecordId) :
    (s.apply (c.delete r)).get? id = ((s.apply c).erase r.id).get? id := by
  have hdeleted : id ∈ (c.delete r).deletes.ids ↔ id ∈ c.deletes.ids ∨ id = r.id := mem_ids_insert
  rw [get?_erase, get?_apply, get?_apply, Changes.updates_get?_delete]
  by_cases h : id = r.id
  · rw [if_pos h, if_pos h, if_pos (hdeleted.2 (.inr h)), Option.none_or]
  · simp only [hdeleted, h, or_false, if_false]

theorem ids_erase_eraseDups {s : RecordSet} {rs : List Record}
    (h : s.ids = (rs.map Record.id).eraseDups) (gone : RecordId) :
    (s.erase gone).ids = ((rs.filter fun r => !(r.id = gone)).map Record.id).eraseDups := by
  rw [ids_erase, h, ← filter_eraseDups, List.filter_map]
  simp only [Function.comp_def, ne_eq, decide_not]

end RecordSet

namespace Changes

def latest? (calls : List Call) (id : RecordId) : Option Call :=
  (calls.filter fun call => call.id = id).getLast?

def Call.asks : Call → Bool
  | update _ | delete _ => true
  | withdrawUpdate _ => false

def latestAsked? (calls : List Call) (id : RecordId) : Option Call :=
  latest? (calls.filter Call.asks) id

def Call.revokes (id : RecordId) : Call → Bool
  | update _ => false
  | delete r => id = r.id
  | withdrawUpdate gone => id = gone

def standing : List Call → List Record
  | [] => []
  | .update r :: later =>
    if later.any (Call.revokes r.id) then standing later else r :: standing later
  | .delete _ :: later | .withdrawUpdate _ :: later => standing later

structure Waits (s : RecordSet) (calls : List Call) (c : Changes) : Prop where
  apart : ∀ id ∈ c.updates.ids, id ∉ c.deletes.ids
  deletes : ∀ id r, c.deletes.get? id = some r ↔ latestAsked? calls id = some (.delete r)
  updates : ∀ id r, c.updates.get? id = some r ↔ latest? calls id = some (.update r)
  same : (∀ id, Call.withdrawUpdate id ∉ calls) →
    ∀ id, (s.apply c).get? id = (s.run calls).get? id
  order : InOrder s (s.apply c) c
  arrival : c.updates.ids = ((standing calls).map Record.id).eraseDups

theorem run_concat (c : Changes) (calls : List Call) (call : Call) :
    c.run (calls ++ [call]) = (c.run calls).perform call := by
  simp [run]

theorem latest?_concat (calls : List Call) (call : Call) (id : RecordId) :
    latest? (calls ++ [call]) id = if call.id = id then some call else latest? calls id := by
  rw [latest?, latest?, List.filter_append]
  by_cases h : call.id = id <;> simp [h]

theorem latestAsked?_concat (calls : List Call) (call : Call) (id : RecordId) :
    latestAsked? (calls ++ [call]) id =
      if call.asks ∧ call.id = id then some call else latestAsked? calls id := by
  rw [latestAsked?, latestAsked?, List.filter_append]
  cases ha : call.asks with
  | true => simp [ha, latest?_concat]
  | false => simp [ha]

theorem updates_get?_perform (c : Changes) (call : Call) (id : RecordId) (r : Record) :
    (c.perform call).updates.get? id = some r ↔
      if call.id = id then call = .update r else c.updates.get? id = some r := by
  cases call with
  | update t =>
    rw [perform, updates_get?_update]
    by_cases h : t.id = id <;> simp [Call.id, h]
  | delete t =>
    rw [perform, updates_get?_delete]
    by_cases h : t.id = id <;> simp [Call.id, h, eq_comm (a := id)]
  | withdrawUpdate gone =>
    rw [perform, withdrawUpdate, RecordSet.get?_erase]
    by_cases h : gone = id <;> simp [Call.id, h, eq_comm (a := id)]

theorem deletes_get?_perform (c : Changes) (call : Call) (id : RecordId) (r : Record) :
    (c.perform call).deletes.get? id = some r ↔
      if call.asks ∧ call.id = id then call = .delete r else c.deletes.get? id = some r := by
  cases call with
  | update t =>
    rw [perform, deletes_get?_update]
    by_cases h : t.id = id <;> simp [Call.id, Call.asks, h, eq_comm (a := id)]
  | delete t =>
    rw [perform, deletes_get?_delete]
    by_cases h : t.id = id <;> simp [Call.id, Call.asks, h]
  | withdrawUpdate gone => simp [perform, withdrawUpdate, Call.asks]

theorem updates_run (calls : List Call) (id : RecordId) (r : Record) :
    (empty.run calls).updates.get? id = some r ↔ latest? calls id = some (.update r) := by
  induction calls using List.reverseRecOn with
  | nil => exact ⟨nofun, nofun⟩
  | append_singleton calls call ih =>
    rw [run_concat, updates_get?_perform, latest?_concat]
    by_cases h : call.id = id
    · simp [h]
    · simpa [h] using ih

theorem deletes_run (calls : List Call) (id : RecordId) (r : Record) :
    (empty.run calls).deletes.get? id = some r ↔ latestAsked? calls id = some (.delete r) := by
  induction calls using List.reverseRecOn with
  | nil => exact ⟨nofun, nofun⟩
  | append_singleton calls call ih =>
    rw [run_concat, deletes_get?_perform, latestAsked?_concat]
    by_cases h : call.asks ∧ call.id = id
    · simp [h]
    · simpa only [if_neg h] using ih

theorem latestAsked?_of_latest? {calls : List Call} {call : Call} {id : RecordId}
    (h : latest? calls id = some call) (ha : call.asks) : latestAsked? calls id = some call := by
  induction calls using List.reverseRecOn with
  | nil => cases h
  | append_singleton calls last ih =>
    rw [latest?_concat] at h
    rw [latestAsked?_concat]
    by_cases hid : last.id = id
    · rw [if_pos hid] at h
      obtain rfl := Option.some.inj h
      rw [if_pos ⟨ha, hid⟩]
    · rw [if_neg hid] at h
      rw [if_neg fun hlast => hid hlast.2]
      exact ih h

theorem apart_run (calls : List Call) :
    ∀ id ∈ (empty.run calls).updates.ids, id ∉ (empty.run calls).deletes.ids := by
  intro id hu hd
  obtain ⟨r, hr⟩ := RecordSet.exists_get?_of_mem_ids hu
  obtain ⟨t, ht⟩ := RecordSet.exists_get?_of_mem_ids hd
  have hupdate := latestAsked?_of_latest? ((updates_run calls id r).1 hr) rfl
  have hdelete := (deletes_run calls id t).1 ht
  rw [hupdate] at hdelete
  cases hdelete

theorem standing_concat (calls : List Call) (call : Call) :
    standing (calls ++ [call]) =
      (standing calls).filter (fun r => !call.revokes r.id) ++ standing [call] := by
  induction calls with
  | nil => rfl
  | cons first rest ih =>
    cases first with
    | update r =>
      rw [List.cons_append, standing, standing, List.any_append, ih]
      cases hrest : rest.any (Call.revokes r.id) with
      | true => rfl
      | false => cases hcall : call.revokes r.id <;> simp [hcall]
    | delete _ | withdrawUpdate _ => exact ih

theorem ids_updates_run (calls : List Call) :
    (empty.run calls).updates.ids = ((standing calls).map Record.id).eraseDups := by
  induction calls using List.reverseRecOn with
  | nil => rfl
  | append_singleton calls call ih =>
    rw [run_concat, standing_concat]
    cases call with
    | update r =>
      have hkept : (standing calls).filter (fun t => !(Call.update r).revokes t.id) =
          standing calls :=
        List.filter_eq_self.2 fun _ _ => rfl
      rw [hkept, show standing [.update r] = [r] from rfl, List.map_append, List.map_singleton,
        eraseDups_concat]
      simp only [perform, update, RecordSet.ids_insert, ih, List.mem_eraseDups]
    | delete r =>
      rw [show standing [.delete r] = [] from rfl, List.append_nil]
      exact RecordSet.ids_erase_eraseDups ih r.id
    | withdrawUpdate gone =>
      rw [show standing [.withdrawUpdate gone] = [] from rfl, List.append_nil]
      exact RecordSet.ids_erase_eraseDups ih gone

theorem get?_apply_run (s : RecordSet) {calls : List Call}
    (h : ∀ id, Call.withdrawUpdate id ∉ calls) (id : RecordId) :
    (s.apply (empty.run calls)).get? id = (s.run calls).get? id := by
  induction calls using List.reverseRecOn with
  | nil => simp [run, RecordSet.run, RecordSet.get?_apply, empty]
  | append_singleton calls call ih =>
    have ih := ih fun gone hmem => h gone (List.mem_append_left _ hmem)
    have hrun : s.run (calls ++ [call]) = (s.run calls).perform call := by simp [RecordSet.run]
    rw [run_concat, hrun]
    cases call with
    | update r =>
      rw [perform, RecordSet.get?_apply_update, RecordSet.perform, RecordSet.get?_insert,
        RecordSet.get?_insert, ih]
    | delete r =>
      rw [perform, RecordSet.get?_apply_delete, RecordSet.perform, RecordSet.get?_erase,
        RecordSet.get?_erase, ih]
    | withdrawUpdate gone => exact (h gone (List.mem_append_right _ List.mem_cons_self)).elim

/-- After any number of calls the last one about each id stands, and to commit what waits is to have
acted at once. -/
theorem last_calls_stand (s : RecordSet) (calls : List Call) (k : Nat) :
    Waits s (calls.take k) (empty.run (calls.take k)) where
  apart := apart_run (calls.take k)
  deletes := deletes_run (calls.take k)
  updates := updates_run (calls.take k)
  same h := get?_apply_run s h
  order := .of_apart s (apart_run (calls.take k))
  arrival := ids_updates_run (calls.take k)

theorem last_calls_stand_renewed :
    let queue := fun id : BitVec 128 => Record.bare ⟨id⟩ Category.queue
    let renewed := (queue 1).withAttribute Attribute.name (.text "renewed")
    let s := RecordSet.ofList [queue 1, queue 2]
    let calls := [Call.update (queue 3), .delete (queue 1), .update renewed, .delete (queue 2),
      .withdrawUpdate ⟨3⟩]
    let c := empty.run (calls.take 4)
    (∀ id, Call.withdrawUpdate id ∉ calls.take 4) ∧ c.updates.get? ⟨1⟩ = some renewed ∧
      (∀ id, (s.apply c).get? id = (s.run (calls.take 4)).get? id) ∧
      (s.apply c).ids = [⟨1⟩, ⟨3⟩] ∧ (s.run (calls.take 4)).ids = [⟨3⟩, ⟨1⟩] ∧
      (s.apply (empty.run (calls.take 5))).ids = [⟨1⟩] := by
  intro queue renewed s calls c
  have hkept : ∀ id, Call.withdrawUpdate id ∉ calls.take 4 := by simp [calls]
  have hwaits := last_calls_stand s calls 4
  exact ⟨hkept, (hwaits.updates ⟨1⟩ renewed).2 rfl, hwaits.same hkept, Eq.trans hwaits.order rfl,
    rfl, Eq.trans (last_calls_stand s calls 5).order rfl⟩

end Changes

end BrokerConfig
