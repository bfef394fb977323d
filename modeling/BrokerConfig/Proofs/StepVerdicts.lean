import BrokerConfig.Proofs.Verdicts

namespace BrokerConfig.Upgrade

variable {s : RecordSet}

theorem Pass.ends_decides {σ : Type} {act : Record → Pass σ Unit} {w : Work σ}
    {failed : Failure → Work σ → Prop} (verdict : Record → Verdict)
    (hw : w.changes = Changes.empty) (about : ∀ r, (verdict r).About r.id)
    (h : ∀ r (w : Work σ), Ends (act r) w
      (fun _ w' => w'.changes = w.changes.take (verdict r)) failed) :
    Ends (Pass.each act s.records) w
      (fun _ w' => Decides verdict RecordSet.empty s w'.changes) failed := by
  have hdecided : Ends (Pass.each act s.records) w
      (fun _ w' => w'.changes = Changes.decided verdict s.records) failed := by
    apply Pass.ends_each fun seen (w' : Work σ) => w'.changes = Changes.decided verdict seen
    · exact hw
    · rintro before r - - w' hw'
      rw [Changes.decided_concat, ← hw']
      exact h r w'
  apply hdecided.imp
  intro _ w' hw'
  rw [hw']
  exact .decided fun r _ => about r

def rootVerdict (version : String) (r : Record) : Verdict :=
  if r.isRoot then .revise (r.withVersion version) else .keep

def queueVerdict (version : String) (change : Record → Record) (r : Record) : Verdict :=
  if r.isRoot then .revise (r.withVersion version)
  else if r.isCategory Category.queue then .revise (change r)
  else .keep

theorem about_rootVerdict (version : String) (r : Record) : (rootVerdict version r).About r.id := by
  unfold rootVerdict
  split
  · rfl
  · trivial

theorem about_queueVerdict (version : String) (change : Record → Record)
    (h : ∀ r, (change r).id = r.id) (r : Record) : (queueVerdict version change r).About r.id := by
  unfold queueVerdict
  split
  · rfl
  · split
    · exact h r
    · trivial

theorem RootVersion.decides {target : String} :
    (passes target).Yields s (Decides (rootVerdict target) RecordSet.empty s) fun _ => False := by
  rw [passes, TwoPass.yields_recordwise]
  apply Pass.ends_decides _ rfl (about_rootVerdict target)
  intro r w
  unfold visit rootVerdict
  split <;> rfl

theorem QueueSettings.decides :
    passes.Yields s (Decides (queueVerdict target flatten) RecordSet.empty s) fun _ => False := by
  rw [passes, TwoPass.yields_recordwise]
  apply Pass.ends_decides _ rfl (about_queueVerdict target flatten fun _ => rfl)
  intro r w
  unfold visit queueVerdict
  split
  · rfl
  · split <;> rfl

theorem QueuePolicy.decides :
    passes.Yields s (Decides (queueVerdict target revise) RecordSet.empty s) fun _ => False := by
  rw [passes, TwoPass.yields_recordwise]
  apply Pass.ends_decides _ rfl (about_queueVerdict target revise fun _ => rfl)
  intro r w
  unfold visit queueVerdict
  split
  · rfl
  · split <;> rfl

namespace Selectors

def verdict (host : Host) (s : RecordSet) (r : Record) : Verdict :=
  if r.isRoot then .revise (r.withVersion target)
  else if r.isCategory Category.binding then
    match prune? (host.defaultId .topic) s r with
    | some u => .revise u
    | none => .keep
  else .keep

theorem id_prune? {topicId : RecordId} {r u : Record} (h : prune? topicId s r = some u) :
    u.id = r.id := by
  unfold prune? at h
  split at h
  · split at h
    · cases h
      rfl
    · cases h
  · cases h

theorem about_verdict (host : Host) (r : Record) : (verdict host s r).About r.id := by
  unfold verdict
  split
  · rfl
  · split
    · cases hu : prune? (host.defaultId .topic) s r with
      | some u => exact id_prune? hu
      | none => trivial
    · trivial

theorem decides {host : Host} :
    (passes host).Yields s (Decides (verdict host s) RecordSet.empty s) fun _ => False := by
  rw [yields_iff]
  apply Pass.ends_decides _ rfl (about_verdict host)
  intro r w
  unfold settle verdict
  split
  · rfl
  · split
    · cases prune? (host.defaultId .topic) s r <;> rfl
    · rfl

end Selectors

namespace ShortTypes

def renamed (r : Record) : Record :=
  let short := r.withCategory r.shortCategory
  if short.category = Category.virtualHost then short.withVersion target else short

theorem id_renamed (r : Record) : (renamed r).id = r.id := by
  unfold renamed
  dsimp only
  split <;> rfl

theorem category_renamed (r : Record) : (renamed r).category = r.shortCategory := by
  unfold renamed
  dsimp only
  split <;> rfl

def renamedAll (s : RecordSet) : RecordSet where
  records := s.records.map renamed
  distinct := by
    have h : Record.id ∘ renamed = Record.id := funext id_renamed
    rw [List.map_map, h]
    exact s.distinct

def verdict (host : Host) (s : RecordSet) (r : Record) : Verdict :=
  if (renamed r).category = Category.binding && isOrphan host (renamedAll s) (renamed r) then
    .drop (renamed r)
  else .revise (renamed r)

theorem about_verdict (host : Host) (r : Record) : (verdict host s r).About r.id := by
  unfold verdict
  split <;> exact id_renamed r

theorem get?_renamedAll (s : RecordSet) (id : RecordId) :
    (renamedAll s).get? id = (s.get? id).map renamed := by
  ext u
  simp only [RecordSet.get?_eq_some_iff, Option.map_eq_some_iff, renamedAll, List.mem_map]
  constructor
  · rintro ⟨⟨r, hr, rfl⟩, hid⟩
    exact ⟨r, ⟨hr, (id_renamed r).symm.trans hid⟩, rfl⟩
  · rintro ⟨r, ⟨hr, hid⟩, rfl⟩
    exact ⟨⟨r, hr, rfl⟩, (id_renamed r).trans hid⟩

theorem isOrphan_congr {host : Host} {s t : RecordSet} (h : ∀ id, s.get? id = t.get? id)
    (r : Record) : isOrphan host s r = isOrphan host t r := by
  simp only [isOrphan, isPresent, h]

theorem each_deleteOrphan (rs : List Record) (w : Work Unit) {done : Unit → Work Unit → Prop}
    {failed : Failure → Work Unit → Prop}
    (h : ∀ events, done () ⟨(), rs.foldl Changes.delete w.changes, events⟩) :
    Ends (Pass.each deleteOrphan rs) w done failed := by
  induction rs generalizing w with
  | nil => exact h w.events
  | cons r rest ih =>
    simp only [Pass.each, deleteOrphan, ends_bind, Pass.ends_report, Pass.ends_delete]
    exact ih _ h

theorem decides {host : Host} :
    (passes host).Yields s (Decides (verdict host s) RecordSet.empty s) fun _ => False := by
  have hvisit : Ends (Pass.each visit s.records) (Work.initial ())
      (fun _ w => Decides (fun r => .revise (renamed r)) RecordSet.empty s w.changes)
      fun _ _ => False := by
    apply Pass.ends_decides (fun r => .revise (renamed r)) rfl id_renamed
    intro r w
    unfold visit renamed
    dsimp only
    split <;> rfl
  rw [yields_iff]
  apply hvisit.imp
  intro _ w hw
  apply each_deleteOrphan
  intro events
  have hupdates : ∀ id, w.changes.updates.get? id = (renamedAll s).get? id := by
    intro id
    rw [hw.updates, get?_renamedAll]
    cases s.get? id <;> rfl
  let gone : RecordSet := ⟨orphans host w.changes.updates,
    w.changes.updates.distinct.sublist (List.filter_sublist.map _)⟩
  have hgone : ∀ id, gone.get? id = (s.get? id).bind fun r => (verdict host s r).removal? := by
    intro id
    show Keyed.find? Record.id id (List.filter _ w.changes.updates.records) = _
    rw [RecordSet.find?_filter, hupdates, get?_renamedAll]
    cases s.get? id with
    | none => rfl
    | some r =>
      simp only [Option.map_some, Option.bind_some, isOrphan_congr hupdates, verdict,
        Option.filter_some]
      split <;> rfl
  refine ⟨fun r _ => about_verdict host r, ?_, ?_⟩
  · intro id
    have hmem : id ∈ gone.ids ↔ (gone.get? id).isSome := RecordSet.contains_iff.symm
    rw [Changes.foldl_delete, RecordSet.get?_eraseAll, hw.updates]
    simp only [show (orphans host w.changes.updates).map Record.id = gone.ids from rfl, hmem, hgone]
    cases s.get? id with
    | none => rfl
    | some r =>
      simp only [Option.bind_some, verdict, RecordSet.get?_empty, Option.none_or]
      split <;> rfl
  · intro id
    have hnone : w.changes.deletes.get? id = none := by
      rw [hw.deletes]
      cases s.get? id <;> rfl
    rw [Changes.foldl_delete, RecordSet.get?_insertAll _ gone.distinct, hnone, Option.or_none]
    exact hgone id

end ShortTypes

end BrokerConfig.Upgrade
