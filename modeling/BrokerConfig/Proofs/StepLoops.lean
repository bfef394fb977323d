import BrokerConfig.Proofs.Passes
import BrokerConfig.Upgrade.Step

namespace BrokerConfig.Upgrade

open Json

variable {s : RecordSet} {done : Changes → Prop} {failed : Failure → Prop}

def Work.initial {σ : Type} (state : σ) : Work σ := ⟨state, Changes.empty, []⟩

namespace Selectors

theorem settleAll_eq (topicId : RecordId) (records : RecordSet) (rs : List Record) :
    settleAll topicId records rs = Pass.each (settle topicId records) rs :=
  Pass.eq_each rfl (fun _ _ => rfl) rs

theorem each_insert (rs : List Record) (w : Work RecordSet) :
    Pass.each (fun r => Pass.modifyState (·.insert r)) rs w =
      .ok () { w with state := w.state.insertAll rs } := by
  induction rs generalizing w with
  | nil => rfl
  | cons r rest ih => exact ih { w with state := w.state.insert r }

theorem yields_iff {host : Host} :
    (passes host).Yields s done failed ↔
      Ends (Pass.each (settle (host.defaultId .topic) s) s.records) (Work.initial s)
        (fun _ w => done w.changes) fun e _ => failed e := by
  have hs : RecordSet.empty.insertAll s.records = s := RecordSet.ofList_records s
  have hv := each_insert s.records (Work.initial RecordSet.empty)
  rw [show (Work.initial RecordSet.empty).state = RecordSet.empty from rfl, hs] at hv
  rw [← settleAll_eq]
  exact TwoPass.yields_iff.trans (ends_of_ok hv)

end Selectors

namespace ShortTypes

def deleteOrphan (r : Record) : Pass Unit Unit := do
  Pass.report (.deletingOrphan r)
  Pass.delete r

theorem deleteAll_eq (rs : List Record) : deleteAll rs = Pass.each deleteOrphan rs :=
  Pass.eq_each rfl (fun _ _ => rfl) rs

theorem yields_iff {host : Host} :
    (passes host).Yields s done failed ↔
      Ends (Pass.each visit s.records) (Work.initial ())
        (fun _ w => Ends (Pass.each deleteOrphan (orphans host w.changes.updates)) w
          (fun _ w' => done w'.changes) fun e _ => failed e)
        fun e _ => failed e := by
  simp only [← deleteAll_eq]
  exact TwoPass.yields_iff

end ShortTypes

theorem TwoPass.yields_recordwise {visit : Record → Pass Unit Unit} :
    (TwoPass.recordwise visit).Yields s done failed ↔
      Ends (Pass.each visit s.records) (Work.initial ()) (fun _ w => done w.changes)
        fun e _ => failed e :=
  TwoPass.yields_iff

namespace MissingExchanges

def create (host : Host) (e : DefaultExchange) : Pass State Unit := do
  match (← Pass.getState).root with
  | none => throw (.missingRootRecord e.name)
  | some root =>
    Pass.report (.creatingDefault e)
    Pass.modifyState fun s => { s with exchanges := s.exchanges.insert e.name (host.defaultId e) }
    Pass.update (newRecord host e root)

theorem createAll_eq (host : Host) (es : List DefaultExchange) :
    createAll host es = Pass.each (create host) es := by
  apply Pass.eq_each rfl
  intro e rest
  funext w
  simp only [createAll, create, bind, EStateM.bind, Pass.getState, run_get, pure,
    EStateM.pure]
  cases w.state.root <;> rfl

def settleOne (exchanges : OrderedMap String RecordId) (w : Waiting) : Pass State Unit :=
  match exchanges.get? w.exchange with
  | some id => Pass.update (withAlternate w.queue id)
  | none => Pass.report (.deadLetterExchangeMissing w.exchange w.queue)

theorem settleAll_eq (exchanges : OrderedMap String RecordId) (ws : List Waiting) :
    settleAll exchanges ws = Pass.each (settleOne exchanges) ws := by
  apply Pass.eq_each rfl
  intro w rest
  simp only [settleAll, settleOne]
  cases exchanges.get? w.exchange <;> rfl

theorem ends_complete {host : Host} {w : Work State} {done : Unit → Work State → Prop}
    {failed : Failure → Work State → Prop} :
    Ends (complete host) w done failed ↔
      Ends (Pass.each (create host) w.state.missing)
        { w with state := { w.state with missing := [] } }
        (fun _ w' => Ends (Pass.each (settleOne w'.state.exchanges) w'.state.waiting.values)
          { w' with state := { w'.state with waiting := OrderedMap.empty } } done failed)
        failed := by
  simp only [complete, ends_bind, Pass.ends_getState, Pass.ends_modifyState, createAll_eq,
    settleAll_eq]

theorem yields_iff {host : Host} :
    (passes host).Yields s done failed ↔
      Ends (Pass.each (visit host) s.records) (Work.initial start)
        (fun _ w => Ends (complete host) w (fun _ w' => done w'.changes) fun e _ => failed e)
        fun e _ => failed e :=
  TwoPass.yields_iff

end MissingExchanges

namespace BindingLists

def captureEntry (queue : String) (entry : Value) : Pass State Unit := do
  let reference := asWord (entry.member? Attribute.exchange)
  match resolve? (← Pass.getState).exchanges reference with
  | none => throw (.unresolvedExchange queue reference)
  | some exchange => Pass.modifyState (capture exchange [ofQueueEntry queue entry])

theorem captureEntries_eq (queue : String) (entries : List Value) :
    captureEntries queue entries = Pass.each (captureEntry queue) entries := by
  apply Pass.eq_each rfl
  intro entry rest
  funext w
  simp only [captureEntries, captureEntry, bind, EStateM.bind, Pass.getState, run_get, pure,
    EStateM.pure]
  cases resolve? w.state.exchanges (asWord (entry.member? Attribute.exchange)) <;> rfl

theorem captureQueues_eq (queues : List (String × List Value)) :
    captureQueues queues = Pass.each (fun queue => captureEntries queue.1 queue.2) queues :=
  Pass.eq_each rfl (fun _ _ => rfl) queues

theorem settleAll_eq (s : State) (captured : List (RecordId × List Captured)) :
    settleAll s captured = Pass.each (fun entry => settle s entry.1 entry.2) captured :=
  Pass.eq_each rfl (fun _ _ => rfl) captured

theorem ends_complete {w : Work State} {done : Unit → Work State → Prop}
    {failed : Failure → Work State → Prop} :
    Ends complete w done failed ↔
      Ends (Pass.each (fun queue => captureEntries queue.1 queue.2) w.state.queueEntries.entries)
        { w with state := { w.state with queueEntries := OrderedMap.empty } }
        (fun _ w' => Ends
          (Pass.each (fun entry => settle w'.state entry.1 entry.2) w'.state.captured.entries) w'
          done failed)
        failed := by
  simp only [complete, ends_bind, Pass.ends_getState, Pass.ends_modifyState, captureQueues_eq,
    settleAll_eq]

theorem yields_iff :
    passes.Yields s done failed ↔
      Ends (Pass.each visit s.records) (Work.initial start)
        (fun _ w => Ends complete w (fun _ w' => done w'.changes) fun e _ => failed e)
        fun e _ => failed e :=
  TwoPass.yields_iff

end BindingLists

end BrokerConfig.Upgrade
