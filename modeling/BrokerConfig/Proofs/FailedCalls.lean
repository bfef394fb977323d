import Mathlib.Data.List.Basic
import BrokerConfig.Proofs.StepLoops

namespace BrokerConfig.Upgrade

namespace Pass

variable {σ α : Type}

structure Unfailing (m : Pass σ α) : Prop where
  ends : ∀ w, Ends m w (fun _ _ => True) fun _ _ => False

structure Silent (m : Pass σ α) : Prop where
  ends : ∀ w, Ends m w (fun _ w' => w'.changes = w.changes) fun _ w' => w'.changes = w.changes

structure Careful (m : Pass σ α) : Prop where
  ends : ∀ w, Ends m w (fun _ _ => True) fun _ w' => w'.changes = w.changes

theorem Unfailing.ends_any {m : Pass σ α} (h : Unfailing m) (w : Work σ)
    {failed : Failure → Work σ → Prop} : Ends m w (fun _ _ => True) failed :=
  (h.ends w).mono (fun _ _ h => h) fun _ _ h => h.elim

theorem Unfailing.careful {m : Pass σ α} (h : Unfailing m) : Careful m := ⟨fun w => h.ends_any w⟩

theorem Unfailing.each {act : α → Pass σ Unit} (h : ∀ a, Unfailing (act a)) (l : List α) :
    Unfailing (each act l) where
  ends _ := ends_each (fun _ _ => True) trivial fun _ a _ _ w _ => (h a).ends w

theorem Silent.each {act : α → Pass σ Unit} (h : ∀ a, Silent (act a)) (l : List α) :
    Silent (each act l) where
  ends w := by
    apply ends_each (fun _ w' => w'.changes = w.changes) rfl
    rintro _ a _ - w' hw'
    have ha := (h a).ends w'
    rw [hw'] at ha
    exact ha

end Pass

open Pass

namespace Selectors

theorem unfailing_settle (topicId : RecordId) (records : RecordSet) (r : Record) :
    Unfailing (settle topicId records r) := by
  constructor
  intro w
  unfold settle
  split
  · trivial
  · split
    · cases prune? topicId records r <;> trivial
    · trivial

theorem unfailing_complete (host : Host) : Unfailing (passes host).complete := by
  constructor
  intro (w : Work RecordSet)
  show Ends (settleAll (host.defaultId .topic) w.state w.state.records) w _ _
  rw [settleAll_eq]
  exact (Unfailing.each (unfailing_settle (host.defaultId .topic) w.state) w.state.records).ends w

end Selectors

namespace ShortTypes

theorem unfailing_deleteOrphan (r : Record) : Unfailing (deleteOrphan r) := ⟨fun _ => trivial⟩

theorem unfailing_visit (r : Record) : Unfailing (visit r) := by
  constructor
  intro w
  unfold visit
  dsimp only
  split <;> trivial

theorem unfailing_complete (host : Host) : Unfailing (passes host).complete := by
  constructor
  intro w
  show Ends (deleteAll (orphans host w.changes.updates)) w _ _
  rw [deleteAll_eq]
  exact (Unfailing.each unfailing_deleteOrphan _).ends w

end ShortTypes

namespace QueueSettings

theorem unfailing_visit (r : Record) : Unfailing (visit r) := by
  constructor
  intro w
  unfold visit
  split
  · trivial
  · split <;> trivial

end QueueSettings

namespace QueuePolicy

theorem unfailing_visit (r : Record) : Unfailing (visit r) := by
  constructor
  intro w
  unfold visit
  split
  · trivial
  · split <;> trivial

end QueuePolicy

namespace RootVersion

theorem unfailing_visit (target : String) (r : Record) : Unfailing (visit target r) := by
  constructor
  intro w
  unfold visit
  split <;> trivial

end RootVersion

namespace MissingExchanges

theorem careful_visitQueue (host : Host) (queue : Record) : Careful (visitQueue host queue) := by
  constructor
  intro w
  unfold visitQueue
  split
  · cases queue.name? with
    | none => rfl
    | some name =>
      dsimp only
      split
      · rfl
      · simp only [ends_bind, ends_getState]
        cases w.state.exchanges.get? (host.deadLetterName name) <;> trivial
  · trivial

theorem careful_visit (host : Host) (r : Record) : Careful (visit host r) := by
  constructor
  intro w
  unfold visit
  split
  · trivial
  · split
    · trivial
    · split
      · exact (careful_visitQueue host r).ends w
      · trivial

theorem unfailing_settleOne (exchanges : OrderedMap String RecordId) (waiting : Waiting) :
    Unfailing (settleOne exchanges waiting) := by
  constructor
  intro w
  unfold settleOne
  cases exchanges.get? waiting.exchange <;> trivial

theorem careful_create (host : Host) (missing : List DefaultExchange) :
    Careful (Pass.each (create host) missing) := by
  constructor
  intro w
  cases hroot : w.state.root with
  | none =>
    cases missing with
    | nil => trivial
    | cons e rest =>
      simp only [Pass.each, create, ends_bind, ends_getState, hroot]
      rfl
  | some root =>
    have hall : Ends (Pass.each (create host) missing) w
        (fun _ w' => w'.state.root = some root) fun _ _ => False := by
      apply ends_each (fun _ (w' : Work State) => w'.state.root = some root) hroot
      rintro _ e _ - w' hw'
      simp only [create, ends_bind, ends_getState, hw']
      exact hw'
    exact hall.mono (fun _ _ _ => trivial) fun _ _ h => h.elim

theorem careful_complete (host : Host) : Careful (complete host) := by
  constructor
  intro w
  rw [ends_complete]
  apply ((careful_create host w.state.missing).ends _).imp
  intro _ w' _
  exact (Unfailing.each (unfailing_settleOne w'.state.exchanges) _).ends_any _

end MissingExchanges

namespace BindingLists

theorem careful_visitBinding (binding : Record) : Careful (visitBinding binding) := by
  constructor
  intro w
  unfold visitBinding
  cases binding.parent? Category.exchange with
  | none => rfl
  | some exchange => cases binding.parent? Category.queue <;> trivial

theorem careful_visit (r : Record) : Careful (visit r) := by
  constructor
  intro w
  unfold visit
  split
  · trivial
  · split
    · exact (careful_visitBinding r).ends w
    · split
      · trivial
      · split
        · unfold visitQueue
          rw [ends_bind, ends_modifyState]
          split <;> trivial
        · trivial

theorem silent_captureEntry (queue : String) (entry : Json.Value) :
    Silent (captureEntry queue entry) := by
  constructor
  intro w
  simp only [captureEntry, ends_bind, ends_getState]
  cases resolve? w.state.exchanges (asWord (entry.member? Attribute.exchange)) <;> rfl

theorem silent_captureEntries (queue : String) (entries : List Json.Value) :
    Silent (captureEntries queue entries) := by
  rw [captureEntries_eq]
  exact .each (silent_captureEntry queue) entries

theorem unfailing_settle (s : State) (exchange : RecordId) (bindings : List Captured) :
    Unfailing (settle s exchange bindings) := by
  constructor
  intro w
  unfold settle
  cases s.exchanges.get? exchange <;> trivial

theorem careful_complete : Careful complete := by
  constructor
  intro w
  rw [ends_complete]
  have hcapture := Silent.each (fun queue : String × List Json.Value =>
    silent_captureEntries queue.1 queue.2) w.state.queueEntries.entries
  -- every reference has been resolved when the first list is staged
  apply (hcapture.ends _).mono
  · intro _ w' _
    apply Unfailing.ends_any
    exact .each (fun entry : RecordId × List Captured =>
      unfailing_settle w'.state entry.1 entry.2) _
  · intro _ w' hw'
    exact hw'

end BindingLists

theorem Step.careful (host : Host) (step : Step) (call : Call) :
    Careful ((step.passes host).answer call) := by
  cases call with
  | visit r =>
    cases step with
    | pruneSelectors => exact Unfailing.careful ⟨fun _ => trivial⟩
    | shortenTypes => exact (ShortTypes.unfailing_visit r).careful
    | promoteSettings => exact (QueueSettings.unfailing_visit r).careful
    | setQueuePolicy => exact (QueuePolicy.unfailing_visit r).careful
    | addMissingExchanges => exact MissingExchanges.careful_visit host r
    | listBindings => exact BindingLists.careful_visit r
    | bump _ target => exact (RootVersion.unfailing_visit target r).careful
  | complete =>
    cases step with
    | pruneSelectors => exact (Selectors.unfailing_complete host).careful
    | shortenTypes => exact (ShortTypes.unfailing_complete host).careful
    | promoteSettings | setQueuePolicy | bump => exact Unfailing.careful ⟨fun _ => trivial⟩
    | addMissingExchanges => exact MissingExchanges.careful_complete host
    | listBindings => exact BindingLists.careful_complete

namespace TwoPass

variable {p : TwoPass}

theorem serve_before (w : Work p.State) (call : Call) : (p.serve w call).before = w := by
  unfold serve
  split <;> rfl

theorem changes_serve {w : Work p.State} {call : Call} (h : Careful (p.answer call)) {e : Failure}
    (he : (p.serve w call).result = .error e) : (p.serve w call).after.changes = w.changes := by
  have hends := h.ends w
  unfold Ends at hends
  cases hm : p.answer call w with
  | ok a after => simp [serve, hm] at he
  | error e' after =>
    rw [hm] at hends
    simpa [serve, hm] using hends

theorem changes_session (h : ∀ call, Careful (p.answer call)) {w : Work p.State}
    {calls : List Call} {served : Served p.State} (hs : served ∈ p.session w calls) {e : Failure}
    (he : served.result = .error e) : served.after.changes = served.before.changes := by
  induction calls generalizing w with
  | nil => cases hs
  | cons call rest ih =>
    rcases List.mem_cons.1 hs with rfl | hs
    · rw [serve_before]
      exact changes_serve (h call) he
    · exact ih hs

end TwoPass

/-- Whatever the calls before it, one that fails leaves all that is waiting as it was. -/
theorem failed_calls_stage_nothing (config : Config) (step : Step) (changes : Changes)
    (calls : List Call) :
    let p := step.passes (Host.ofConfig config)
    ∀ served ∈ p.session (p.begin changes) calls, ∀ e, served.result = .error e →
      served.after.changes = served.before.changes := by
  intro p served hs e he
  exact TwoPass.changes_session (step.careful (Host.ofConfig config)) hs he

theorem failed_calls_stage_nothing_unresolved :
    let inline := fun exchange : String => Json.Value.object [(Attribute.exchange, .text exchange)]
    let named := fun (id : BitVec 128) (category name : String) =>
      (Record.bare ⟨id⟩ category).withAttribute Attribute.name (.text name)
    let orders := named 1 Category.exchange "orders"
    let queue := named 2 Category.queue "q"
    let bound := queue.withAttribute Attribute.bindings (.array [inline "orders", inline "lost"])
    let p := Step.listBindings.passes (Host.ofConfig .default)
    let calls := [Call.visit orders, .visit bound, .complete, .complete]
    let visited := p.serve (p.serve (p.begin Changes.empty) (.visit orders)).after (.visit bound)
    let served := p.serve visited.after .complete
    served ∈ p.session (p.begin Changes.empty) calls ∧
      served.result = .error (.unresolvedExchange "q" "lost") ∧
      served.before.changes = Changes.empty.update queue ∧
      served.after.changes = served.before.changes := by
  intro inline named orders queue bound p calls visited served
  have hmem : served ∈ p.session (p.begin Changes.empty) calls := by
    simp [calls, TwoPass.session, served, visited]
  have he : served.result = .error (.unresolvedExchange "q" "lost") := by decide +kernel
  have hwaiting : served.before.changes = Changes.empty.update queue := by decide +kernel
  have hkept := failed_calls_stage_nothing .default .listBindings Changes.empty calls served hmem
    _ he
  refine ⟨hmem, he, hwaiting, ?_⟩
  rw [hkept]

end BrokerConfig.Upgrade
