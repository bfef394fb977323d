import Mathlib.Data.List.TakeWhile
import BrokerConfig.Proofs.Consolidation
import BrokerConfig.Proofs.Route
import BrokerConfig.Sample

/-!
The steps that an upgrade runs. Its loop is told once more without a bound on the number of steps;
along a chain without flaws it comes to an end by itself, after one block of consecutive steps.
-/

namespace BrokerConfig.Upgrade

def Failure.isOfStep : Failure → Bool
  | unresolvedParent .. | unresolvedExchange .. | missingQueueName _ | missingRootRecord _ => true
  | brokenChain _ | unsupportedVersion .. | unreadableVersion _ | sink .. => false

theorem BindingLists.isOfStep_of_fails {s : RecordSet} {e : Failure} (h : Fails s e) :
    e.isOfStep := by
  cases h <;> rfl

theorem MissingExchanges.fails_ofStep (host : Host) (s : RecordSet) :
    (passes host).Yields s (fun _ => True) fun e => e.isOfStep := by
  have hvisit : ∀ (r : Record) (w : Work State),
      Ends (visit host r) w (fun _ _ => True) fun e _ => e.isOfStep := by
    intro r w
    unfold visit
    split
    · trivial
    · split
      · trivial
      · split
        · unfold visitQueue
          split
          · cases r.name? with
            | none => rfl
            | some name =>
              by_cases hn : name = ""
              · simp [hn, Failure.isOfStep]
              · simp only [hn, if_false, ends_bind, Pass.ends_getState]
                split <;> trivial
          · trivial
        · trivial
  rw [yields_iff]
  apply (Pass.ends_each (fun _ _ => True) trivial fun _ r _ _ w _ => hvisit r w).imp
  intro _ w _
  rw [ends_complete]
  have hcreate : ∀ (e : DefaultExchange) (w : Work State),
      Ends (create host e) w (fun _ _ => True) fun e _ => e.isOfStep := by
    intro e w
    unfold create
    cases hroot : w.state.root with
    | none => simp [hroot, Failure.isOfStep]
    | some root => simp [hroot]
  apply (Pass.ends_each (fun _ _ => True) trivial fun _ e _ _ w _ => hcreate e w).imp
  intro _ w' _
  apply Pass.ends_each (fun _ _ => True) trivial
  intro _ q _ _ w'' _
  unfold settleOne
  split <;> trivial

theorem Step.isOfStep_of_effect {step : Step} {host : Host} {s : RecordSet} {e : Failure}
    (h : (step.passes host).effect s = .error e) : e.isOfStep := by
  cases step with
  | pruneSelectors => exact (Selectors.decides.of_effect_error h).elim
  | shortenTypes => exact (ShortTypes.decides.of_effect_error h).elim
  | promoteSettings => exact (QueueSettings.decides.of_effect_error h).elim
  | setQueuePolicy => exact (QueuePolicy.decides.of_effect_error h).elim
  | addMissingExchanges => exact (MissingExchanges.fails_ofStep host s).of_effect_error h
  | listBindings =>
    exact BindingLists.isOfStep_of_fails (BindingLists.consolidates.of_effect_error h)
  | bump source target => exact (RootVersion.decides.of_effect_error h).elim

/-- The loop of an upgrade, from a version that the records have reached, with the steps that it
begins and the answer and the accepted commits that it ends with. It looks a step up as long as the
version is not the target. -/
inductive Loop (p : Plan) (sink : Sink) : String → RecordSet → Outcome → List Commit → List Step →
    Except Failure Outcome × List Commit → Prop
  | reached {s : RecordSet} {o : Outcome} {accepted : List Commit} :
      Loop p sink p.target s o accepted [] (.ok { o with records := s }, accepted)
  | unsupported {version : String} {s : RecordSet} {o : Outcome} {accepted : List Commit}
      (pending : version ≠ p.target) (unknown : ∀ step ∈ p.chain, step.source ≠ version) :
      Loop p sink version s o accepted []
        (.error (.unsupportedVersion version p.target), accepted)
  | failed {step : Step} {s : RecordSet} {o : Outcome} {accepted : List Commit} {e : Failure}
      (pending : step.source ≠ p.target) (known : step ∈ p.chain)
      (effect : (step.passes p.host).effect s = .error e) :
      Loop p sink step.source s o accepted [step] (.error e, accepted)
  | refused {step : Step} {s : RecordSet} {o : Outcome} {accepted : List Commit}
      {changes : Changes} {cause : String} (pending : step.source ≠ p.target)
      (known : step ∈ p.chain) (effect : (step.passes p.host).effect s = .ok changes)
      (answer : sink accepted (commitOf step changes) = some cause) :
      Loop p sink step.source s o accepted [step]
        (.error (.sink step.source step.target cause), accepted)
  | committed {step : Step} {s : RecordSet} {o : Outcome} {accepted : List Commit}
      {changes : Changes} {begun : List Step} {result : Except Failure Outcome × List Commit}
      (pending : step.source ≠ p.target) (known : step ∈ p.chain)
      (effect : (step.passes p.host).effect s = .ok changes)
      (answer : sink accepted (commitOf step changes) = none)
      (rest : Loop p sink step.target (s.apply changes) (o.add (commitOf step changes))
        (accepted ++ [commitOf step changes]) begun result) :
      Loop p sink step.source s o accepted (step :: begun) result

structure Block (chain : List Step) (version target : String) (steps : List Step) : Prop where
  consecutive : steps <:+: chain
  starts : steps.head?.map Step.source = some version
  ends : steps.getLast?.map Step.target = some target
  first : ∀ step ∈ steps.dropLast, step.target ≠ target

theorem upTo_initial (target : String) (steps : List Step) : upTo target steps <+: steps := by
  induction steps with
  | nil => exact List.prefix_rfl
  | cons step rest ih =>
    unfold upTo
    split
    · exact ⟨rest, rfl⟩
    · exact List.prefix_cons_inj step |>.2 ih

theorem first_upTo (target : String) (steps : List Step) :
    ∀ step ∈ (upTo target steps).dropLast, step.target ≠ target := by
  induction steps with
  | nil => simp [upTo]
  | cons step rest ih =>
    unfold upTo
    split
    · simp
    · rename_i hne
      cases hrest : upTo target rest with
      | nil => simp
      | cons next steps =>
        rw [hrest] at ih
        simpa using ⟨hne, ih⟩

theorem ends_upTo {target : String} {steps : List Step}
    (h : steps.getLast?.map Step.target = some target) :
    (upTo target steps).getLast?.map Step.target = some target := by
  induction steps with
  | nil => simp at h
  | cons step rest ih =>
    unfold upTo
    split
    · rename_i heq
      simpa using heq
    · rename_i hne
      cases rest with
      | nil => exact absurd (by simpa using h) hne
      | cons next rest =>
        have hlast := ih (by simpa [List.getLast?_cons_cons] using h)
        rwa [show upTo target (next :: rest) = next :: _ from rfl, List.getLast?_cons_cons]

namespace Plan

variable {p : Plan} {sink : Sink} {version : String} {steps : List Step}

theorem stepsFrom_eq_nil_iff :
    p.stepsFrom version = [] ↔ ∀ step ∈ p.chain, step.source ≠ version := by
  rw [stepsFrom, List.dropWhile_eq_nil_iff]
  simp only [decide_eq_true_eq]

theorem target_of_route?_nil (h : p.route? version = some []) : version = p.target := by
  by_contra ht
  cases hs : p.stepsFrom version with
  | nil =>
    rw [route?_eq_none ht hs] at h
    cases h
  | cons step rest =>
    obtain ⟨steps, hr, _⟩ := route?_eq_cons ht hs
    rw [hr] at h
    cases h

theorem route?_eq_none_iff :
    p.route? version = none ↔ version ≠ p.target ∧ ∀ step ∈ p.chain, step.source ≠ version := by
  rw [← stepsFrom_eq_nil_iff]
  constructor
  · intro h
    have ht : version ≠ p.target := by
      rintro rfl
      rw [route?_target] at h
      cases h
    cases hs : p.stepsFrom version with
    | nil => exact ⟨ht, rfl⟩
    | cons step rest =>
      obtain ⟨steps, hr, _⟩ := route?_eq_cons ht hs
      rw [hr] at h
      cases h
  · rintro ⟨ht, hs⟩
    exact route?_eq_none ht hs

theorem block_of_route (ht : version ≠ p.target) (hr : p.route? version = some steps) :
    Block p.chain version p.target steps := by
  cases hs : p.stepsFrom version with
  | nil =>
    rw [route?_eq_none ht hs] at hr
    cases hr
  | cons step rest =>
    have hsteps : steps = upTo p.target (step :: rest) := by
      simpa [route?, ht, hs] using hr.symm
    have hsuffix : step :: rest <:+ p.chain := hs ▸ List.dropWhile_suffix _
    obtain ⟨last, hlast, htarget⟩ := p.valid.reaches
    subst hsteps
    constructor
    case consecutive => exact (upTo_initial _ _).isInfix.trans hsuffix.isInfix
    case starts => simp [upTo, source_of_stepsFrom hs]
    case ends =>
      apply ends_upTo
      obtain ⟨before, hchain⟩ := hsuffix
      rw [← hchain, List.getLast?_append_of_ne_nil _ (by simp)] at hlast
      rw [hlast, Option.map_some, htarget]
    case first => exact first_upTo _ _

theorem route_within (hr : p.route? version = some steps) : steps <:+: p.chain := by
  by_cases ht : version = p.target
  · rw [ht, route?_target] at hr
    cases hr
    exact List.nil_infix
  · exact (block_of_route ht hr).consecutive

theorem loop_of_route {s : RecordSet} {o : Outcome} {accepted : List Commit}
    (hr : p.route? version = some steps) (hfinal : o.final = version) :
    ∃ begun, Loop p sink version s o accepted begun (p.follow sink steps accepted s o) ∧
      begun <+: steps ∧
      ∀ done, (p.follow sink steps accepted s o).1 = .ok done → begun = steps ∧
        done.final = p.target ∧
        done.steps = o.steps ++ steps.map fun step => (step.source, step.target) := by
  induction steps generalizing version s o accepted with
  | nil =>
    have ht := target_of_route?_nil hr
    subst ht
    refine ⟨[], .reached, List.prefix_rfl, ?_⟩
    rintro done hdone
    cases hdone
    exact ⟨rfl, hfinal, (List.append_nil _).symm⟩
  | cons step rest ih =>
    obtain ⟨ht, rfl, hmem, hnext⟩ := route?_cons hr
    have hone : [step] <+: step :: rest := ⟨rest, rfl⟩
    simp only [follow]
    cases he : (step.passes p.host).effect s with
    | error e => exact ⟨[step], .failed ht hmem he, hone, fun _ hdone => by cases hdone⟩
    | ok changes =>
      cases hsink : sink accepted (commitOf step changes) with
      | some cause =>
        simp only [hsink]
        exact ⟨[step], .refused ht hmem he hsink, hone, fun _ hdone => by cases hdone⟩
      | none =>
        simp only [hsink]
        obtain ⟨begun, hloop, hprefix, hdone⟩ := @ih step.target (s.apply changes)
          (o.add (commitOf step changes)) (accepted ++ [commitOf step changes]) hnext rfl
        refine ⟨step :: begun, .committed ht hmem he hsink hloop,
          List.prefix_cons_inj step |>.2 hprefix, ?_⟩
        intro done h
        obtain ⟨rfl, hfinal, hsteps⟩ := hdone done h
        refine ⟨rfl, hfinal, hsteps.trans ?_⟩
        simp [Outcome.add, commitOf]

theorem isEmpty_ofList {input : List Record} :
    (RecordSet.ofList input).isEmpty = input.isEmpty := by
  cases input with
  | nil => rfl
  | cons r rest =>
    have hid : r.id ∈ (RecordSet.ofList (r :: rest)).ids :=
      RecordSet.mem_ids_insertAll.2 (.inr (by simp))
    obtain ⟨u, hu, _⟩ := RecordSet.mem_ids.1 hid
    simpa [RecordSet.isEmpty] using List.ne_nil_of_mem hu

theorem upgrade_unsupported {input : List Record} (hne : input ≠ [])
    (hv : declaredVersion (RecordSet.ofList input) = .ok version) (ht : version ≠ p.target)
    (hnone : ∀ step ∈ p.chain, step.source ≠ version) :
    p.upgradeWith sink input .empty = .error (.unsupportedVersion version p.target)
      ⟨[], [.upgrading (RecordSet.ofList input).size version p.target]⟩ := by
  have hempty : (RecordSet.ofList input).isEmpty = false := by
    rw [isEmpty_ofList]
    simpa using hne
  have hfind : (p.chain.find? fun step => step.source = version) = none := by
    simpa using hnone
  obtain ⟨last, hlast, _⟩ := p.valid.reaches
  have hchain : p.chain ≠ [] := by
    rintro hnil
    simp [hnil] at hlast
  obtain ⟨spare, hspare⟩ := Nat.exists_eq_succ_of_ne_zero
    (fun h => hchain (List.eq_nil_of_length_eq_zero h))
  simp [upgradeWith, upgradeSet, hempty, hv, ht, hspare, advance, stepFrom, hfind, report, bind,
    EStateM.bind, run_modify, run_throw, Journal.empty]

theorem follow_error {s : RecordSet} {o : Outcome} {accepted : List Commit} {e : Failure}
    (h : (p.follow sink steps accepted s o).1 = .error e) :
    e.isOfStep ∨ ∃ source target cause, e = .sink source target cause := by
  induction steps generalizing s o accepted with
  | nil => cases h
  | cons step rest ih =>
    simp only [follow] at h
    cases he : (step.passes p.host).effect s with
    | error e' =>
      rw [he] at h
      cases h
      exact .inl (Step.isOfStep_of_effect he)
    | ok changes =>
      simp only [he] at h
      cases hsink : sink accepted (commitOf step changes) with
      | some cause =>
        simp only [hsink] at h
        cases h
        exact .inr ⟨_, _, cause, rfl⟩
      | none =>
        simp only [hsink] at h
        exact ih h

theorem declaredVersion_error {s : RecordSet} {e : Failure} (h : declaredVersion s = .error e) :
    ∃ value, e = .unreadableVersion value := by
  unfold declaredVersion at h
  split at h <;> cases h
  exact ⟨_, rfl⟩

theorem ended_upgrade_nil : ended (p.upgradeWith sink [] .empty) =
    (.ok (.unchanged (RecordSet.ofList []) p.target), []) :=
  rfl

theorem ended_upgrade_of_ne_nil {input : List Record} (hne : input ≠ []) :
    ended (p.upgradeWith sink input .empty) =
      match declaredVersion (RecordSet.ofList input) with
      | .error e => (.error e, [])
      | .ok version =>
        match p.route? version with
        | none => (.error (.unsupportedVersion version p.target), [])
        | some steps => p.follow sink steps [] (RecordSet.ofList input)
            (.unchanged (RecordSet.ofList input) version) := by
  apply ended_upgradeSet
  rw [isEmpty_ofList]
  simpa using hne

theorem unsupported_iff {input : List Record} {target : String} :
    (ended (p.upgradeWith sink input .empty)).1 = .error (.unsupportedVersion version target) ↔
      input ≠ [] ∧ declaredVersion (RecordSet.ofList input) = .ok version ∧ target = p.target ∧
        version ≠ p.target ∧ ∀ step ∈ p.chain, step.source ≠ version := by
  by_cases hne : input = []
  · subst hne
    simp [ended_upgrade_nil]
  rw [ended_upgrade_of_ne_nil hne]
  cases hv : declaredVersion (RecordSet.ofList input) with
  | error e =>
    obtain ⟨value, rfl⟩ := declaredVersion_error hv
    simp
  | ok declared =>
    cases hr : p.route? declared with
    | none =>
      have hnone := route?_eq_none_iff.1 hr
      simp only [hr, Except.error.injEq, Failure.unsupportedVersion.injEq, Except.ok.injEq]
      constructor
      · rintro ⟨rfl, rfl⟩
        exact ⟨hne, rfl, rfl, hnone⟩
      · rintro ⟨_, rfl, rfl, _⟩
        exact ⟨rfl, rfl⟩
    | some steps =>
      simp only [hr]
      constructor
      · intro h
        rcases follow_error h with hstep | ⟨_, _, _, hsink⟩
        · cases hstep
        · cases hsink
      · rintro ⟨_, hdeclared, _, hnone⟩
        cases hdeclared
        rw [route?_eq_none_iff.2 hnone] at hr
        cases hr

theorem upgrade_loops {input : List Record} (hne : input ≠ [])
    (hv : declaredVersion (RecordSet.ofList input) = .ok version) :
    ∃ begun, Loop p sink version (RecordSet.ofList input)
        (.unchanged (RecordSet.ofList input) version) [] begun
        (ended (p.upgradeWith sink input .empty)) ∧
      begun.length ≤ p.chain.length ∧ (begun.map Step.source).Nodup ∧
      ∀ o, (ended (p.upgradeWith sink input .empty)).1 = .ok o → o.final = p.target ∧
        o.steps = begun.map (fun step => (step.source, step.target)) ∧
        if version = p.target then begun = [] else Block p.chain version p.target begun := by
  rw [ended_upgrade_of_ne_nil hne, hv]
  dsimp only
  cases hr : p.route? version with
  | none =>
    obtain ⟨ht, hnone⟩ := route?_eq_none_iff.1 hr
    exact ⟨[], .unsupported ht hnone, Nat.zero_le _, List.nodup_nil, fun _ h => by cases h⟩
  | some steps =>
    obtain ⟨begun, hloop, hprefix, hdone⟩ := @loop_of_route p sink version steps
      (RecordSet.ofList input) (.unchanged (RecordSet.ofList input) version) [] hr rfl
    have hwithin : begun <:+: p.chain := hprefix.isInfix.trans (route_within hr)
    refine ⟨begun, hloop, hwithin.length_le, p.valid.distinct.sublist (hwithin.sublist.map _), ?_⟩
    intro o ho
    obtain ⟨rfl, hfinal, hsteps⟩ := hdone o ho
    refine ⟨hfinal, hsteps, ?_⟩
    split
    · rename_i ht
      rw [ht, route?_target] at hr
      cases hr
      rfl
    · rename_i ht
      exact block_of_route ht hr

theorem upgrade_runs_block (p : Plan) (sink : Sink) (input : List Record) :
    let s := RecordSet.ofList input
    let result := ended (p.upgradeWith sink input .empty)
    (input = [] → result = (.ok (.unchanged s p.target), [])) ∧
    (∀ e, input ≠ [] → declaredVersion s = .error e → result = (.error e, [])) ∧
    (∀ version, input ≠ [] → declaredVersion s = .ok version →
      ∃ begun, Loop p sink version s (.unchanged s version) [] begun result ∧
        begun.length ≤ p.chain.length ∧ (begun.map Step.source).Nodup ∧
        ∀ o, result.1 = .ok o → o.final = p.target ∧
          o.steps = begun.map (fun step => (step.source, step.target)) ∧
          if version = p.target then begun = [] else Block p.chain version p.target begun) ∧
    (∀ version target, result.1 = .error (.unsupportedVersion version target) ↔
      input ≠ [] ∧ declaredVersion s = .ok version ∧ target = p.target ∧ version ≠ p.target ∧
        ∀ step ∈ p.chain, step.source ≠ version) ∧
    -- no step and no commit has been reported, and the receiver has no part in the answer
    (∀ version target, result.1 = .error (.unsupportedVersion version target) →
      p.upgradeWith sink input .empty =
        .error (.unsupportedVersion version target) ⟨[], [.upgrading s.size version target]⟩) := by
  refine ⟨?_, ?_, fun _ => upgrade_loops, fun _ _ => unsupported_iff, ?_⟩
  · rintro rfl
    exact ended_upgrade_nil
  · intro e hne hv
    rw [ended_upgrade_of_ne_nil hne, hv]
  · intro version target h
    obtain ⟨hne, hv, rfl, ht, hnone⟩ := unsupported_iff.1 h
    exact upgrade_unsupported hne hv ht hnone

/-- The target of a chain may be left again by it. An upgrade stops there the first time. -/
def returningPlan : Plan :=
  ⟨[.bump "a" "b", .bump "b" "c", .bump "c" "b"], "b", Host.ofConfig .default,
    Chain.flaw?_eq_none_iff.1 (by decide)⟩

example : (ended (returningPlan.upgrade [Sample.host ⟨1⟩ (some "a")] .empty)).1.toOption.map
    Outcome.steps = some [("a", "b")] := by
  decide +kernel

end Plan

end BrokerConfig.Upgrade
