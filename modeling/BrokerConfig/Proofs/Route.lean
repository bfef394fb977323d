import BrokerConfig.Proofs.Passes
import BrokerConfig.Upgrade.Plan

namespace BrokerConfig.Upgrade

namespace TwoPass

def effect (p : TwoPass) (s : RecordSet) : Except Failure Changes :=
  match p.run s p.start with
  | .ok _ w => .ok w.changes
  | .error e _ => .error e

theorem Yields.of_effect_ok {p : TwoPass} {s : RecordSet} {done : Changes → Prop}
    {failed : Failure → Prop} {c : Changes} (h : p.Yields s done failed) (he : p.effect s = .ok c) :
    done c := by
  unfold Yields Ends at h
  unfold effect at he
  split at h
  · rename_i hw
    rw [hw] at he
    cases he
    exact h
  · rename_i hw
    rw [hw] at he
    cases he

theorem Yields.of_effect_error {p : TwoPass} {s : RecordSet} {done : Changes → Prop}
    {failed : Failure → Prop} {e : Failure} (h : p.Yields s done failed)
    (he : p.effect s = .error e) : failed e := by
  unfold Yields Ends at h
  unfold effect at he
  split at h
  · rename_i hw
    rw [hw] at he
    cases he
  · rename_i hw
    rw [hw] at he
    cases he
    exact h

end TwoPass

def ended {α : Type} : EStateM.Result Failure Journal α → Except Failure α × List Commit
  | .ok a j => (.ok a, j.commits)
  | .error e j => (.error e, j.commits)

def commitOf (step : Step) (changes : Changes) : Commit := ⟨step.source, step.target, changes⟩

def upTo (target : String) : List Step → List Step
  | [] => []
  | step :: rest => step :: if step.target = target then [] else upTo target rest

namespace Plan

variable (p : Plan)

def stepsFrom (version : String) : List Step :=
  p.chain.dropWhile fun step => step.source ≠ version

def route? (version : String) : Option (List Step) :=
  if version = p.target then some []
  else if p.stepsFrom version = [] then none
  else some (upTo p.target (p.stepsFrom version))

def follow (sink : Sink) : List Step → List Commit → RecordSet → Outcome →
    Except Failure Outcome × List Commit
  | [], accepted, records, outcome => (.ok { outcome with records }, accepted)
  | step :: rest, accepted, records, outcome =>
    match (step.passes p.host).effect records with
    | .error e => (.error e, accepted)
    | .ok changes =>
      match sink accepted (commitOf step changes) with
      | some cause => (.error (.sink step.source step.target cause), accepted)
      | none => follow sink rest (accepted ++ [commitOf step changes]) (records.apply changes)
          (outcome.add (commitOf step changes))

variable {p}

theorem find?_eq_head? {version : String} :
    (p.chain.find? fun step => step.source = version) = (p.stepsFrom version).head? := by
  unfold stepsFrom
  induction p.chain with
  | nil => rfl
  | cons step rest ih =>
    by_cases h : step.source = version
    · simp [h]
    · simpa [h] using ih

theorem source_of_stepsFrom {version : String} {step : Step} {rest : List Step}
    (h : p.stepsFrom version = step :: rest) : step.source = version := by
  have hf := @find?_eq_head? p version
  rw [h, List.head?_cons] at hf
  simpa using List.find?_some hf

theorem target_eq_source {before rest : List Step} {step next : Step}
    (h : Chain.Contiguous (before ++ step :: next :: rest)) : step.target = next.source := by
  induction before with
  | nil =>
    cases h with
    | link joined _ => exact joined
  | cons first before ih =>
    cases before with
    | nil =>
      cases h with
      | link _ tail => exact ih tail
    | cons second before =>
      cases h with
      | link _ tail => exact ih tail

theorem stepsFrom_target {version : String} {step : Step} {rest : List Step}
    (h : p.stepsFrom version = step :: rest) :
    rest = [] ∧ step.target = p.target ∨ rest ≠ [] ∧ p.stepsFrom step.target = rest := by
  obtain ⟨hd, hc, last, hl, ht⟩ := p.valid
  have hchain : p.chain = (p.chain.takeWhile fun step => step.source ≠ version) ++ step :: rest := by
    rw [← h]
    exact List.takeWhile_append_dropWhile.symm
  generalize p.chain.takeWhile (fun step => step.source ≠ version) = before at hchain
  cases rest with
  | nil =>
    left
    rw [hchain, List.getLast?_append, List.getLast?_singleton] at hl
    cases hl
    exact ⟨rfl, ht⟩
  | cons next rest =>
    right
    refine ⟨by simp, ?_⟩
    have hjoin : step.target = next.source := target_eq_source (hchain ▸ hc)
    have hsplit : p.chain = (before ++ [step]) ++ next :: rest := by simp [hchain]
    rw [hsplit, List.map_append, List.nodup_append] at hd
    have hne : ∀ other ∈ before ++ [step], (decide (other.source ≠ step.target)) = true := by
      intro other ho
      rw [hjoin, decide_eq_true_eq]
      exact hd.2.2 _ (List.mem_map_of_mem ho) _ (by simp)
    unfold stepsFrom
    rw [hsplit, List.dropWhile_append_of_pos hne, List.dropWhile_cons]
    simp [hjoin]

theorem route?_target : p.route? p.target = some [] := by
  simp [route?]

theorem route?_eq_none {version : String} (ht : version ≠ p.target)
    (h : p.stepsFrom version = []) : p.route? version = none := by
  simp [route?, ht, h]

theorem route?_eq_cons {version : String} {step : Step} {rest : List Step}
    (ht : version ≠ p.target) (h : p.stepsFrom version = step :: rest) :
    ∃ steps, p.route? version = some (step :: steps) ∧ p.route? step.target = some steps := by
  refine ⟨if step.target = p.target then [] else upTo p.target rest, ?_, ?_⟩
  · simp [route?, ht, h, upTo]
  · rcases stepsFrom_target h with ⟨_, hs⟩ | ⟨hr, hs⟩
    · simp [route?, hs]
    · by_cases htt : step.target = p.target
      · simp [route?, htt]
      · simp [route?, htt, hs, hr]

theorem route?_cons {version : String} {step : Step} {steps : List Step}
    (h : p.route? version = some (step :: steps)) :
    version ≠ p.target ∧ step.source = version ∧ step ∈ p.chain ∧
      p.route? step.target = some steps := by
  by_cases ht : version = p.target
  · rw [ht, route?_target] at h
    cases h
  · cases hs : p.stepsFrom version with
    | nil =>
      rw [route?_eq_none ht hs] at h
      cases h
    | cons first rest =>
      obtain ⟨steps', hr, hn⟩ := route?_eq_cons ht hs
      rw [hr] at h
      cases h
      have hmem : step ∈ p.stepsFrom version := by simp [hs]
      exact ⟨ht, source_of_stepsFrom hs, (List.dropWhile_sublist _).subset hmem, hn⟩

theorem runStep_ok {step : Step} {records : RecordSet} {changes : Changes}
    (h : (step.passes p.host).effect records = .ok changes) (j : Journal) :
    ∃ events, p.runStep step records j = .ok changes ⟨j.commits, events⟩ := by
  unfold TwoPass.effect at h
  unfold runStep
  simp only [bind, EStateM.bind, report, run_modify, pure]
  split at h
  · cases h
    rename_i hw
    rw [hw]
    exact ⟨_, rfl⟩
  · cases h

theorem runStep_error {step : Step} {records : RecordSet} {e : Failure}
    (h : (step.passes p.host).effect records = .error e) (j : Journal) :
    ∃ events, p.runStep step records j = .error e ⟨j.commits, events⟩ := by
  unfold TwoPass.effect at h
  unfold runStep
  simp only [bind, EStateM.bind, report, run_modify, pure]
  split at h
  · cases h
  · cases h
    rename_i hw
    rw [hw]
    exact ⟨_, rfl⟩

theorem submit_refused {sink : Sink} {c : Commit} {j : Journal} {cause : String}
    (h : sink j.commits c = some cause) :
    submit sink c j = .error (.sink c.source c.target cause) j := by
  show (match sink j.commits c with
    | some cause => throw (.sink c.source c.target cause)
    | none => _ : PlanM Unit) j = _
  rw [h]
  rfl

theorem submit_accepted {sink : Sink} {c : Commit} {j : Journal} (h : sink j.commits c = none) :
    submit sink c j = .ok () ⟨j.commits ++ [c], j.events⟩ := by
  show (match sink j.commits c with
    | some cause => throw (.sink c.source c.target cause)
    | none => modify fun j => { j with commits := j.commits ++ [c] } : PlanM Unit) j = _
  rw [h]
  rfl

theorem ended_advance_target (sink : Sink) (spare : Nat) (records : RecordSet) (outcome : Outcome)
    (j : Journal) :
    ended (p.advance sink spare p.target records outcome j) =
      (.ok { outcome with records }, j.commits) := by
  cases spare <;> simp [advance, ended, pure, EStateM.pure]

theorem ended_advance_step {sink : Sink} {spare : Nat} {version : String} {step : Step}
    (records : RecordSet) (outcome : Outcome) (j : Journal) (ht : version ≠ p.target)
    (hf : (p.chain.find? fun step => step.source = version) = some step) :
    ∃ events, ended (p.advance sink (spare + 1) version records outcome j) =
      match (step.passes p.host).effect records with
      | .error e => (.error e, j.commits)
      | .ok changes =>
        match sink j.commits (commitOf step changes) with
        | some cause => (.error (.sink step.source step.target cause), j.commits)
        | none => ended (p.advance sink spare step.target (records.apply changes)
            (outcome.add (commitOf step changes)) ⟨j.commits ++ [commitOf step changes], events⟩) := by
  have hstep : p.stepFrom version j = .ok step j := by
    rw [stepFrom, hf]
    rfl
  rw [advance, if_neg ht]
  show ∃ events, ended (EStateM.bind (p.stepFrom version) _ j) = _
  simp only [EStateM.bind, hstep, bind]
  cases he : (step.passes p.host).effect records with
  | error e =>
    obtain ⟨events, hrun⟩ := runStep_error he j
    simp [hrun, ended]
  | ok changes =>
    obtain ⟨events, hrun⟩ := runStep_ok he j
    cases hsink : sink j.commits (commitOf step changes) with
    | some cause =>
      have hsubmit := @submit_refused sink (commitOf step changes) ⟨j.commits, events⟩ _ hsink
      simp only [commitOf] at hsink hsubmit ⊢
      simp [hrun, hsubmit, hsink, ended]
    | none =>
      have hsubmit := @submit_accepted sink (commitOf step changes) ⟨j.commits, events⟩ hsink
      simp only [commitOf] at hsink hsubmit ⊢
      simp only [hrun, hsubmit, hsink, report, run_modify]
      exact ⟨_, rfl⟩

theorem ended_advance {sink : Sink} {spare : Nat} {version : String} (records : RecordSet)
    (outcome : Outcome) (j : Journal)
    (h : version = p.target ∨ (p.stepsFrom version).length ≤ spare) :
    ended (p.advance sink spare version records outcome j) =
      match p.route? version with
      | none => (.error (.unsupportedVersion version p.target), j.commits)
      | some steps => p.follow sink steps j.commits records outcome := by
  induction spare generalizing version records outcome j with
  | zero =>
    by_cases ht : version = p.target
    · rw [ht, route?_target]
      exact ended_advance_target ..
    · have hs : p.stepsFrom version = [] :=
        List.eq_nil_of_length_eq_zero (Nat.le_zero.1 (h.resolve_left ht))
      simp [route?_eq_none ht hs, advance, ht, ended, run_throw]
  | succ spare ih =>
    by_cases ht : version = p.target
    · rw [ht, route?_target]
      exact ended_advance_target ..
    have hspare := h.resolve_left ht
    have hf : (p.chain.find? fun step => step.source = version) = (p.stepsFrom version).head? :=
      find?_eq_head?
    cases hs : p.stepsFrom version with
    | nil =>
      rw [hs, List.head?_nil] at hf
      simp [route?_eq_none ht hs, advance, ht, ended, stepFrom, hf, bind, EStateM.bind,
        run_throw]
    | cons step rest =>
      rw [hs, List.head?_cons] at hf
      rw [hs, List.length_cons] at hspare
      -- behind each step there is one step less to go
      have hnext : step.target = p.target ∨ (p.stepsFrom step.target).length ≤ spare := by
        rcases stepsFrom_target hs with ⟨_, he⟩ | ⟨_, he⟩
        · exact .inl he
        · rw [he]
          exact .inr (by omega)
      obtain ⟨steps, hr, hn⟩ := route?_eq_cons ht hs
      obtain ⟨events, hstep⟩ := @ended_advance_step p sink spare version step records outcome
        j ht hf
      simp only [hr, follow]
      rw [hstep]
      cases (step.passes p.host).effect records with
      | error e => rfl
      | ok changes =>
        dsimp only
        cases sink j.commits (commitOf step changes) with
        | some cause => rfl
        | none =>
          dsimp only
          rw [ih _ _ _ hnext, hn]

theorem ended_upgradeSet {sink : Sink} {records : RecordSet} (hne : records.isEmpty = false)
    (j : Journal) :
    ended (p.upgradeSet sink records j) =
      match declaredVersion records with
      | .error e => (.error e, j.commits)
      | .ok version =>
        match p.route? version with
        | none => (.error (.unsupportedVersion version p.target), j.commits)
        | some steps => p.follow sink steps j.commits records (.unchanged records version) := by
  unfold upgradeSet
  simp only [hne, Bool.false_eq_true, if_false]
  cases declaredVersion records with
  | error e => rfl
  | ok version =>
    by_cases ht : version = p.target
    · subst ht
      simp only [route?_target, if_true]
      rfl
    · have hl : (p.stepsFrom version).length ≤ p.chain.length :=
        (List.dropWhile_sublist _).length_le
      have hw := @ended_advance p sink p.chain.length version records (.unchanged records version)
        ⟨j.commits, j.events ++ [.upgrading records.size version p.target]⟩ (.inr hl)
      refine Eq.trans ?_ hw
      simp only [ht, if_false]
      show ended (EStateM.bind (p.advance sink _ version records _) _ _) = _
      rw [EStateM.bind]
      cases p.advance sink p.chain.length version records (.unchanged records version)
        ⟨j.commits, j.events ++ [.upgrading records.size version p.target]⟩ <;> rfl

def through (p : Plan) : List Step → RecordSet → Except Failure RecordSet
  | [], s => .ok s
  | step :: rest, s =>
    match (step.passes p.host).effect s with
    | .error e => .error e
    | .ok changes => through p rest (s.apply changes)

theorem follow_acceptAll (steps : List Step) (accepted : List Commit) (s : RecordSet)
    (outcome : Outcome) :
    (p.follow .acceptAll steps accepted s outcome).1.map Outcome.records = p.through steps s := by
  induction steps generalizing accepted s outcome with
  | nil => rfl
  | cons step rest ih =>
    simp only [follow, through]
    cases (step.passes p.host).effect s with
    | error e => rfl
    | ok changes => exact ih ..

end Plan

end BrokerConfig.Upgrade
