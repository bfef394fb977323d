import BrokerConfig.Proofs.Footprint
import BrokerConfig.Proofs.Route
import BrokerConfig.Sample

namespace BrokerConfig.Upgrade

def replay (commits : List Commit) (s : RecordSet) : RecordSet :=
  commits.foldl (fun s c => s.apply c.changes) s

structure DeclaredAt (host : Host) (version : String) (s : RecordSet) : Prop where
  declared : declaredVersion s = .ok version
  lasting : ∃ r ∈ s.records, r.isRoot ∧ host.isDefaultId r.id = false

theorem declaredVersion_of_roots {s : RecordSet} {version : String} {r : Record}
    (hr : r ∈ s.records) (hroot : r.isRoot)
    (h : ∀ u ∈ s.records, u.isRoot → u.attribute? Attribute.modelVersion = some (.text version)) :
    declaredVersion s = .ok version := by
  have hsome : (s.records.find? Record.isRoot).isSome := List.find?_isSome.2 ⟨r, hr, hroot⟩
  obtain ⟨first, hfirst⟩ := Option.isSome_iff_exists.1 hsome
  have hversion := h first (List.mem_of_find?_eq_some hfirst) (List.find?_some hfirst)
  simp only [declaredVersion, RecordSet.root?, hfirst, Option.bind_some, hversion]

theorem DeclaredAt.apply {host : Host} {version next : String} {s : RecordSet} {c : Changes}
    (h : DeclaredAt host version s) (hc : Footprint host next s s.records c) :
    DeclaredAt host next (s.apply c) := by
  have hroots : ∀ u ∈ (s.apply c).records, u.isRoot →
      u.attribute? Attribute.modelVersion = some (.text next) := by
    intro u hu hroot
    rcases RecordSet.mem_apply.1 hu with hu | ⟨hu, hkept, _⟩
    · exact hc.versioned u hu hroot
    · exact absurd (hc.rooted u hu hroot) hkept
  obtain ⟨r, hr, hroot, hid⟩ := h.lasting
  obtain ⟨u, hu, he⟩ := RecordSet.mem_ids.1 (hc.rooted r hr hroot)
  have hu' : u ∈ (s.apply c).records := RecordSet.mem_apply.2 (.inl hu)
  have huroot : u.isRoot := by
    cases hc.updated u hu with
    | revised hmem hrev =>
      rw [hrev.isRoot, RecordSet.eq_of_mem hmem hr (hrev.id.symm.trans he)]
      exact hroot
    | created heq _ =>
      have hdefault : host.isDefaultId r.id := by
        rw [← he, heq]
        exact host.isDefaultId_defaultId _
      rw [hid] at hdefault
      cases hdefault
  exact ⟨declaredVersion_of_roots hu' huroot hroots, u, hu', huroot, he ▸ hid⟩

namespace Plan

variable {p : Plan}

structure Stopped (p : Plan) (steps : List Step) (s : RecordSet) (answer : Except Failure Outcome)
    (commits : List Commit) (version : String) (rest : List Step) : Prop where
  declared : DeclaredAt p.host version (replay commits s)
  route : p.route? version = some rest
  same : p.through rest (replay commits s) = p.through steps s
  complete : ∀ outcome, answer = .ok outcome → rest = [] ∧ outcome.records = replay commits s

theorem follow_stopped {sink : Sink} {steps : List Step} {version : String} {s : RecordSet}
    (accepted : List Commit) (outcome : Outcome) (hr : p.route? version = some steps)
    (hs : DeclaredAt p.host version s) :
    ∃ commits reached rest, (p.follow sink steps accepted s outcome).2 = accepted ++ commits ∧
      Stopped p steps s (p.follow sink steps accepted s outcome).1 commits reached rest := by
  induction steps generalizing version s accepted outcome with
  | nil =>
    refine ⟨[], version, [], (List.append_nil _).symm, hs, hr, rfl, ?_⟩
    rintro final hf
    cases hf
    exact ⟨rfl, rfl⟩
  | cons step rest ih =>
    have hfail : ∀ e : Failure, Stopped p (step :: rest) s (.error e) [] version (step :: rest) :=
      fun e => ⟨hs, hr, rfl, fun _ h => by cases h⟩
    simp only [follow]
    cases he : (step.passes p.host).effect s with
    | error e => exact ⟨[], _, _, (List.append_nil _).symm, hfail e⟩
    | ok changes =>
      cases hsink : sink accepted (commitOf step changes) with
      | some cause =>
        simp only [hsink]
        exact ⟨[], _, _, (List.append_nil _).symm, hfail _⟩
      | none =>
        simp only [hsink]
        -- the set that the commit leaves declares the version where the rest of the route starts
        have hnext := hs.apply ((Step.footprint step).of_effect_ok he)
        obtain ⟨commits, reached, left, hcommits, h⟩ := ih (accepted ++ [commitOf step changes])
          (outcome.add (commitOf step changes)) (route?_cons hr).2.2.2 hnext
        refine ⟨commitOf step changes :: commits, reached, left, by simpa using hcommits, ?_⟩
        have hthrough : p.through (step :: rest) s = p.through rest (s.apply changes) := by
          rw [through, he]
        exact ⟨h.declared, h.route, h.same.trans hthrough.symm, h.complete⟩

theorem isEmpty_of_mem {s : RecordSet} {r : Record} (h : r ∈ s.records) : s.isEmpty = false := by
  rw [RecordSet.isEmpty, List.isEmpty_eq_false_iff]
  exact List.ne_nil_of_mem h

def finalRecords (result : EStateM.Result Failure Journal Outcome) : Except Failure (List Record) :=
  (ended result).1.map fun outcome => outcome.records.records

theorem ended_upgrade_declared {version : String} {steps : List Step} {s : RecordSet} {sink : Sink}
    (hs : DeclaredAt p.host version s) (hr : p.route? version = some steps) :
    ended (p.upgradeSet sink s Journal.empty) =
      p.follow sink steps [] s (.unchanged s version) := by
  obtain ⟨r, hmem, _⟩ := hs.lasting
  rw [ended_upgradeSet (isEmpty_of_mem hmem), hs.declared]
  simp only [hr]
  rfl

theorem finalRecords_declared {version : String} {steps : List Step} {s : RecordSet}
    (hs : DeclaredAt p.host version s) (hr : p.route? version = some steps) :
    finalRecords (p.upgradeSet .acceptAll s Journal.empty) =
      (p.through steps s).map RecordSet.records := by
  rw [finalRecords, ended_upgrade_declared hs hr, ← follow_acceptAll (p := p) steps []]
  cases (p.follow .acceptAll steps [] s (.unchanged s version)).1 <;> rfl

theorem upgrade_records (s : RecordSet) : p.upgrade s.records = p.upgradeSet .acceptAll s := by
  rw [upgrade, upgradeWith, RecordSet.ofList_records]

/-- However far an upgrade gets, an upgrade of the records written so far ends as an upgrade that is
not broken off; after a complete one there is nothing left to do. -/
theorem upgrade_resumes (p : Plan) (input : List Record) (sink : Sink)
    (hroot : ∃ r ∈ (RecordSet.ofList input).records, r.isRoot ∧ p.host.isDefaultId r.id = false) :
    let first := ended (p.upgradeWith sink input Journal.empty)
    let written := replay first.2 (RecordSet.ofList input)
    finalRecords (p.upgrade written.records Journal.empty) =
        finalRecords (p.upgrade input Journal.empty) ∧
      ∀ outcome, first.1 = .ok outcome →
        ∃ again, (ended (p.upgrade written.records Journal.empty)).1 = .ok again ∧
          again.steps = [] ∧ again.net = Changes.empty ∧
          again.records = outcome.records ∧ written = outcome.records := by
  intro first written
  have hne : (RecordSet.ofList input).isEmpty = false := by
    obtain ⟨r, hr, _⟩ := hroot
    exact isEmpty_of_mem hr
  have hfirst : first = ended (p.upgradeSet sink (RecordSet.ofList input) Journal.empty) := rfl
  rw [ended_upgradeSet hne] at hfirst
  rw [upgrade_records]
  cases hv : declaredVersion (RecordSet.ofList input) with
  | error e =>
    simp only [hv] at hfirst
    have hw : written = RecordSet.ofList input := by simp [written, hfirst, replay, Journal.empty]
    rw [hw]
    exact ⟨rfl, fun outcome ho => by simp [hfirst] at ho⟩
  | ok version =>
    cases hr : p.route? version with
    | none =>
      simp only [hv, hr] at hfirst
      have hw : written = RecordSet.ofList input := by simp [written, hfirst, replay, Journal.empty]
      rw [hw]
      exact ⟨rfl, fun outcome ho => by simp [hfirst] at ho⟩
    | some steps =>
      have hs : DeclaredAt p.host version (RecordSet.ofList input) := ⟨hv, hroot⟩
      obtain ⟨commits, reached, rest, hcommits, h⟩ := @follow_stopped p sink steps version _ []
        (.unchanged (RecordSet.ofList input) version) hr hs
      simp only [hv, hr] at hfirst
      have hw : written = replay commits (RecordSet.ofList input) := by
        simp only [written, hfirst]
        rw [show Journal.empty.commits = [] from rfl, hcommits, List.nil_append]
      rw [hw]
      constructor
      · rw [finalRecords_declared h.declared h.route, h.same]
        exact (finalRecords_declared hs hr).symm
      · intro outcome ho
        rw [hfirst] at ho
        obtain ⟨hrest, hrecords⟩ := h.complete outcome ho
        rw [ended_upgrade_declared h.declared h.route, hrest]
        exact ⟨_, rfl, rfl, rfl, hrecords.symm, hrecords.symm⟩

theorem upgrade_resumes_legacy :
    let p := standard (.ofHost Sample.hostName)
    let input := Sample.legacy fun n => ⟨BitVec.ofNat 128 (n + 1)⟩
    let first := ended (p.upgradeWith (.refuseFrom "0.4" "disk full") input Journal.empty)
    (∃ r ∈ (RecordSet.ofList input).records, r.isRoot ∧ p.host.isDefaultId r.id = false) ∧
      first.2.length = 4 ∧
      finalRecords (p.upgrade (replay first.2 (RecordSet.ofList input)).records Journal.empty) =
        finalRecords (p.upgrade input Journal.empty) := by
  intro p input first
  have hroot : ∃ r ∈ (RecordSet.ofList input).records, r.isRoot ∧ p.host.isDefaultId r.id = false := by
    decide +kernel
  exact ⟨hroot, by decide +kernel, (upgrade_resumes p input (.refuseFrom "0.4" "disk full") hroot).1⟩

/-- A queue that comes after a virtual host of its id takes the place of the host, so no record is
left to declare a version, and an upgrade of the records written starts over and drops the owner. -/
def overriddenHost : List Record :=
  [Record.bare ⟨1⟩ Category.virtualHost,
    Record.bare ⟨1⟩ Category.queue
      |>.withAttribute Attribute.exclusive (.bool true)
      |>.withAttribute Attribute.owner (.text "alice")]

def policyPlan : Plan :=
  ⟨[.bump "0.0" "0.3", .setQueuePolicy], "0.4", Host.ofConfig .default,
    Chain.flaw?_eq_none_iff.1 (by decide)⟩

theorem not_resumes_overridden :
    ¬ ∀ (p : Plan) (input : List Record) (sink : Sink),
      (∃ r ∈ input, r.isRoot ∧ p.host.isDefaultId r.id = false) →
        let first := ended (p.upgradeWith sink input Journal.empty)
        finalRecords (p.upgrade (replay first.2 (RecordSet.ofList input)).records Journal.empty) =
          finalRecords (p.upgrade input Journal.empty) := by
  intro h
  have hroot : ∃ r ∈ overriddenHost, r.isRoot ∧ policyPlan.host.isDefaultId r.id = false := by
    decide +kernel
  have hsame := congrArg Except.toOption (h policyPlan overriddenHost .acceptAll hroot)
  revert hsame
  decide +kernel

end Plan

end BrokerConfig.Upgrade
