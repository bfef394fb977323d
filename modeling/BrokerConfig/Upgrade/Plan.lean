import BrokerConfig.Upgrade.Chain

/-!
Upgrades of a set of records along a chain. The version that the records declare selects the first
step; each step is run over the records, handed to a receiver and committed, until the target is
reached. A failing upgrade keeps the commits that the receiver had accepted.
-/

namespace BrokerConfig.Upgrade

open Json

structure Commit where
  source : String
  target : String
  changes : Changes
  deriving DecidableEq

structure Outcome where
  records : RecordSet
  net : Changes
  source : String
  final : String
  steps : List (String × String)
  deriving DecidableEq

namespace Outcome

def unchanged (records : RecordSet) (version : String) : Outcome :=
  ⟨records, Changes.empty, version, version, []⟩

def add (o : Outcome) (c : Commit) : Outcome :=
  { o with
    net := c.changes.updates.records.foldl Changes.update
      (c.changes.deletes.records.foldl Changes.delete o.net)
    final := c.target
    steps := o.steps ++ [(c.source, c.target)] }

def isNoop (o : Outcome) : Bool := o.steps.isEmpty && o.net.isEmpty

end Outcome

structure Journal where
  commits : List Commit
  events : List Event

def Journal.empty : Journal := ⟨[], []⟩

abbrev PlanM := EStateM Failure Journal

def report (events : List Event) : PlanM Unit :=
  modify fun j => { j with events := j.events ++ events }

/-- A receiver answers a commit, knowing those that it accepted before, with the cause of its
refusal if it refuses. -/
abbrev Sink := List Commit → Commit → Option String

namespace Sink

def acceptAll : Sink := fun _ _ => none

def refuseFrom (version cause : String) : Sink := fun _ c =>
  if c.source = version then some cause else none

end Sink

def submit (sink : Sink) (c : Commit) : PlanM Unit := do
  match sink (← get).commits c with
  | some cause => throw (.sink c.source c.target cause)
  | none => modify fun j => { j with commits := j.commits ++ [c] }

def declaredVersion (records : RecordSet) : Except Failure String :=
  match records.root?.bind (·.attribute? Attribute.modelVersion) with
  | none | some .null => .ok initialVersion
  | some (.text version) => .ok version
  | some other => .error (.unreadableVersion other)

structure Plan where
  chain : List Step
  target : String
  host : Host
  valid : Chain.Valid chain target

namespace Plan

def standard (config : Config) : Plan :=
  ⟨standardChain, currentVersion, Host.ofConfig config, Chain.valid_standardChain⟩

def ofChain (chain : List Step) (target : String) (config : Config) : Except Failure Plan :=
  match h : Chain.flaw? chain target with
  | some flaw => .error (.brokenChain flaw)
  | none => .ok ⟨chain, target, Host.ofConfig config, Chain.flaw?_eq_none_iff.1 h⟩

def stepFrom (p : Plan) (version : String) : PlanM Step :=
  match p.chain.find? fun step => step.source = version with
  | some step => pure step
  | none => throw (.unsupportedVersion version p.target)

def runStep (p : Plan) (step : Step) (records : RecordSet) : PlanM Changes := do
  report [.running step.name records.size]
  let passes := step.passes p.host
  match passes.run records passes.start with
  | .ok _ work => do
    report work.events
    return work.changes
  | .error e work => do
    report work.events
    throw e

def advance (p : Plan) (sink : Sink) :
    (spare : Nat) → (version : String) → RecordSet → Outcome → PlanM Outcome
  | spare, version, records, outcome =>
    if version = p.target then return { outcome with records }
    else match spare with
      -- not reached from as many spare steps as the chain has: before the target no version of a
      -- valid chain comes twice
      | 0 => throw (.unsupportedVersion version p.target)
      | spare + 1 => do
        let step ← p.stepFrom version
        let changes ← p.runStep step records
        let commit : Commit := ⟨step.source, step.target, changes⟩
        submit sink commit
        report [.committed step.name step.source step.target changes.updates.size
          changes.deletes.size]
        advance p sink spare step.target (records.apply changes) (outcome.add commit)

def upgradeSet (p : Plan) (sink : Sink) (records : RecordSet) : PlanM Outcome := do
  if records.isEmpty then
    report [.nothingToUpgrade]
    return .unchanged records p.target
  match declaredVersion records with
  | .error e => throw e
  | .ok version =>
    if version = p.target then return .unchanged records version
    report [.upgrading records.size version p.target]
    let outcome ← p.advance sink p.chain.length version records (.unchanged records version)
    report [.upgraded outcome.final]
    return outcome

def upgradeWith (p : Plan) (sink : Sink) (records : List Record) : PlanM Outcome :=
  p.upgradeSet sink (RecordSet.ofList records)

def upgrade (p : Plan) (records : List Record) : PlanM Outcome :=
  p.upgradeWith .acceptAll records

end Plan

end BrokerConfig.Upgrade
