import BrokerConfig.Record.Changes
import BrokerConfig.Upgrade.Failure
import BrokerConfig.Upgrade.Event

namespace BrokerConfig.Upgrade

structure Work (σ : Type) where
  state : σ
  changes : Changes
  events : List Event

abbrev Pass (σ : Type) := EStateM Failure (Work σ)

namespace Pass

variable {σ : Type}

def update (r : Record) : Pass σ Unit :=
  modify fun w => { w with changes := w.changes.update r }

def delete (r : Record) : Pass σ Unit :=
  modify fun w => { w with changes := w.changes.delete r }

def report (e : Event) : Pass σ Unit :=
  modify fun w => { w with events := w.events ++ [e] }

def getState : Pass σ σ := do return (← get).state

def modifyState (f : σ → σ) : Pass σ Unit := modify fun w => { w with state := f w.state }

def getChanges : Pass σ Changes := do return (← get).changes

def moveTo (version : String) (r : Record) : Pass σ Unit := update (r.withVersion version)

end Pass

structure TwoPass where
  State : Type
  initial : State
  visit : Record → Pass State Unit
  complete : Pass State Unit

inductive Call
  | visit (r : Record)
  | complete
  deriving DecidableEq

structure Served (σ : Type) where
  before : Work σ
  call : Call
  result : Except Failure Unit
  after : Work σ

namespace TwoPass

def start (p : TwoPass) : Work p.State := ⟨p.initial, Changes.empty, []⟩

def recordwise (visit : Record → Pass Unit Unit) : TwoPass :=
  { State := Unit, initial := (), visit, complete := pure () }

def visitAll (p : TwoPass) : List Record → Pass p.State Unit
  | [] => pure ()
  | r :: rest => do
    p.visit r
    visitAll p rest

def run (p : TwoPass) (records : RecordSet) : Pass p.State Unit := do
  p.visitAll records.records
  p.complete

def answer (p : TwoPass) : Call → Pass p.State Unit
  | .visit r => p.visit r
  | .complete => p.complete

def serve (p : TwoPass) (w : Work p.State) (call : Call) : Served p.State :=
  match p.answer call w with
  | .ok a after => ⟨w, call, .ok a, after⟩
  | .error e after => ⟨w, call, .error e, after⟩

def session (p : TwoPass) (w : Work p.State) : List Call → List (Served p.State)
  | [] => []
  | call :: rest => p.serve w call :: session p (p.serve w call).after rest

def begin (p : TwoPass) (changes : Changes) : Work p.State := ⟨p.initial, changes, []⟩

end TwoPass

end BrokerConfig.Upgrade
