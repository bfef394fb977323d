import BrokerConfig.Proofs.Endings
import BrokerConfig.Upgrade.TwoPass

namespace BrokerConfig.Upgrade

namespace Pass

variable {σ α : Type} {w : Work σ} {failed : Failure → Work σ → Prop}

@[simp] theorem ends_update (r : Record) {done : Unit → Work σ → Prop} :
    Ends (update r) w done failed ↔ done () { w with changes := w.changes.update r } := Iff.rfl

@[simp] theorem ends_moveTo (version : String) (r : Record) {done : Unit → Work σ → Prop} :
    Ends (moveTo version r) w done failed ↔
      done () { w with changes := w.changes.update (r.withVersion version) } := Iff.rfl

@[simp] theorem ends_delete (r : Record) {done : Unit → Work σ → Prop} :
    Ends (delete r) w done failed ↔ done () { w with changes := w.changes.delete r } := Iff.rfl

@[simp] theorem ends_report (e : Event) {done : Unit → Work σ → Prop} :
    Ends (report e) w done failed ↔ done () { w with events := w.events ++ [e] } := Iff.rfl

@[simp] theorem ends_getState {done : σ → Work σ → Prop} :
    Ends getState w done failed ↔ done w.state w := Iff.rfl

@[simp] theorem ends_modifyState (f : σ → σ) {done : Unit → Work σ → Prop} :
    Ends (modifyState f) w done failed ↔ done () { w with state := f w.state } := Iff.rfl

def each (act : α → Pass σ Unit) : List α → Pass σ Unit
  | [] => pure ()
  | a :: rest => do
    act a
    each act rest

theorem eq_each {act : α → Pass σ Unit} {loop : List α → Pass σ Unit} (hn : loop [] = pure ())
    (hc : ∀ a rest, loop (a :: rest) = act a >>= fun _ => loop rest) (l : List α) :
    loop l = each act l := by
  induction l with
  | nil => exact hn
  | cons a rest ih => rw [hc, ih]; rfl

theorem ends_each {act : α → Pass σ Unit} {l : List α} (inv : List α → Work σ → Prop)
    (start : inv [] w)
    (step : ∀ before a after, l = before ++ a :: after → ∀ w, inv before w →
      Ends (act a) w (fun _ => inv (before ++ [a])) failed) :
    Ends (each act l) w (fun _ => inv l) failed := by
  have h : ∀ before after w, l = before ++ after → inv before w →
      Ends (each act after) w (fun _ => inv l) failed := by
    intro before after
    induction after generalizing before with
    | nil =>
      intro w hl hi
      rw [List.append_nil] at hl
      exact hl ▸ hi
    | cons a rest ih =>
      intro w hl hi
      rw [each, ends_bind]
      apply (step before a rest hl w hi).imp
      intro _ w' hi'
      exact ih (before ++ [a]) w' (by simpa using hl) hi'
  exact h [] l w rfl start

end Pass

namespace TwoPass

theorem visitAll_eq (p : TwoPass) (records : List Record) :
    p.visitAll records = Pass.each p.visit records :=
  Pass.eq_each rfl (fun _ _ => rfl) records

def Yields (p : TwoPass) (s : RecordSet) (done : Changes → Prop) (failed : Failure → Prop) : Prop :=
  Ends (p.run s) p.start (fun _ w => done w.changes) fun e _ => failed e

theorem yields_iff {p : TwoPass} {s : RecordSet} {done : Changes → Prop} {failed : Failure → Prop} :
    p.Yields s done failed ↔
      Ends (Pass.each p.visit s.records) p.start
        (fun _ w => Ends p.complete w (fun _ w' => done w'.changes) fun e _ => failed e)
        fun e _ => failed e := by
  rw [Yields, run, ends_bind, visitAll_eq]

end TwoPass

end BrokerConfig.Upgrade
