import BrokerConfig.Record.Changes

namespace BrokerConfig

variable {ε σ α β : Type}

theorem run_throw (e : ε) (w : σ) : (throw e : EStateM ε σ α) w = .error e w := rfl

theorem run_get (w : σ) : (get : EStateM ε σ σ) w = .ok w w := rfl

theorem run_modify (f : σ → σ) (w : σ) : (modify f : EStateM ε σ PUnit) w = .ok () (f w) := rfl

theorem eq_ok_of_toOption {x : Except ε α} {a : α} (h : x.toOption = some a) : x = .ok a := by
  cases x with
  | ok b => exact congrArg Except.ok (Option.some.inj h)
  | error e => cases h

def Ends (m : EStateM ε σ α) (w : σ) (done : α → σ → Prop) (failed : ε → σ → Prop) : Prop :=
  match m w with
  | .ok a w' => done a w'
  | .error e w' => failed e w'

variable {w : σ} {done done' : α → σ → Prop} {failed failed' : ε → σ → Prop}

theorem Ends.mono {m : EStateM ε σ α} (h : Ends m w done failed) (hd : ∀ a w, done a w → done' a w)
    (hf : ∀ e w, failed e w → failed' e w) : Ends m w done' failed' := by
  unfold Ends at h ⊢
  split at h
  · exact hd _ _ h
  · exact hf _ _ h

theorem Ends.imp {m : EStateM ε σ α} (h : Ends m w done failed)
    (hd : ∀ a w, done a w → done' a w) : Ends m w done' failed :=
  h.mono hd fun _ _ h => h

theorem Ends.and {m : EStateM ε σ α} (h : Ends m w done failed) (k : Ends m w done' failed') :
    Ends m w (fun a w => done a w ∧ done' a w) fun e w => failed e w ∧ failed' e w := by
  unfold Ends at h k ⊢
  cases hm : m w with
  | ok a w' =>
    rw [hm] at h k
    exact ⟨h, k⟩
  | error e w' =>
    rw [hm] at h k
    exact ⟨h, k⟩

theorem ends_of_ok {m : EStateM ε σ α} {a : α} {w' : σ} (h : m w = .ok a w') :
    Ends m w done failed ↔ done a w' := by
  rw [Ends, h]

@[simp] theorem ends_pure (a : α) : Ends (pure a : EStateM ε σ α) w done failed ↔ done a w :=
  Iff.rfl

@[simp] theorem ends_throw (e : ε) : Ends (throw e : EStateM ε σ α) w done failed ↔ failed e w :=
  Iff.rfl

@[simp] theorem ends_bind (m : EStateM ε σ α) (k : α → EStateM ε σ β) {done : β → σ → Prop} :
    Ends (m >>= k) w done failed ↔ Ends m w (fun a w' => Ends (k a) w' done failed) failed := by
  simp only [Ends, bind, EStateM.bind]
  cases m w <;> rfl

@[simp] theorem ends_get {done : σ → σ → Prop} :
    Ends (get : EStateM ε σ σ) w done failed ↔ done w w := Iff.rfl

@[simp] theorem ends_set (w' : σ) {done : PUnit → σ → Prop} :
    Ends (set w' : EStateM ε σ PUnit) w done failed ↔ done () w' := Iff.rfl

@[simp] theorem ends_modify (f : σ → σ) {done : PUnit → σ → Prop} :
    Ends (modify f : EStateM ε σ PUnit) w done failed ↔ done () (f w) := Iff.rfl

end BrokerConfig
