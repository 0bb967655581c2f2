import Mathlib

/-!
# Lethean.Lib.Frame

Computations that keep their state when they throw, `EStateM ε σ`. `final` is
the state at the end, however the computation ends, and `Frame R x` says that
`x` changes the state along the preorder `R` only. A frame is found statement
by statement, and gives what the rest of a computation cannot take back.
-/

namespace Frame

variable {ε σ α β : Type}

/-! ### Running a computation -/

@[simp] theorem get_bind (f : σ → EStateM ε σ α) (s : σ) : (get >>= f) s = f s s := rfl

@[simp] theorem modify_bind (f : PUnit → EStateM ε σ α) (g : σ → σ) (s : σ) :
    (modify g >>= f) s = f ⟨⟩ (g s) := rfl

@[simp] theorem throw_bind (f : β → EStateM ε σ α) (e : ε) (s : σ) :
    ((throw e : EStateM ε σ β) >>= f) s = .error e s := rfl

@[simp] theorem throw_apply (e : ε) (s : σ) : (throw e : EStateM ε σ α) s = .error e s := rfl

@[simp] theorem pure_apply (a : α) (s : σ) : (pure a : EStateM ε σ α) s = .ok a s := rfl

@[simp] theorem modify_apply (g : σ → σ) (s : σ) :
    (modify g : EStateM ε σ PUnit) s = .ok ⟨⟩ (g s) := rfl

variable {x : EStateM ε σ α} {f : α → EStateM ε σ β}

theorem bind_ok {s s' : σ} {a : α} (h : x s = .ok a s') : (x >>= f) s = f a s' := by
  change EStateM.bind x f s = _
  simp only [EStateM.bind, h]

theorem bind_error {s s' : σ} {e : ε} (h : x s = .error e s') : (x >>= f) s = .error e s' := by
  change EStateM.bind x f s = _
  simp only [EStateM.bind, h]

theorem bind_eq_ok {s s' : σ} {b : β} :
    (x >>= f) s = .ok b s' ↔ ∃ a s1, x s = .ok a s1 ∧ f a s1 = .ok b s' := by
  cases hx : x s with
  | ok a s1 => simp [bind_ok hx]
  | error e s1 => simp [bind_error hx]

/-! ### Frames -/

def final : EStateM.Result ε σ α → σ
  | .ok _ s => s
  | .error _ s => s

/-- What the computation throws, if it does. -/
def thrown : EStateM.Result ε σ α → Option ε
  | .ok _ _ => none
  | .error e _ => some e

theorem eq_error_final {r : EStateM.Result ε σ α} {e : ε} (h : thrown r = some e) :
    r = .error e (final r) := by
  cases r with
  | ok a s => cases h
  | error e' s =>
    cases h
    rfl

theorem eq_ok_final {r : EStateM.Result ε σ PUnit} (h : thrown r = none) :
    r = .ok ⟨⟩ (final r) := by
  cases r with
  | ok a s => rfl
  | error e s => cases h

@[simp] theorem final_ok (a : α) (s : σ) : final (.ok a s : EStateM.Result ε σ α) = s := rfl

@[simp] theorem final_error (e : ε) (s : σ) : final (.error e s : EStateM.Result ε σ α) = s := rfl

end Frame

/-- The computation changes the state along `R` only. -/
def Frame {ε σ α : Type} (R : σ → σ → Prop) (x : EStateM ε σ α) : Prop :=
  ∀ s, R s (Frame.final (x s))

namespace Frame

variable {ε σ α β : Type} {R : σ → σ → Prop}

/-- What a computation has done to the state survives a frame that follows. -/
theorem final_bind [Std.Refl R] {x : EStateM ε σ α} {f : α → EStateM ε σ β}
    (hf : ∀ a, Frame R (f a)) (s : σ) : R (final (x s)) (final ((x >>= f) s)) := by
  cases hx : x s with
  | ok a s' =>
    rw [bind_ok hx]
    exact hf a s'
  | error e s' =>
    rw [bind_error hx]
    exact Std.Refl.refl s'

protected theorem bind [Std.Refl R] [IsTrans σ R] {x : EStateM ε σ α} {f : α → EStateM ε σ β}
    (hx : Frame R x) (hf : ∀ a, Frame R (f a)) : Frame R (x >>= f) := fun s =>
  IsTrans.trans _ _ _ (hx s) (final_bind hf s)

protected theorem pure [Std.Refl R] (a : α) : Frame R (pure a : EStateM ε σ α) :=
  Std.Refl.refl

protected theorem throw [Std.Refl R] (e : ε) : Frame R (throw e : EStateM ε σ α) :=
  Std.Refl.refl

protected theorem modify {g : σ → σ} (h : ∀ s, R s (g s)) :
    Frame R (modify g : EStateM ε σ PUnit) := h

protected theorem getBind {f : σ → EStateM ε σ α} (h : ∀ s, Frame R (f s)) :
    Frame R (get >>= f) := fun s => h s s

/-- A check that throws, in front of the rest. -/
protected theorem guard [Std.Refl R] {c : Prop} [Decidable c] {e : ε} {x : EStateM ε σ α}
    (h : Frame R x) :
    Frame R (if c then (throw e : EStateM ε σ PUnit) >>= fun _ => x else x) := by
  split
  · exact fun s => Std.Refl.refl s
  · exact h

end Frame
