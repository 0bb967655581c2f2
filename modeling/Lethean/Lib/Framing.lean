import Mathlib.Order.Basic

/-!
# Cutting a stream into pieces

A machine in a state asks for a number of values. As soon as they are in its buffer it
takes them off and goes on in another state, or gives up; until then it waits. The values
come in chunks, of which the buffer must not exceed a limit.
-/

namespace Framing

structure Machine (α σ : Type*) where
  need : σ → Nat
  /-- The state after the values it asked for. -/
  take : σ → List α → Option σ
  /-- Does it give up on these values, which are fewer than it needs? -/
  refuses : σ → List α → Bool
  weight : σ → Nat
  /-- Who needs nothing gets lighter, so that a run ends. -/
  weight_lt : ∀ {s s' x}, need s = 0 → take s x = some s' → weight s' < weight s

namespace Machine

variable {α σ : Type*}

def run (M : Machine α σ) (buffer : List α) (s : σ) : Option (List α × σ) :=
  if _ : buffer.length < M.need s then
    if M.refuses s buffer then none else some (buffer, s)
  else
    match _htake : M.take s (buffer.take (M.need s)) with
    | none => none
    | some s' => M.run (buffer.drop (M.need s)) s'
termination_by (buffer.length, M.weight s)
decreasing_by
  rcases Nat.eq_zero_or_pos (M.need s) with hzero | hpos
  · rw [hzero, List.drop_zero]
    exact Prod.Lex.right _ (M.weight_lt hzero _htake)
  · exact Prod.Lex.left _ _ (by rw [List.length_drop]; omega)

def receive (M : Machine α σ) (limit : Nat) (c : List α × σ) (chunk : List α) :
    Option (List α × σ) :=
  if limit < c.1.length + chunk.length then none else M.run (c.1 ++ chunk) c.2

variable {M : Machine α σ} {buffer buffer' : List α} {s s' : σ}

theorem run_append_of_take {x : List α} (hx : x.length = M.need s) (rest : List α) :
    M.run (x ++ rest) s = (M.take s x).bind (M.run rest) := by
  rw [run, dif_neg (by simp [hx]), ← hx]
  rw [List.drop_left]
  split <;> simp_all

/-- What a run keeps, with the values that were taken off so far. -/
theorem run_induction {I : List α → σ → Prop} (hstep : ∀ {taken s x s'}, I taken s →
      x.length = M.need s → M.take s x = some s' → I (taken ++ x) s')
    {taken : List α} (hI : I taken s) (h : M.run buffer s = some (buffer', s')) :
    ∃ x, buffer = x ++ buffer' ∧ buffer'.length < M.need s' ∧ I (taken ++ x) s' := by
  fun_induction run M buffer s generalizing taken with
  | case1 => cases h
  | case2 buffer s hshort =>
    cases h
    exact ⟨[], rfl, hshort, by rwa [List.append_nil]⟩
  | case3 => cases h
  | case4 buffer s hlong s₁ htake ih =>
    have hlength := List.length_take_of_le (Nat.not_lt.mp hlong)
    obtain ⟨x, hx, hshort, hI'⟩ := ih (hstep hI hlength htake) h
    refine ⟨buffer.take (M.need s) ++ x, ?_, hshort, by rwa [← List.append_assoc]⟩
    rw [List.append_assoc, ← hx, List.take_append_drop]

/-- With more values a run goes on from where it waits. -/
theorem run_append (h : M.run buffer s = some (buffer', s')) (chunk : List α) :
    M.run (buffer ++ chunk) s = M.run (buffer' ++ chunk) s' := by
  fun_induction run M buffer s with
  | case1 => cases h
  | case2 =>
    cases h
    rfl
  | case3 => cases h
  | case4 buffer s hlong s₁ htake ih =>
    have hlength := List.length_take_of_le (Nat.not_lt.mp hlong)
    have happend := run_append_of_take hlength (buffer.drop (M.need s) ++ chunk)
    rw [← List.append_assoc, List.take_append_drop, htake] at happend
    exact happend.trans (ih h)

/-- Chunks that are not refused, one after the other, are as good as all at once. -/
theorem run_flatten {limit : Nat} {chunks : List (List α)}
    (hwait : M.run buffer s = some (buffer, s))
    (h : chunks.foldlM (M.receive limit) (buffer, s) = some (buffer', s')) :
    M.run (buffer ++ chunks.flatten) s = some (buffer', s') := by
  induction chunks generalizing buffer s with
  | nil =>
    cases h
    rwa [List.flatten_nil, List.append_nil]
  | cons chunk chunks ih =>
    rw [List.foldlM_cons] at h
    obtain ⟨c, hrecv, h⟩ := Option.bind_eq_some_iff.mp h
    unfold receive at hrecv
    split at hrecv
    · cases hrecv
    have hwait' := run_append hrecv []
    rw [List.append_nil, List.append_nil, hrecv] at hwait'
    rw [List.flatten_cons, ← List.append_assoc, run_append hrecv]
    exact ih hwait'.symm h

end Machine

end Framing
