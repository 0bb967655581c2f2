import Mathlib

/-!
# Trees by pairing

A list of `2 ^ k` values is the lowest level of a binary tree whose inner nodes
are computed from their two children by a function `f`. The tree is never built:
a level is a list, `level` is the level above it, and after `k` levels one value
is left, the root. The *siblings* of the first leaf are what its path to the root
passes by; folding `f` over them gives the root again (`iterate_level`).

Programs compute levels in an array, a new value over one that is no longer
needed. `fill` and `pass` are such loops, and `fill_eq` and `pass_eq` say that
they compute a level.
-/

namespace PairTree

variable {α : Type*} (f : α → α → α)

/-! ### Levels -/

/-- The level above: `f` on the pairs of a list. -/
def level : List α → List α
  | a :: b :: rest => f a b :: level rest
  | _ => []

@[simp] theorem level_nil : level f [] = [] := rfl

@[simp] theorem level_cons_cons (a b : α) (rest : List α) :
    level f (a :: b :: rest) = f a b :: level f rest := rfl

@[simp] theorem length_level : ∀ l : List α, (level f l).length = l.length / 2
  | [] => by simp
  | [_] => by simp [level]
  | a :: b :: rest => by
    simp only [level_cons_cons, List.length_cons, length_level rest]
    omega

/-- The siblings of the first leaf, from the lowest of `k` levels up. -/
def siblings : Nat → List α → List α
  | k + 1, a :: b :: rest => b :: siblings k (level f (a :: b :: rest))
  | _, _ => []

@[simp] theorem siblings_zero (l : List α) : siblings f 0 l = [] := by
  cases l <;> rfl

@[simp] theorem siblings_succ (k : Nat) (a b : α) (rest : List α) :
    siblings f (k + 1) (a :: b :: rest) = b :: siblings f k (level f (a :: b :: rest)) := rfl

theorem exists_cons_cons {k : Nat} {l : List α} (h : l.length = 2 ^ (k + 1)) :
    ∃ a b rest, l = a :: b :: rest ∧ (level f l).length = 2 ^ k := by
  have hpos : 0 < 2 ^ k := by positivity
  match l, h with
  | [], h => rw [pow_succ, List.length_nil] at h; omega
  | [_], h => rw [pow_succ, List.length_singleton] at h; omega
  | a :: b :: rest, h =>
    refine ⟨a, b, rest, rfl, ?_⟩
    rw [length_level, h, pow_succ, Nat.mul_div_cancel _ (by decide)]

theorem length_siblings {k : Nat} {l : List α} (h : l.length = 2 ^ k) :
    (siblings f k l).length = k := by
  induction k generalizing l with
  | zero => rw [siblings_zero, List.length_nil]
  | succ k ih =>
    obtain ⟨a, b, rest, rfl, hlevel⟩ := exists_cons_cons f h
    rw [siblings_succ, List.length_cons, ih hlevel]

/-- **The root from a branch.** -/
theorem iterate_level {k : Nat} {a : α} {rest : List α} (h : (a :: rest).length = 2 ^ k) :
    (level f)^[k] (a :: rest) = [(siblings f k (a :: rest)).foldl f a] := by
  induction k generalizing a rest with
  | zero =>
    rw [pow_zero, List.length_cons] at h
    rw [List.length_eq_zero_iff.mp (Nat.succ.inj h)]
    rfl
  | succ k ih =>
    obtain ⟨a', b, rest', heq, hlevel⟩ := exists_cons_cons f h
    rw [heq, level_cons_cons] at hlevel
    rw [heq, Function.iterate_succ_apply, siblings_succ, level_cons_cons, ih hlevel,
      List.foldl_cons, (List.cons.inj heq).1]

/-! ### Levels in arrays -/

/-- `k` values of the level above `src`, from its index `i` on, written into an
array from index `j` on. -/
def fill (d : α) (src : List α) : Nat → Nat → Nat → List α → List α
  | 0, _, _, dst => dst
  | k + 1, i, j, dst =>
    fill d src k (i + 2) (j + 1) (dst.set j (f (src.getD i d) (src.getD (i + 1) d)))

/-- The same on one array, from the pairs that start at `offset`. -/
def pass (d : α) (offset : Nat) : Nat → Nat → List α → List α
  | 0, _, a => a
  | k + 1, j, a =>
    pass d offset k (j + 1)
      (a.set j (f (a.getD (offset + 2 * j) d) (a.getD (offset + 2 * j + 1) d)))

theorem level_drop_take (d : α) {src : List α} {i k : Nat} (h : i + 2 * (k + 1) ≤ src.length) :
    level f ((src.drop i).take (2 * (k + 1))) =
      f (src.getD i d) (src.getD (i + 1) d) :: level f ((src.drop (i + 2)).take (2 * k)) := by
  rw [show 2 * (k + 1) = 2 * k + 1 + 1 by ring, List.drop_eq_getElem_cons (i := i) (by omega),
    List.take_succ_cons, List.drop_eq_getElem_cons (i := i + 1) (by omega), List.take_succ_cons,
    level_cons_cons, List.getD_eq_getElem _ _ (by omega), List.getD_eq_getElem _ _ (by omega)]

theorem take_set_append {a : List α} {j : Nat} (h : j < a.length) (x : α) (l : List α) (n : Nat) :
    (a.set j x).take (j + 1) ++ l ++ (a.set j x).drop (j + 1 + n) =
      a.take j ++ (x :: l) ++ a.drop (j + (n + 1)) := by
  rw [List.drop_set_of_lt (by omega), List.take_add_one, List.getElem?_set_self h,
    List.take_set_of_le (le_refl j), show j + 1 + n = j + (n + 1) by ring]
  simp

theorem fill_eq (d : α) {src : List α} {k i j : Nat} {dst : List α}
    (hsrc : i + 2 * k ≤ src.length) (hdst : j + k ≤ dst.length) :
    fill f d src k i j dst =
      dst.take j ++ level f ((src.drop i).take (2 * k)) ++ dst.drop (j + k) := by
  induction k generalizing i j dst with
  | zero => simp [fill]
  | succ k ih =>
    rw [fill, ih (by omega) (by rw [List.length_set]; omega), take_set_append (by omega),
      level_drop_take f d hsrc]

/-- The pairs lie ahead of what is written, so nothing is read that was changed. -/
theorem pass_eq (d : α) {offset k j : Nat} {a : List α} (h : offset + 2 * (j + k) ≤ a.length) :
    pass f d offset k j a =
      a.take j ++ level f ((a.drop (offset + 2 * j)).take (2 * k)) ++ a.drop (j + k) := by
  induction k generalizing j a with
  | zero => simp [pass]
  | succ k ih =>
    rw [pass, ih (by rw [List.length_set]; omega), take_set_append (by omega),
      level_drop_take f d (by omega), List.drop_set_of_lt (by omega)]
    rfl

end PairTree
