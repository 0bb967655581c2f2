import Mathlib

/-!
# Sliding windows over lists

A *window* of width `n` over a list is its last `n` elements, `List.rtake`. A
producer that keeps only a window can still compute the next one, as long as
what it kept is long enough: this file collects the rules for that, over an
arbitrary element type, and for the occurrence counts of a window when the
counters have a fixed width.
-/

namespace Window

variable {α β : Type*}

@[simp] theorem length_rtake (l : List α) (n : Nat) : (l.rtake n).length = min n l.length := by
  simp only [List.rtake, List.length_drop]
  omega

theorem rtake_eq_self {l : List α} {n : Nat} (h : l.length ≤ n) : l.rtake n = l := by
  simp [List.rtake, Nat.sub_eq_zero_of_le h]

theorem rtake_suffix (l : List α) (n : Nat) : l.rtake n <:+ l := List.drop_suffix _ _

@[simp] theorem rtake_map (f : α → β) (l : List α) (n : Nat) :
    (l.map f).rtake n = (l.rtake n).map f := by
  simp [List.rtake, List.map_drop]

theorem rtake_append_of_le (l1 l2 : List α) {n : Nat} (h : n ≤ l2.length) :
    (l1 ++ l2).rtake n = l2.rtake n := by
  simp only [List.rtake, List.length_append]
  rw [List.drop_append, List.drop_eq_nil_of_le (by omega), List.nil_append]
  congr 1
  omega

theorem rtake_append_of_ge (l1 l2 : List α) {n : Nat} (h : l2.length ≤ n) :
    (l1 ++ l2).rtake n = l1.rtake (n - l2.length) ++ l2 := by
  simp only [List.rtake, List.length_append]
  rw [List.drop_append_of_le_length (by omega)]
  congr 2
  omega

/-- A window can be recomputed from any suffix that is long enough to hold it. -/
theorem rtake_of_suffix {w l : List α} {n : Nat} (hw : w <:+ l) (hn : min n l.length ≤ w.length) :
    w.rtake n = l.rtake n := by
  obtain ⟨pre, rfl⟩ := hw
  by_cases h : n ≤ w.length
  · exact (rtake_append_of_le pre w h).symm
  · -- the suffix is shorter than the window, so it must be the whole list
    rw [List.length_append] at hn
    have hpre : pre = [] := List.eq_nil_of_length_eq_zero (by omega)
    rw [hpre, List.nil_append]

/-- Conversely, a suffix that is too short gives another window. -/
theorem rtake_ne_of_suffix {w l : List α} {n : Nat} (hn : w.length < min n l.length) :
    w.rtake n ≠ l.rtake n := by
  intro h
  have hlen := congrArg List.length h
  simp only [length_rtake] at hlen
  omega

theorem rtake_rtake {l : List α} {m n : Nat} (h : m ≤ n) : (l.rtake n).rtake m = l.rtake m := by
  refine rtake_of_suffix (rtake_suffix l n) ?_
  rw [length_rtake]
  omega

/-- Making room first and pushing then: the other way to slide a window. -/
theorem rtake_push (l : List α) {n : Nat} (hn : 0 < n) (x : α) :
    l.rtake (n - 1) ++ [x] = (l ++ [x]).rtake n := by
  obtain ⟨m, rfl⟩ : ∃ m, n = m + 1 := ⟨n - 1, by omega⟩
  exact (List.rtake_concat_succ l m x).symm

/-! ### Occurrence counts -/

section Tally

variable [DecidableEq α]

/-- How often each value occurs in `l`, in counters that wrap at `m`. -/
def tally (m : Nat) (l : List α) : α → Nat := fun a => l.count a % m

@[simp] theorem tally_nil (m : Nat) : tally m ([] : List α) = fun _ => 0 := by
  funext a
  simp [tally]

theorem tally_push (m : Nat) (l : List α) (x : α) :
    Function.update (tally m l) x ((tally m l x + 1) % m) = tally m (l ++ [x]) := by
  funext a
  by_cases h : a = x
  · subst h
    simp [tally]
  · have hx : x ≠ a := fun hxa => h hxa.symm
    simp [tally, h, hx]

theorem tally_pop {m : Nat} (hm : 0 < m) (x : α) (l : List α) :
    Function.update (tally m (x :: l)) x ((tally m (x :: l) x + (m - 1)) % m) = tally m l := by
  funext a
  by_cases h : a = x
  · subst h
    simp only [tally, Function.update_self, List.count_cons_self, Nat.mod_add_mod]
    rw [show l.count a + 1 + (m - 1) = l.count a + m by omega, Nat.add_mod_right]
  · have hx : x ≠ a := fun hxa => h hxa.symm
    simp [tally, h, hx]

end Tally

end Window
