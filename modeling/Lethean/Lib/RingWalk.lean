import Mathlib

/-!
# Walks around a ring

A loop over the positions `0, ..., n - 1` of a ring: it starts behind a position,
goes on by one modulo `n`, and stops where it started. A ring signature is made
by such a walk. Every position turns a challenge into the next one, and the
challenge that arrives at position 0 is kept. If the position the walk started
from turns the last challenge into the first one, the kept challenge goes once
around the ring and comes back.
-/

namespace RingWalk

variable {σ γ : Type*}

/-! ### The loop -/

/-- `while i ≠ index { s := step i s; i := (i + 1) % n }`, for fewer than `fuel`
rounds. -/
def walk (n index : Nat) (step : Nat → σ → σ) : Nat → Nat → σ → Option σ
  | 0, _, _ => none
  | fuel + 1, i, s =>
    if i = index then some s else walk n index step fuel ((i + 1) % n) (step i s)

/-- The positions behind `index`. -/
def behind (n index : Nat) : List Nat := List.range' (index + 1) (n - (index + 1))

/-- The steps at some positions, in order. -/
def steps (step : Nat → σ → σ) (is : List Nat) (s : σ) : σ := is.foldl (fun s i => step i s) s

theorem steps_append (step : Nat → σ → σ) (is js : List Nat) (s : σ) :
    steps step (is ++ js) s = steps step js (steps step is s) :=
  List.foldl_append ..

theorem steps_congr {step step' : Nat → σ → σ} {is : List Nat} {s : σ}
    (h : ∀ i ∈ is, ∀ s, step i s = step' i s) : steps step is s = steps step' is s := by
  induction is generalizing s with
  | nil => rfl
  | cons i is ih =>
    rw [steps, List.foldl_cons, ← steps, h i (List.mem_cons_self ..),
      ih fun j hj => h j (List.mem_cons_of_mem _ hj)]
    rfl

theorem steps_range'_succ (step : Nat → σ → σ) (i d : Nat) (s : σ) :
    steps step (List.range' i (d + 1)) s = steps step (List.range' (i + 1) d) (step i s) := by
  rw [List.range'_succ]
  rfl

theorem steps_prod {τ : Type*} (f : Nat → σ → σ) (g : Nat → τ → τ) (is : List Nat) (s : σ) (t : τ) :
    steps (fun i p => (f i p.1, g i p.2)) is (s, t) = (steps f is s, steps g is t) := by
  induction is generalizing s t with
  | nil => rfl
  | cons i is ih => exact ih (f i s) (g i t)

theorem getElem?_steps_set (r : Nat → σ) (is : List Nat) (xs : List σ) (k : Nat) :
    (steps (fun i xs => xs.set i (r i)) is xs)[k]? =
      if k ∈ is ∧ k < xs.length then some (r k) else xs[k]? := by
  induction is generalizing xs with
  | nil => simp [steps]
  | cons i is ih =>
    rw [steps, List.foldl_cons, ← steps, ih, List.length_set, List.getElem?_set]
    by_cases hk : k < xs.length
    · by_cases heq : k = i
      · subst heq
        simp [hk]
      · simp [hk, heq, Ne.symm heq]
    · simp [hk]
      omega

theorem length_steps_set (r : Nat → σ) (is : List Nat) (xs : List σ) :
    (steps (fun i xs => xs.set i (r i)) is xs).length = xs.length := by
  induction is generalizing xs with
  | nil => rfl
  | cons i is ih => rw [steps, List.foldl_cons, ← steps, ih, List.length_set]

theorem range_eq {n index : Nat} (h : index < n) :
    List.range n = List.range index ++ index :: behind n index := by
  have hcons : index :: behind n index = List.range' index (n - index) := by
    rw [behind, show n - index = n - (index + 1) + 1 by omega, List.range'_succ]
  have happend := List.range'_append_1 (s := 0) (m := index) (n := n - index)
  rw [Nat.zero_add, Nat.add_sub_of_le h.le] at happend
  rw [hcons, List.range_eq_range', List.range_eq_range', happend]

section

variable {n index : Nat} {step : Nat → σ → σ}

theorem walk_front (h : index < n) {d i fuel : Nat} {s : σ} (hi : i + d = index)
    (hfuel : d < fuel) :
    walk n index step fuel i s = some (steps step (List.range' i d) s) := by
  induction d generalizing i fuel s with
  | zero =>
    obtain ⟨fuel, rfl⟩ := Nat.exists_eq_succ_of_ne_zero (by omega : fuel ≠ 0)
    rw [walk, if_pos (by omega)]
    rfl
  | succ d ih =>
    obtain ⟨fuel, rfl⟩ := Nat.exists_eq_succ_of_ne_zero (by omega : fuel ≠ 0)
    rw [walk, if_neg (by omega), Nat.mod_eq_of_lt (by omega),
      ih (by omega) (by omega), steps_range'_succ]

theorem walk_behind (h : index < n) {d i fuel : Nat} {s : σ} (hi : i + d = n) (hindex : index < i)
    (hfuel : d ≤ fuel) :
    walk n index step fuel (i % n) s =
      walk n index step (fuel - d) 0 (steps step (List.range' i d) s) := by
  induction d generalizing i fuel s with
  | zero =>
    obtain rfl : i = n := by omega
    rw [Nat.mod_self]
    rfl
  | succ d ih =>
    obtain ⟨fuel, rfl⟩ := Nat.exists_eq_succ_of_ne_zero (by omega : fuel ≠ 0)
    rw [Nat.mod_eq_of_lt (by omega), walk, if_neg (by omega), ih (by omega) (by omega) (by omega),
      steps_range'_succ]
    congr 1
    omega

/-- The walk visits every other position once. -/
theorem walk_eq (h : index < n) {fuel : Nat} (hfuel : n ≤ fuel) (s : σ) :
    walk n index step fuel ((index + 1) % n) s =
      some (steps step (behind n index ++ List.range index) s) := by
  rw [walk_behind (d := n - (index + 1)) h (by omega) (by omega) (by omega),
    walk_front (d := index) h (by omega) (by omega), steps_append, List.range_eq_range']
  rfl

end

/-! ### Challenges -/

/-- One position turns the challenge into the next one; the challenge that
arrives at position 0 is kept. -/
def turn (n : Nat) (round : Nat → γ → γ) (i : Nat) (s : γ × γ) : γ × γ :=
  let c := round i s.1
  (c, if (i + 1) % n = 0 then c else s.2)

variable {n index : Nat} {round : Nat → γ → γ}

/-- As long as position 0 is not reached, nothing is kept. -/
theorem steps_turn_of_ne_zero {is : List Nat} (h : ∀ i ∈ is, (i + 1) % n ≠ 0) (c kept : γ) :
    steps (turn n round) is (c, kept) = (steps round is c, kept) := by
  induction is generalizing c with
  | nil => rfl
  | cons i is ih =>
    rw [steps, List.foldl_cons, turn, if_neg (h i (List.mem_cons_self ..)), ← steps,
      ih fun j hj => h j (List.mem_cons_of_mem _ hj)]
    rfl

/-- Behind the start, the last challenge is the one that is kept. -/
theorem steps_turn_behind (h : index < n) (c kept : γ) :
    steps (turn n round) (behind n index) (c, if (index + 1) % n = 0 then c else kept) =
      (steps round (behind n index) c, steps round (behind n index) c) := by
  obtain ⟨d, rfl⟩ : ∃ d, n = index + 1 + d := ⟨n - (index + 1), by omega⟩
  cases d with
  | zero => simp [behind, steps]
  | succ d =>
    have hbehind : behind (index + 1 + (d + 1)) index =
        List.range' (index + 1) d ++ [index + 1 + d] := by
      rw [behind, show index + 1 + (d + 1) - (index + 1) = d + 1 by omega, List.range'_1_concat]
    have hne : ∀ i ∈ List.range' (index + 1) d, (i + 1) % (index + 1 + (d + 1)) ≠ 0 := by
      intro i hi
      rw [List.mem_range'_1] at hi
      rw [Nat.mod_eq_of_lt (by omega)]
      omega
    rw [hbehind, steps_append, steps_turn_of_ne_zero hne, steps_append]
    simp [steps, turn, Nat.add_assoc]

/-- The walk ends with the challenge of the position it started from, and the
one that was kept. -/
theorem steps_turn (h : index < n) (c kept : γ) :
    steps (turn n round) (behind n index ++ List.range index)
        (c, if (index + 1) % n = 0 then c else kept) =
      (steps round (List.range index) (steps round (behind n index) c),
        steps round (behind n index) c) := by
  rw [steps_append, steps_turn_behind h, steps_turn_of_ne_zero]
  intro i hi
  rw [List.mem_range] at hi
  rw [Nat.mod_eq_of_lt (by omega)]
  omega

/-- The walk of a signer, who fills in a response at every position. -/
theorem walk_turn_set (h : index < n) (r : Nat → σ) (c kept : γ) (xs : List σ) :
    walk n index (fun i s => (turn n round i s.1, s.2.set i (r i))) n ((index + 1) % n)
        ((c, if (index + 1) % n = 0 then c else kept), xs) =
      some ((steps round (List.range index) (steps round (behind n index) c),
          steps round (behind n index) c),
        steps (fun i xs => xs.set i (r i)) (behind n index ++ List.range index) xs) := by
  rw [walk_eq h le_rfl, steps_prod (turn n round) fun i (xs : List σ) => xs.set i (r i),
    steps_turn h]

/-- If the start turns its challenge into the one the walk began with, the kept
challenge comes back. -/
theorem steps_range_of_closed (round : Nat → γ → γ) (h : index < n) {c : γ}
    (hclosed : round index (steps round (List.range index) (steps round (behind n index) c)) = c) :
    steps round (List.range n) (steps round (behind n index) c) =
      steps round (behind n index) c := by
  rw [range_eq h, steps_append]
  exact congrArg (steps round (behind n index)) hclosed

end RingWalk
