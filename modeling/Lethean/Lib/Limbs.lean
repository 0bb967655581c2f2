import Mathlib

/-!
# Arithmetic in digits

Rules for numbers stored as a few digits in a base `b` (machine words, or
halves of them). A machine adds and multiplies digits modulo `b`; what was lost
is seen from a comparison (`add_mod_lt_iff`, `carry_iff`) and is the carry into
the next digit. Multiplying by one digit keeps a running carry
(`ofDigits_mul_div`), dividing by one digit a running remainder
(`mul_add_div`, `mul_add_mod`).
-/

namespace Limbs

variable {b x y : Nat}

/-! ### Carries -/

section

variable (hx : x < b) (hy : y < b)
include hx hy

theorem add_mod_lt_iff : (x + y) % b < x ↔ b ≤ x + y := by
  rcases Nat.lt_or_ge (x + y) b with h | h
  · rw [Nat.mod_eq_of_lt h]
    omega
  · rw [Nat.mod_eq_sub_mod h, Nat.mod_eq_of_lt (by omega)]
    omega

theorem add_mod_add_carry : (x + y) % b + b * (if (x + y) % b < x then 1 else 0) = x + y := by
  have hdiv := Nat.mod_add_div (x + y) b
  have hlt := add_mod_lt_iff hx hy
  split
  · rename_i h
    have hone : (x + y) / b = 1 :=
      Nat.div_eq_of_lt_le (by have := hlt.mp h; omega) (by omega)
    rw [← hone, hdiv]
  · rename_i h
    have hsum : x + y < b := not_le.mp fun hle => h (hlt.mpr hle)
    rw [Nat.mod_eq_of_lt hsum, Nat.mul_zero, Nat.add_zero]

/-- With a carry coming in, a sum also wraps if it was the largest digit before. -/
theorem carry_iff (c : Bool) :
    ((x + y) % b < x ∨ c = true ∧ (x + y) % b = b - 1) ↔ b ≤ x + y + c.toNat := by
  rw [add_mod_lt_iff hx hy]
  rcases Nat.lt_or_ge (x + y) b with h | h
  · rw [Nat.mod_eq_of_lt h]
    cases c
    · simp
    · simp only [Bool.toNat_true, true_and]
      omega
  · constructor
    · intro _
      omega
    · intro _
      exact .inl h

/-- What a sum of two digits and a carry leaves for the next digit. -/
theorem add_div_eq {c : Nat} (hc : c ≤ 1) (z : Nat) :
    (y + b * z + (x + c)) / b = z + if b ≤ x + y + c then 1 else 0 := by
  have hb : 0 < b := by omega
  rw [show y + b * z + (x + c) = x + y + c + b * z by ring, Nat.add_mul_div_left _ _ hb, add_comm]
  split
  · rw [Nat.div_eq_of_lt_le (k := 1) (by omega) (by omega)]
  · rw [Nat.div_eq_of_lt (by omega)]

end

/-! ### Multiplying by a digit -/

/-- The carry out of a product with one digit, from the carry out of the digits
before: a product is taken from the lowest digit on. -/
theorem ofDigits_mul_div (hb : 0 < b) (l : List Nat) (h d : Nat) :
    Nat.ofDigits b (l ++ [h]) * d / b ^ (l.length + 1) =
      (h * d + Nat.ofDigits b l * d / b ^ l.length) / b := by
  have hpow : 0 < b ^ l.length := Nat.pow_pos hb
  rw [Nat.ofDigits_append, Nat.ofDigits_singleton, pow_succ, ← Nat.div_div_eq_div_mul, add_mul,
    mul_assoc, Nat.add_mul_div_left _ _ hpow, add_comm]

/-- The product of two numbers of two digits, from the products of the digits:
row by row, with the carries `u`, `v`, `m` and `w` between the columns. -/
theorem rows_eq (b ac ad bc bd : Nat) {u v m w : Nat} (hu : u = ad + bd / b) (hv : v = ac + bc / b)
    (hm : m = u % b + bc % b) (hw : w = u / b + v % b + m / b) :
    m % b * b + bd % b + b * b * ((v / b + w / b) * b + w % b) =
      ac * (b * b) + (ad + bc) * b + bd := by
  have hbd := Nat.div_add_mod bd b
  have hbc := Nat.div_add_mod bc b
  have hu' := Nat.div_add_mod u b
  have hv' := Nat.div_add_mod v b
  have hm' := Nat.div_add_mod m b
  have hw' := Nat.div_add_mod w b
  zify at *
  linear_combination b ^ 2 * hw' + b ^ 2 * hv' + b * hm' + b * hu' + b * hbc + hbd + b ^ 2 * hw +
    b ^ 2 * hv + b * hm + b * hu

/-! ### Dividing by a digit -/

/-- One step of long division: the quotient so far moves up by one digit. -/
theorem mul_add_div (n x : Nat) {d : Nat} (hd : 0 < d) :
    (n * b + x) / d = n / d * b + (n % d * b + x) / d := by
  have hsplit : n * b + x = n % d * b + x + d * (n / d * b) := by
    calc n * b + x = (n % d + d * (n / d)) * b + x := by rw [Nat.mod_add_div]
      _ = n % d * b + x + d * (n / d * b) := by ring
  rw [hsplit, Nat.add_mul_div_left _ _ hd, add_comm]

theorem mul_add_mod (n x d : Nat) : (n * b + x) % d = (n % d * b + x) % d :=
  ((Nat.mod_modEq n d).symm.mul_right b).add_right x

theorem digit_div_lt {r d : Nat} (hr : r < d) (hx : x < b) : (r * b + x) / d < b := by
  rw [Nat.div_lt_iff_lt_mul (by omega)]
  calc r * b + x < r * b + b := by omega
    _ = (r + 1) * b := by ring
    _ ≤ d * b := Nat.mul_le_mul_right b hr
    _ = b * d := Nat.mul_comm _ _

end Limbs
