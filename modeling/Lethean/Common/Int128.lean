import Lethean.Lib.Limbs
import Lethean.Common.IntUtil

/-!
# Lethean.Common.Int128

`mul128` and `div128_32` of `int-util.h` as they are written: on 64-bit words
and their 32-bit halves, with the carries taken from comparisons. The other
modules compute with the numbers these words stand for; `mul128_spec` and
`div128By32_spec` say that the words hold them.
-/

namespace Lethean.Words

/-! ### Halves of a word -/

def hiDword (val : UInt64) : UInt64 := val >>> 32

def loDword (val : UInt64) : UInt64 := val &&& 0xFFFFFFFF

theorem toNat_shiftRight_32 (v : UInt64) : (v >>> 32).toNat = v.toNat / 2 ^ 32 := by
  rw [UInt64.toNat_shiftRight, Nat.shiftRight_eq_div_pow]
  rfl

theorem toNat_and_mask (v : UInt64) : (v &&& 0xFFFFFFFF).toNat = v.toNat % 2 ^ 32 := by
  rw [UInt64.toNat_and, ← Nat.and_two_pow_sub_one_eq_mod]
  rfl

theorem toNat_shiftLeft_32 (v : UInt64) : (v <<< 32).toNat = v.toNat % 2 ^ 32 * 2 ^ 32 := by
  rw [UInt64.toNat_shiftLeft, Nat.shiftLeft_eq, show (32 : UInt64).toNat % 64 = 32 from rfl,
    show (2 : Nat) ^ 64 = 2 ^ 32 * 2 ^ 32 from rfl, Nat.mul_mod_mul_right]

@[simp] theorem toNat_hiDword (v : UInt64) : (hiDword v).toNat = v.toNat / 2 ^ 32 :=
  toNat_shiftRight_32 v

@[simp] theorem toNat_loDword (v : UInt64) : (loDword v).toNat = v.toNat % 2 ^ 32 :=
  toNat_and_mask v

theorem toNat_shiftLeft_or {v w : UInt64} (hw : w.toNat < 2 ^ 32) :
    (v <<< 32 ||| w).toNat = v.toNat % 2 ^ 32 * 2 ^ 32 + w.toNat := by
  rw [UInt64.toNat_or, toNat_shiftLeft_32, ← Nat.shiftLeft_eq, Nat.shiftLeft_add_eq_or_of_lt hw]

theorem toNat_mul_halves {v w : UInt64} (hv : v.toNat < 2 ^ 32) (hw : w.toNat < 2 ^ 32) :
    (v * w).toNat = v.toNat * w.toNat := by
  rw [UInt64.toNat_mul, Nat.mod_eq_of_lt]
  calc v.toNat * w.toNat < 2 ^ 32 * 2 ^ 32 := Nat.mul_lt_mul'' hv hw
    _ = 2 ^ 64 := by norm_num

theorem split_halves (v : UInt64) : v.toNat = v.toNat / 2 ^ 32 * 2 ^ 32 + v.toNat % 2 ^ 32 :=
  (Nat.div_add_mod' _ _).symm

theorem toNat_ite (p : Prop) [Decidable p] :
    (if p then (1 : UInt64) else 0).toNat = if p then 1 else 0 := by
  split <;> rfl

/-! ### Multiplication -/

/-- `mul128`: the low word, and `product_hi`. -/
def mul128 (multiplier multiplicand : UInt64) : UInt64 × UInt64 :=
  let a := hiDword multiplier
  let b := loDword multiplier
  let c := hiDword multiplicand
  let d := loDword multiplicand
  let ac := a * c
  let ad := a * d
  let bc := b * c
  let bd := b * d
  let adbc := ad + bc
  let adbcCarry : UInt64 := if adbc < ad then 1 else 0
  let productLo := bd + adbc <<< 32
  let productLoCarry : UInt64 := if productLo < bd then 1 else 0
  let productHi := ac + adbc >>> 32 + adbcCarry <<< 32 + productLoCarry
  (productLo, productHi)

/-- A pair of words that holds the product of two words. -/
def HoldsProduct (x y : UInt64) (p : UInt64 × UInt64) : Prop :=
  p.1.toNat + 2 ^ 64 * p.2.toNat = x.toNat * y.toNat

theorem HoldsProduct.eq {x y : UInt64} {p : UInt64 × UInt64} (h : HoldsProduct x y p) :
    (p.1.toNat, p.2.toNat) = Lethean.mul128 x.toNat y.toNat := by
  have hlt := p.1.toNat_lt
  rw [Lethean.mul128, ← h]
  refine Prod.ext ?_ ?_ <;> dsimp only <;> omega

theorem toNat_mul_lt (x y : UInt64) : x.toNat * y.toNat < 2 ^ 128 :=
  calc x.toNat * y.toNat < 2 ^ 64 * 2 ^ 64 := Nat.mul_lt_mul'' x.toNat_lt y.toNat_lt
    _ = 2 ^ 128 := by norm_num

theorem mul128_spec (x y : UInt64) : HoldsProduct x y (mul128 x y) := by
  unfold HoldsProduct mul128
  set a := hiDword x with ha
  set b := loDword x with hb
  set c := hiDword y with hc
  set d := loDword y with hd
  have hx := x.toNat_lt
  have hy := y.toNat_lt
  have ha' : a.toNat < 2 ^ 32 := by rw [ha, toNat_hiDword]; omega
  have hb' : b.toNat < 2 ^ 32 := by rw [hb, toNat_loDword]; omega
  have hc' : c.toNat < 2 ^ 32 := by rw [hc, toNat_hiDword]; omega
  have hd' : d.toNat < 2 ^ 32 := by rw [hd, toNat_loDword]; omega
  -- the two middle products, with the carry of their sum
  have hmiddle := Limbs.add_mod_add_carry (a * d).toNat_lt (b * c).toNat_lt
  -- the low product, with the carry of the low half of the middle
  have hlow := Limbs.add_mod_add_carry (b * d).toNat_lt ((a * d + b * c) <<< 32).toNat_lt
  rw [toNat_shiftLeft_32] at hlow
  have hproduct : x.toNat * y.toNat = a.toNat * c.toNat * 2 ^ 64 +
      (a.toNat * d.toNat + b.toNat * c.toNat) * 2 ^ 32 + b.toNat * d.toNat := by
    rw [split_halves x, split_halves y, ha, hb, hc, hd, toNat_hiDword, toNat_loDword,
      toNat_hiDword, toNat_loDword]
    ring
  have hbound := toNat_mul_lt x y
  rw [hproduct] at hbound ⊢
  simp only [UInt64.toNat_add, toNat_shiftLeft_32, toNat_shiftRight_32, toNat_ite,
    UInt64.lt_iff_toNat_lt, toNat_mul_halves ha' hc', toNat_mul_halves ha' hd',
    toNat_mul_halves hb' hc', toNat_mul_halves hb' hd'] at hmiddle hlow ⊢
  generalize a.toNat * c.toNat = ac at *
  generalize a.toNat * d.toNat = ad at *
  generalize b.toNat * c.toNat = bc at *
  generalize b.toNat * d.toNat = bd at *
  generalize (ad + bc) % 2 ^ 64 = adbc at *
  generalize (bd + adbc % 2 ^ 32 * 2 ^ 32) % 2 ^ 64 = low at *
  have hcarry : (if adbc < ad then 1 else 0) % 2 ^ 32 = if adbc < ad then 1 else 0 := by
    split <;> rfl
  rw [hcarry]
  generalize (if adbc < ad then 1 else 0) = adbcCarry at *
  generalize (if low < bd then 1 else 0) = lowCarry at *
  have hsum : low + 2 ^ 64 * (ac + adbc / 2 ^ 32 + adbcCarry * 2 ^ 32 + lowCarry) =
      ac * 2 ^ 64 + (ad + bc) * 2 ^ 32 + bd := by
    omega
  -- the high word does not wrap, since the product fits in two words
  rw [← hsum] at hbound ⊢
  have hhigh : ac + adbc / 2 ^ 32 + adbcCarry * 2 ^ 32 + lowCarry < 2 ^ 64 := by omega
  rw [Nat.mod_add_mod, Nat.mod_eq_of_lt (show ac + adbc / 2 ^ 32 < 2 ^ 64 by omega),
    Nat.mod_eq_of_lt hhigh]

/-! ### Division -/

/-- `div_with_reminder`: the quotient and the new remainder. -/
def divWithReminder (dividend : UInt64) (divisor remainder : UInt32) : UInt64 × UInt32 :=
  let dividend := dividend ||| remainder.toUInt64 <<< 32
  (dividend / divisor.toUInt64, (dividend % divisor.toUInt64).toUInt32)

/-- `div128_32`: `quotient_lo`, `quotient_hi` and the remainder. -/
def div128By32 (dividendHi dividendLo : UInt64) (divisor : UInt32) : UInt64 × UInt64 × UInt32 :=
  let (q₃, remainder) := divWithReminder (hiDword dividendHi) divisor 0
  let (q₂, remainder) := divWithReminder (loDword dividendHi) divisor remainder
  let (q₁, remainder) := divWithReminder (hiDword dividendLo) divisor remainder
  let (q₀, remainder) := divWithReminder (loDword dividendLo) divisor remainder
  (q₁ <<< 32 ||| q₀, q₃ <<< 32 ||| q₂, remainder)

theorem divWithReminder_spec {dividend : UInt64} {divisor remainder : UInt32} {n x : Nat}
    (hdividend : dividend.toNat = x) (hx : x < 2 ^ 32)
    (hremainder : remainder.toNat = n % divisor.toNat) (hdivisor : 0 < divisor.toNat) :
    (divWithReminder dividend divisor remainder).1.toNat =
        (n % divisor.toNat * 2 ^ 32 + x) / divisor.toNat ∧
      (divWithReminder dividend divisor remainder).2.toNat =
        (n * 2 ^ 32 + x) % divisor.toNat := by
  have hlt : remainder.toNat < 2 ^ 32 := remainder.toNat_lt
  have hor : (dividend ||| remainder.toUInt64 <<< 32).toNat =
      n % divisor.toNat * 2 ^ 32 + x := by
    rw [UInt64.or_comm, toNat_shiftLeft_or (hdividend ▸ hx), UInt32.toNat_toUInt64,
      Nat.mod_eq_of_lt hlt, hremainder, hdividend]
  constructor
  · rw [divWithReminder, UInt64.toNat_div, hor, UInt32.toNat_toUInt64]
  · have hmod := Nat.mod_lt (n % divisor.toNat * 2 ^ 32 + x) hdivisor
    have hsmall := divisor.toNat_lt
    rw [divWithReminder, UInt64.toNat_toUInt32, UInt64.toNat_mod, hor, UInt32.toNat_toUInt64,
      Nat.mod_eq_of_lt (by omega), Limbs.mul_add_mod n]

/-- The quotient of `div128_32` is that of the number in the two words. -/
theorem div128By32_spec (hi lo : UInt64) {divisor : UInt32} (hdivisor : 0 < divisor.toNat) :
    (div128By32 hi lo divisor).1.toNat + 2 ^ 64 * (div128By32 hi lo divisor).2.1.toNat =
      (hi.toNat * 2 ^ 64 + lo.toNat) / divisor.toNat := by
  unfold div128By32
  have hhi := hi.toNat_lt
  have hlo := lo.toNat_lt
  set d := divisor.toNat with hd
  -- the four steps divide ever longer prefixes of the dividend
  obtain ⟨hq3, hr3⟩ := divWithReminder_spec (n := 0) (toNat_hiDword hi) (by omega)
    (show (0 : UInt32).toNat = 0 % d by simp) hdivisor
  rw [Nat.zero_mul, Nat.zero_add] at hr3
  rw [Nat.zero_mod, Nat.zero_mul, Nat.zero_add] at hq3
  obtain ⟨hq2, hr2⟩ := divWithReminder_spec (toNat_loDword hi) (Nat.mod_lt _ (by decide)) hr3
    hdivisor
  rw [← split_halves] at hr2
  obtain ⟨hq1, hr1⟩ := divWithReminder_spec (toNat_hiDword lo) (by omega) hr2 hdivisor
  obtain ⟨hq0, -⟩ := divWithReminder_spec (toNat_loDword lo) (Nat.mod_lt _ (by decide)) hr1 hdivisor
  have hlt3 : hi.toNat / 2 ^ 32 / d < 2 ^ 32 := by
    have := Nat.div_le_self (hi.toNat / 2 ^ 32) d
    omega
  have hlt2 := Limbs.digit_div_lt (b := 2 ^ 32) (x := hi.toNat % 2 ^ 32)
    (Nat.mod_lt (hi.toNat / 2 ^ 32) hdivisor) (Nat.mod_lt _ (by decide))
  have hlt1 := Limbs.digit_div_lt (b := 2 ^ 32) (x := lo.toNat / 2 ^ 32)
    (Nat.mod_lt hi.toNat hdivisor) (by omega)
  have hlt0 := Limbs.digit_div_lt (b := 2 ^ 32) (x := lo.toNat % 2 ^ 32)
    (Nat.mod_lt (hi.toNat * 2 ^ 32 + lo.toNat / 2 ^ 32) hdivisor) (Nat.mod_lt _ (by decide))
  have hhigh : hi.toNat / d = hi.toNat / 2 ^ 32 / d * 2 ^ 32 +
      (hi.toNat / 2 ^ 32 % d * 2 ^ 32 + hi.toNat % 2 ^ 32) / d := by
    conv_lhs => rw [split_halves hi]
    exact Limbs.mul_add_div _ _ hdivisor
  have hlow : (hi.toNat * 2 ^ 64 + lo.toNat) / d = (hi.toNat / d * 2 ^ 32 +
      (hi.toNat % d * 2 ^ 32 + lo.toNat / 2 ^ 32) / d) * 2 ^ 32 +
      ((hi.toNat * 2 ^ 32 + lo.toNat / 2 ^ 32) % d * 2 ^ 32 + lo.toNat % 2 ^ 32) / d := by
    rw [← Limbs.mul_add_div _ _ hdivisor, ← Limbs.mul_add_div _ _ hdivisor,
      show hi.toNat * 2 ^ 64 + lo.toNat =
        (hi.toNat * 2 ^ 32 + lo.toNat / 2 ^ 32) * 2 ^ 32 + lo.toNat % 2 ^ 32 by omega]
  rw [toNat_shiftLeft_or (by rw [hq0]; exact hlt0), toNat_shiftLeft_or (by rw [hq2]; exact hlt2),
    hq0, hq1, hq2, hq3, Nat.mod_eq_of_lt hlt1, Nat.mod_eq_of_lt hlt3, ← hhigh, hlow]
  ring

end Lethean.Words
