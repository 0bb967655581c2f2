import Mathlib

/-!
# Lethean.Lib.SignificantBits

Rounding of natural numbers to a number of significant bits, to the nearest and ties
to even: what a conversion to a floating point type and a product of such numbers do,
as long as exponents are in range. A number with a binary fraction is taken as its
numerator, since rounding commutes with powers of two (`round_mul_pow`).
-/

namespace SignificantBits

variable {p n a b : Nat}

/-- The number of low bits that do not fit. -/
def excess (p n : Nat) : Nat := n.log2 + 1 - p

/-- The quotient by a unit, rounded to the nearest, ties to even. -/
def nearest (n unit : Nat) : Nat :=
  n / unit + if unit < 2 * (n % unit) ∨ 2 * (n % unit) = unit ∧ n / unit % 2 = 1 then 1 else 0

/-- `n` rounded to `p` significant bits. -/
def round (p n : Nat) : Nat := nearest n (2 ^ excess p n) * 2 ^ excess p n

/-! ### Rounding by one unit -/

theorem nearest_one (n : Nat) : nearest n 1 = n := by
  simp [nearest, Nat.mod_one]

theorem le_nearest (n unit : Nat) : n / unit ≤ nearest n unit := Nat.le_add_right _ _

theorem nearest_le (n unit : Nat) : nearest n unit ≤ n / unit + 1 := by
  unfold nearest
  split <;> omega

theorem nearest_mono {unit : Nat} (h : a ≤ b) : nearest a unit ≤ nearest b unit := by
  rcases Nat.lt_or_ge (a / unit) (b / unit) with hlt | hge
  · exact (nearest_le a unit).trans (Nat.succ_le_of_lt hlt |>.trans (le_nearest b unit))
  have hquot : a / unit = b / unit := Nat.le_antisymm (Nat.div_le_div_right h) hge
  have hmod : a % unit ≤ b % unit := by
    have ha := Nat.div_add_mod a unit
    have hb := Nat.div_add_mod b unit
    rw [hquot] at ha
    omega
  unfold nearest
  rw [hquot]
  split <;> split <;> omega

theorem nearest_mul {unit c : Nat} (hc : 0 < c) : nearest (n * c) (unit * c) = nearest n unit := by
  unfold nearest
  rw [Nat.mul_div_mul_right _ _ hc, Nat.mul_mod_mul_right, ← Nat.mul_assoc]
  simp only [Nat.mul_lt_mul_right hc, Nat.mul_left_inj (Nat.ne_of_gt hc)]

theorem nearest_of_dvd {unit : Nat} (hunit : 0 < unit) (h : unit ∣ n) :
    nearest n unit * unit = n := by
  have hmod : n % unit = 0 := Nat.mod_eq_zero_of_dvd h
  unfold nearest
  rw [hmod, if_neg (by omega), Nat.add_zero, Nat.div_mul_cancel h]

/-! ### Rounding to significant bits -/

theorem excess_eq_zero (hp : 0 < p) (h : n < 2 ^ p) : excess p n = 0 := by
  unfold excess
  by_cases hn : n = 0
  · subst hn
    rw [Nat.log2_zero]
    omega
  · have := (Nat.log2_lt hn).mpr h
    omega

theorem round_of_lt (hp : 0 < p) (h : n < 2 ^ p) : round p n = n := by
  rw [round, excess_eq_zero hp h, pow_zero, nearest_one, Nat.mul_one]

theorem pow_log2_succ (h : 2 ^ p ≤ n) : 2 ^ (n.log2 + 1) = 2 ^ p * 2 ^ excess p n := by
  have hn : n ≠ 0 := by
    have := Nat.two_pow_pos p
    omega
  have hlog := (Nat.le_log2 hn).mpr h
  rw [← pow_add, excess]
  congr 1
  omega

theorem round_le_pow (hp : 0 < p) (n : Nat) : round p n ≤ 2 ^ (n.log2 + 1) := by
  rcases Nat.lt_or_ge n (2 ^ p) with hlt | hge
  · rw [round_of_lt hp hlt]
    exact Nat.lt_log2_self.le
  · have hquot : n / 2 ^ excess p n < 2 ^ p := by
      rw [Nat.div_lt_iff_lt_mul (Nat.two_pow_pos _), ← pow_log2_succ hge]
      exact Nat.lt_log2_self
    rw [pow_log2_succ hge]
    exact Nat.mul_le_mul_right _ ((nearest_le n _).trans hquot)

theorem pow_le_round (hp : 0 < p) (hn : n ≠ 0) : 2 ^ n.log2 ≤ round p n := by
  have hle := Nat.log2_self_le hn
  have hdvd : 2 ^ excess p n ∣ 2 ^ n.log2 := by
    refine pow_dvd_pow 2 ?_
    unfold excess
    omega
  calc
    2 ^ n.log2 = nearest (2 ^ n.log2) (2 ^ excess p n) * 2 ^ excess p n :=
      (nearest_of_dvd (Nat.two_pow_pos _) hdvd).symm
    _ ≤ round p n := Nat.mul_le_mul_right _ (nearest_mono hle)

/-- A larger number is not rounded to less, also when its unit is larger. -/
theorem round_mono (hp : 0 < p) (h : a ≤ b) : round p a ≤ round p b := by
  by_cases ha : a = 0
  · subst ha
    rw [round_of_lt hp (Nat.two_pow_pos p)]
    exact Nat.zero_le _
  have hb : b ≠ 0 := by omega
  have hlog : a.log2 ≤ b.log2 := (Nat.le_log2 hb).mpr ((Nat.log2_self_le ha).trans h)
  rcases Nat.eq_or_lt_of_le hlog with heq | hlt
  · have hexcess : excess p a = excess p b := by rw [excess, excess, heq]
    rw [round, round, hexcess]
    exact Nat.mul_le_mul_right _ (nearest_mono h)
  · calc
      round p a ≤ 2 ^ (a.log2 + 1) := round_le_pow hp a
      _ ≤ 2 ^ b.log2 := Nat.pow_le_pow_right (by decide) hlt
      _ ≤ round p b := pow_le_round hp hb

theorem log2_mul_pow (hn : n ≠ 0) (k : Nat) : (n * 2 ^ k).log2 = n.log2 + k := by
  rw [Nat.log2_eq_iff (Nat.mul_ne_zero hn (Nat.two_pow_pos k).ne'), pow_add, Nat.add_right_comm,
    pow_add]
  exact ⟨Nat.mul_le_mul_right _ (Nat.log2_self_le hn),
    (Nat.mul_lt_mul_right (Nat.two_pow_pos k)).mpr Nat.lt_log2_self⟩

theorem round_mul_pow (hp : 0 < p) (n k : Nat) : round p (n * 2 ^ k) = round p n * 2 ^ k := by
  by_cases hn : n = 0
  · subst hn
    simp [round_of_lt hp (Nat.two_pow_pos p)]
  rcases Nat.lt_or_ge n (2 ^ p) with hlt | hge
  · -- no bit of `n` is lost, with or without the zeros behind it
    have hdvd : 2 ^ excess p (n * 2 ^ k) ∣ n * 2 ^ k := by
      refine Dvd.dvd.mul_left (pow_dvd_pow 2 ?_) n
      have := (Nat.log2_lt hn).mpr hlt
      rw [excess, log2_mul_pow hn]
      omega
    rw [round_of_lt hp hlt, round, nearest_of_dvd (Nat.two_pow_pos _) hdvd]
  · have hlog := (Nat.le_log2 hn).mpr hge
    have hexcess : excess p (n * 2 ^ k) = excess p n + k := by
      rw [excess, excess, log2_mul_pow hn]
      omega
    rw [round, round, hexcess, pow_add, nearest_mul (Nat.two_pow_pos k), Nat.mul_assoc]

theorem round_round (hp : 0 < p) (n : Nat) : round p (round p n) = round p n := by
  rcases Nat.lt_or_ge n (2 ^ p) with hlt | hge
  · rw [round_of_lt hp hlt, round_of_lt hp hlt]
  have hnearest : nearest n (2 ^ excess p n) ≤ 2 ^ p := by
    refine Nat.le_of_mul_le_mul_right ?_ (Nat.two_pow_pos (excess p n))
    rw [← pow_log2_succ hge]
    exact round_le_pow hp n
  rcases Nat.eq_or_lt_of_le hnearest with heq | hlt
  · -- rounded up to the next power of two
    have hone : round p 1 = 1 := round_of_lt hp (Nat.one_lt_two_pow hp.ne')
    have hround : round p n = 1 * 2 ^ (p + excess p n) := by
      rw [round, heq, Nat.one_mul, pow_add]
    rw [hround, round_mul_pow hp, hone]
  · have hround : round p n = nearest n (2 ^ excess p n) * 2 ^ excess p n := rfl
    rw [hround, round_mul_pow hp, round_of_lt hp hlt]

/-- Numbers up to a power of two that is scaled back: a factor below one does not round
to more than the number itself. -/
theorem round_mul_le (hp : 0 < p) {c k : Nat} (hc : c ≤ 2 ^ k) (n : Nat) :
    round p (round p n * c) ≤ round p n * 2 ^ k := by
  calc
    round p (round p n * c) ≤ round p (round p n * 2 ^ k) :=
      round_mono hp (Nat.mul_le_mul_left _ hc)
    _ = round p n * 2 ^ k := by rw [round_mul_pow hp, round_round hp]

end SignificantBits
