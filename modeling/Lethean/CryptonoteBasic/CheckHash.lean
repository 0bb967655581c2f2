import Lethean.CryptonoteBasic.Difficulty
import Lethean.Common.Int128

/-!
# Lethean.CryptonoteBasic.CheckHash

`check_hash` of `difficulty.cpp` on machine words. A hash meets a difficulty if
their product stays below `2 ^ 256`; the source never forms the product, but
multiplies the four words of the hash one by one and keeps the carries. The
multiplication is `mul128` on x86-64 and a portable one elsewhere (`mul`), so
it is a parameter here: all that the test needs of it is `HoldsProduct`.
-/

namespace Lethean.Words

/-! ### The portable multiplication -/

/-- `mul`, where `__x86_64__` is not defined: `low` and `high`. -/
def mul (a b : UInt64) : UInt64 × UInt64 :=
  let aLow := a &&& 0xFFFFFFFF
  let aHigh := a >>> 32
  let bLow := b &&& 0xFFFFFFFF
  let bHigh := b >>> 32
  let res := aLow * bLow
  let lowRes1 := res &&& 0xFFFFFFFF
  let carry := res >>> 32
  let res := aHigh * bLow + carry
  let highResHigh1 := res >>> 32
  let highResLow1 := res &&& 0xFFFFFFFF
  let res := aLow * bHigh
  let lowRes2 := res &&& 0xFFFFFFFF
  let carry := res >>> 32
  let res := aHigh * bHigh + carry
  let highResHigh2 := res >>> 32
  let highResLow2 := res &&& 0xFFFFFFFF
  let r := highResLow1 + lowRes2
  let carry := r >>> 32
  let low := r <<< 32 ||| lowRes1
  let r := highResHigh1 + highResLow2 + carry
  let d3 := r &&& 0xFFFFFFFF
  let carry := r >>> 32
  let r := highResHigh2 + carry
  let high := d3 ||| r <<< 32
  (low, high)

theorem toNat_mul_add_halves {v w c : UInt64} (hv : v.toNat < 2 ^ 32) (hw : w.toNat < 2 ^ 32)
    (hc : c.toNat < 2 ^ 32) : (v * w + c).toNat = v.toNat * w.toNat + c.toNat := by
  rw [UInt64.toNat_add, toNat_mul_halves hv hw, Nat.mod_eq_of_lt]
  calc v.toNat * w.toNat + c.toNat < (2 ^ 32 - 1) * (2 ^ 32 - 1) + 2 ^ 32 :=
        Nat.add_lt_add_of_le_of_lt (Nat.mul_le_mul (by omega) (by omega)) hc
    _ < 2 ^ 64 := by norm_num

theorem toNat_shiftRight_lt (v : UInt64) : (v >>> 32).toNat < 2 ^ 32 := by
  have := v.toNat_lt
  rw [toNat_shiftRight_32]
  omega

theorem toNat_and_mask_lt (v : UInt64) : (v &&& 0xFFFFFFFF).toNat < 2 ^ 32 := by
  rw [toNat_and_mask]
  omega

theorem toNat_add_halves {v w : UInt64} (hv : v.toNat < 2 ^ 33) (hw : w.toNat < 2 ^ 33) :
    (v + w).toNat = v.toNat + w.toNat := by
  rw [UInt64.toNat_add, Nat.mod_eq_of_lt (by omega)]

theorem mul_spec (x y : UInt64) : HoldsProduct x y (mul x y) := by
  unfold HoldsProduct mul
  dsimp only
  have hproduct : x.toNat * y.toNat =
      (x >>> 32).toNat * (y >>> 32).toNat * (2 ^ 32 * 2 ^ 32) +
        ((x >>> 32).toNat * (y &&& 0xFFFFFFFF).toNat +
          (x &&& 0xFFFFFFFF).toNat * (y >>> 32).toNat) * 2 ^ 32 +
        (x &&& 0xFFFFFFFF).toNat * (y &&& 0xFFFFFFFF).toNat := by
    rw [split_halves x, split_halves y, toNat_shiftRight_32, toNat_and_mask, toNat_shiftRight_32,
      toNat_and_mask]
    ring
  have hbound := toNat_mul_lt x y
  have haHigh := toNat_shiftRight_lt x
  have haLow := toNat_and_mask_lt x
  have hbHigh := toNat_shiftRight_lt y
  have hbLow := toNat_and_mask_lt y
  generalize x >>> 32 = aHigh at *
  generalize x &&& 0xFFFFFFFF = aLow at *
  generalize y >>> 32 = bHigh at *
  generalize y &&& 0xFFFFFFFF = bLow at *
  have hu := toNat_mul_add_halves haHigh hbLow (toNat_shiftRight_lt (aLow * bLow))
  have hv := toNat_mul_add_halves haHigh hbHigh (toNat_shiftRight_lt (aLow * bHigh))
  rw [toNat_shiftRight_32, toNat_mul_halves haLow hbLow] at hu
  rw [toNat_shiftRight_32, toNat_mul_halves haLow hbHigh] at hv
  generalize aHigh * bLow + (aLow * bLow) >>> 32 = u at *
  generalize aHigh * bHigh + (aLow * bHigh) >>> 32 = v at *
  have hm : ((u &&& 0xFFFFFFFF) + (aLow * bHigh &&& 0xFFFFFFFF)).toNat =
      u.toNat % 2 ^ 32 + aLow.toNat * bHigh.toNat % 2 ^ 32 := by
    have := toNat_and_mask_lt u
    have := toNat_and_mask_lt (aLow * bHigh)
    rw [toNat_add_halves (by omega) (by omega), toNat_and_mask, toNat_and_mask,
      toNat_mul_halves haLow hbHigh]
  generalize (u &&& (0xFFFFFFFF : UInt64)) + (aLow * bHigh &&& (0xFFFFFFFF : UInt64)) = m at *
  have hsum : (u >>> 32 + (v &&& (0xFFFFFFFF : UInt64))).toNat =
      u.toNat / 2 ^ 32 + v.toNat % 2 ^ 32 := by
    have := toNat_shiftRight_lt u
    have := toNat_and_mask_lt v
    rw [toNat_add_halves (by omega) (by omega), toNat_shiftRight_32, toNat_and_mask]
  have hw : (u >>> 32 + (v &&& (0xFFFFFFFF : UInt64)) + m >>> 32).toNat =
      u.toNat / 2 ^ 32 + v.toNat % 2 ^ 32 + m.toNat / 2 ^ 32 := by
    have := u.toNat_lt
    have := toNat_shiftRight_lt m
    rw [toNat_add_halves (by rw [hsum]; omega) (by omega), hsum, toNat_shiftRight_32]
  generalize u >>> 32 + (v &&& (0xFFFFFFFF : UInt64)) + m >>> 32 = w at *
  have hrows := Limbs.rows_eq (2 ^ 32) _ _ _ _ hu hv hm hw
  rw [← hproduct] at hrows
  have hr : (v >>> 32 + w >>> 32).toNat = v.toNat / 2 ^ 32 + w.toNat / 2 ^ 32 := by
    have := toNat_shiftRight_lt v
    have := toNat_shiftRight_lt w
    rw [toNat_add_halves (by omega) (by omega), toNat_shiftRight_32, toNat_shiftRight_32]
  have hcarry : v.toNat / 2 ^ 32 + w.toNat / 2 ^ 32 < 2 ^ 32 := by omega
  rw [UInt64.or_comm (w &&& _), toNat_shiftLeft_or (toNat_and_mask_lt _),
    toNat_shiftLeft_or (toNat_and_mask_lt _), toNat_and_mask, toNat_and_mask,
    toNat_mul_halves haLow hbLow, hr, Nat.mod_eq_of_lt hcarry]
  exact hrows

/-! ### The carries of the test -/

def cadd (a b : UInt64) : Bool := a + b < a

def cadc (a b : UInt64) (c : Bool) : Bool := a + b < a || (c && a + b == 0xFFFFFFFFFFFFFFFF)

theorem cadd_eq (a b : UInt64) : cadd a b = Lethean.cadd a.toNat b.toNat := by
  rw [cadd, Lethean.cadd, decide_eq_decide, u64, UInt64.lt_iff_toNat_lt, UInt64.toNat_add]

theorem cadc_eq (a b : UInt64) (c : Bool) : cadc a b c = Lethean.cadc a.toNat b.toNat c := by
  have hadd : (a + b).toNat = u64 (a.toNat + b.toNat) := UInt64.toNat_add a b
  have hmax : a + b = 0xFFFFFFFFFFFFFFFF ↔ u64 (a.toNat + b.toNat) = 2 ^ 64 - 1 := by
    rw [← UInt64.toNat_inj, hadd]
    rfl
  rw [Bool.eq_iff_iff]
  simp only [cadc, Lethean.cadc, UInt64.lt_iff_toNat_lt, hadd, Bool.or_eq_true, Bool.and_eq_true,
    decide_eq_true_eq, beq_iff_eq, hmax]

/-! ### The test -/

/-- `swap64le(((const uint64_t *) &hash)[i])`. -/
def hashWord (hash : Hash) (i : Nat) : UInt64 := UInt64.ofNat (Lethean.hashWord hash i)

/-- `check_hash`, over either multiplication. -/
def checkHash (mul : UInt64 → UInt64 → UInt64 × UInt64) (hash : Hash) (difficulty : UInt64) :
    Bool :=
  if hash = nullHash then false
  else
    let (top, high) := mul (hashWord hash 3) difficulty
    if high ≠ 0 then false
    else
      let (_, cur) := mul (hashWord hash 0) difficulty
      let (low, high) := mul (hashWord hash 1) difficulty
      let carry := cadd cur low
      let cur := high
      let (low, high) := mul (hashWord hash 2) difficulty
      let carry := cadc cur low carry
      let carry := cadc high top carry
      !carry

theorem HoldsProduct.eq_mul128 {x y : UInt64} {p : UInt64 × UInt64} (h : HoldsProduct x y p) :
    p.1.toNat = x.toNat * y.toNat % 2 ^ 64 ∧ p.2.toNat = x.toNat * y.toNat / 2 ^ 64 :=
  ⟨congrArg Prod.fst h.eq, congrArg Prod.snd h.eq⟩

end Lethean.Words

namespace Lethean

/-! ### A hash as a number -/

theorem leNat_append (l1 l2 : List UInt8) :
    leNat (l1 ++ l2) = leNat l1 + 256 ^ l1.length * leNat l2 := by
  induction l1 with
  | nil => simp [leNat]
  | cons b l1 ih =>
    simp only [List.cons_append, leNat, ih, List.length_cons, pow_succ]
    ring

theorem leNat_lt (l : List UInt8) : leNat l < 256 ^ l.length := by
  induction l with
  | nil => simp [leNat]
  | cons b l ih =>
    have := b.toNat_lt
    simp only [leNat, List.length_cons, pow_succ]
    omega

theorem hashWord_lt (hash : Hash) (i : Nat) : hashWord hash i < 2 ^ 64 := by
  refine (leNat_lt _).trans_le ?_
  calc 256 ^ ((hash.toList.drop (8 * i)).take 8).length ≤ 256 ^ 8 :=
        Nat.pow_le_pow_right (by decide) (List.length_take_le _ _)
    _ = 2 ^ 64 := by norm_num

theorem leNat_hash (hash : Hash) : leNat hash.toList =
    Nat.ofDigits (2 ^ 64) [hashWord hash 0, hashWord hash 1, hashWord hash 2, hashWord hash 3] := by
  have hlen : hash.toList.length = 32 := hash.toList_length
  have hsplit : ∀ (l : List UInt8), 8 ≤ l.length →
      leNat l = leNat (l.take 8) + 2 ^ 64 * leNat (l.drop 8) := by
    intro l hl
    conv_lhs => rw [← List.take_append_drop 8 l, leNat_append, List.length_take, min_eq_left hl]
    norm_num
  have hlast : ((hash.toList.drop 24).take 8) = hash.toList.drop 24 :=
    List.take_of_length_le (by simp [hlen])
  rw [hsplit _ (by omega), hsplit (hash.toList.drop 8) (by simp [hlen]),
    hsplit ((hash.toList.drop 8).drop 8) (by simp [hlen])]
  simp only [hashWord, List.drop_drop, Nat.mul_zero, List.drop_zero, Nat.mul_one, hlast,
    Nat.ofDigits_cons, Nat.ofDigits_nil]
  norm_num

/-! ### The test is exact -/

theorem cadc_iff {a b : Nat} (ha : a < 2 ^ 64) (hb : b < 2 ^ 64) (c : Bool) :
    cadc a b c = true ↔ 2 ^ 64 ≤ a + b + c.toNat := by
  simp only [cadc, Bool.or_eq_true, Bool.and_eq_true, decide_eq_true_eq]
  exact Limbs.carry_iff ha hb c

theorem carry_eq {cur low c z : Nat} (hcur : cur < 2 ^ 64) (hlow : low < 2 ^ 64) {carry : Bool}
    (hc : c = cur + carry.toNat) :
    (low + 2 ^ 64 * z + c) / 2 ^ 64 = z + (cadc cur low carry).toNat := by
  have hle : carry.toNat ≤ 1 := Bool.toNat_le carry
  rw [hc, Limbs.add_div_eq hcur hlow hle]
  cases h : cadc cur low carry with
  | true => rw [if_pos ((cadc_iff hcur hlow carry).mp h), Bool.toNat_true]
  | false =>
    have hfits : ¬2 ^ 64 ≤ cur + low + carry.toNat := by
      rw [← cadc_iff hcur hlow carry, h]
      decide
    rw [if_neg hfits, Bool.toNat_false]

/-- `check_hash` on numbers: the running carry is that of the product. -/
theorem checkHash_iff (hash : Hash) {difficulty : Nat} (hd : difficulty < 2 ^ 64) :
    checkHash hash difficulty = true ↔
      hash ≠ nullHash ∧ leNat hash.toList * difficulty < 2 ^ 256 := by
  by_cases hnull : hash = nullHash
  · simp [checkHash, hnull]
  have hhigh (i : Nat) : hashWord hash i * difficulty / 2 ^ 64 < 2 ^ 64 := by
    rw [Nat.div_lt_iff_lt_mul (by decide)]
    exact Nat.mul_lt_mul'' (hashWord_lt hash i) hd
  have hlow (i : Nat) : hashWord hash i * difficulty % 2 ^ 64 < 2 ^ 64 := Nat.mod_lt _ (by decide)
  -- the carry out of the first words of the product, one more word at a time
  have hcarry (l : List Nat) (i : Nat) {cur : Nat} {carry : Bool} (hcur : cur < 2 ^ 64)
      (h : Nat.ofDigits (2 ^ 64) l * difficulty / (2 ^ 64) ^ l.length = cur + carry.toNat) :
      Nat.ofDigits (2 ^ 64) (l ++ [hashWord hash i]) * difficulty / (2 ^ 64) ^ (l.length + 1) =
        hashWord hash i * difficulty / 2 ^ 64 +
          (cadc cur (hashWord hash i * difficulty % 2 ^ 64) carry).toNat := by
    rw [Limbs.ofDigits_mul_div (by decide),
      ← Nat.mod_add_div (hashWord hash i * difficulty) (2 ^ 64), carry_eq hcur (hlow i) h,
      Nat.mod_add_div]
  have h1 : Nat.ofDigits (2 ^ 64) [hashWord hash 0] * difficulty / (2 ^ 64) ^ 1 =
      hashWord hash 0 * difficulty / 2 ^ 64 + false.toNat := by
    rw [Nat.ofDigits_singleton, pow_one, Bool.toNat_false, Nat.add_zero]
  have h4 := hcarry _ 3 (hhigh 2) (hcarry _ 2 (hhigh 1) (hcarry [hashWord hash 0] 1 (hhigh 0) h1))
  simp only [List.cons_append, List.nil_append, List.length_cons, List.length_nil] at h4
  have hproduct : leNat hash.toList * difficulty < 2 ^ 256 ↔
      leNat hash.toList * difficulty / (2 ^ 64) ^ 4 = 0 := by
    rw [show (2 : Nat) ^ 256 = (2 ^ 64) ^ 4 by norm_num, Nat.div_eq_zero_iff_lt (by decide)]
  have hcadd (a b : Nat) : cadd a b = cadc a b false := by simp [cadd, cadc]
  rw [hproduct, leNat_hash, h4]
  simp only [checkHash, mul128, hcadd, ne_eq, hnull, not_false_eq_true, true_and]
  generalize hashWord hash 3 * difficulty / 2 ^ 64 = high
  generalize cadc (hashWord hash 2 * difficulty / 2 ^ 64) _ _ = carry
  by_cases h : high = 0
  · cases carry <;> simp [h]
  · simp [h]

/-- Over a multiplication that holds the product, the words compute what the
numbers do. -/
theorem Words.checkHash_eq {mul : UInt64 → UInt64 → UInt64 × UInt64}
    (hmul : ∀ x y, Words.HoldsProduct x y (mul x y)) (hash : Hash) (difficulty : UInt64) :
    Words.checkHash mul hash difficulty = Lethean.checkHash hash difficulty.toNat := by
  have hword (i : Nat) : (Words.hashWord hash i).toNat = Lethean.hashWord hash i := by
    rw [Words.hashWord, UInt64.toNat_ofNat', Nat.mod_eq_of_lt (hashWord_lt hash i)]
  have heq (i : Nat) := (hmul (Words.hashWord hash i) difficulty).eq_mul128
  simp only [hword] at heq
  have hzero (w : UInt64) : w ≠ 0 ↔ w.toNat ≠ 0 := by
    rw [ne_eq, ne_eq, ← UInt64.toNat_inj]
    rfl
  simp only [Words.checkHash, Lethean.checkHash, Lethean.mul128, Words.cadd_eq, Words.cadc_eq, heq,
    hzero]
  congr

/-- **Proof of work.** A hash, read as a little-endian number, meets a 64-bit
difficulty exactly if it is not null and its product with the difficulty is
below `2 ^ 256`, whichever multiplication the platform uses. -/
theorem check_hash_exact (hash : Hash) (difficulty : UInt64) :
    (Words.checkHash Words.mul128 hash difficulty = true ↔
        hash ≠ nullHash ∧ leNat hash.toList * difficulty.toNat < 2 ^ 256) ∧
      (Words.checkHash Words.mul hash difficulty = true ↔
        hash ≠ nullHash ∧ leNat hash.toList * difficulty.toNat < 2 ^ 256) := by
  rw [Words.checkHash_eq Words.mul128_spec, Words.checkHash_eq Words.mul_spec]
  exact ⟨checkHash_iff hash difficulty.toNat_lt, checkHash_iff hash difficulty.toNat_lt⟩

end Lethean
