import Lethean.Ringct.RctOps

/-!
# Lethean.Ringct.Range

Range proofs: `proveRange` commits to each of the 64 bits of an amount, and
shows with a Borromean ring signature that every commitment is to 0 or to the
power of two of its position.
-/

namespace Lethean

namespace Ringct

structure BoroSig (ℓ : Nat) where
  s0 : Fin 64 → ZMod ℓ
  s1 : Fin 64 → ZMod ℓ
  ee : ZMod ℓ

structure RangeSig (ℓ : Nat) (Point : Type) where
  asig : BoroSig ℓ
  Ci : Fin 64 → Point

/-- The random scalars of `proveRange` and `genBorromean`. -/
structure RangeRandom (ℓ : Nat) where
  ai : Fin 64 → ZMod ℓ
  alpha : Fin 64 → ZMod ℓ
  s0 : Fin 64 → ZMod ℓ
  s1 : Fin 64 → ZMod ℓ

/-- `d2b`: the bits of an amount. -/
def d2b (amount : XmrAmount) (i : Fin 64) : Bool := amount.toNat.testBit i

section

variable {ℓ : Nat} {Point Key : Type} [AddCommGroup Point] [Module (ZMod ℓ) Point]
  (C : Curve ℓ Point Key)

/-! ### Borromean signatures -/

/-- `hash_to_scalar` of a `key64`. -/
def hashToScalar64 (L : Fin 64 → Point) : ZMod ℓ := C.hashToScalar ((List.ofFn L).map C.ofPoint)

/-- `genBorromean`: at every position, for the key of `P2` where the index is
set, for that of `P1` where it is not. -/
def genBorromean (x : Fin 64 → ZMod ℓ) (P1 P2 : Fin 64 → Point) (indices : Fin 64 → Bool)
    (random : RangeRandom ℓ) : BoroSig ℓ :=
  let aG := fun i => random.alpha i • C.G
  let L1 := fun i =>
    if indices i then aG i
    else C.addKeys2 (random.s1 i) (C.hashToScalar [C.ofPoint (aG i)]) (P2 i)
  let ee := hashToScalar64 C L1
  let LL := fun i => C.addKeys2 (random.s0 i) ee (P1 i)
  { s0 := fun i => if indices i then random.s0 i else random.alpha i - x i * ee
    s1 := fun i =>
      if indices i then random.alpha i - x i * C.hashToScalar [C.ofPoint (LL i)] else random.s1 i
    ee := ee }

def verifyBorromean (bb : BoroSig ℓ) (P1 P2 : Fin 64 → Point) : Bool :=
  let LL := fun i => C.addKeys2 (bb.s0 i) bb.ee (P1 i)
  let Lv1 := fun i => C.addKeys2 (bb.s1 i) (C.hashToScalar [C.ofPoint (LL i)]) (P2 i)
  decide (hashToScalar64 C Lv1 = bb.ee)

theorem verifyBorromean_genBorromean {x : Fin 64 → ZMod ℓ} {P1 P2 : Fin 64 → Point}
    {indices : Fin 64 → Bool} (random : RangeRandom ℓ)
    (h : ∀ i, (if indices i then P2 i else P1 i) = x i • C.G) :
    verifyBorromean C (genBorromean C x P1 P2 indices random) P1 P2 = true := by
  have hclosed : ∀ a x c : ZMod ℓ, C.addKeys2 (a - x * c) c (x • C.G) = a • C.G := by
    intro a x c
    rw [Curve.addKeys2]
    module
  rw [verifyBorromean, decide_eq_true_eq]
  refine congrArg (hashToScalar64 C) (funext fun i => ?_)
  -- the last points agree: the signer knows one link of each ring
  have hi := h i
  cases hbit : indices i with
  | true =>
    rw [hbit, if_pos rfl] at hi
    simp only [genBorromean, hbit, if_true, hi, hclosed]
  | false =>
    rw [hbit, if_neg (by simp)] at hi
    simp only [genBorromean, hbit, Bool.false_eq_true, if_false, hi, hclosed]

/-! ### Range proofs -/

/-- What `proveRange` computes: the commitment, its mask and the proof. -/
structure RangeProof (ℓ : Nat) (Point : Type) where
  commitment : Point
  mask : ZMod ℓ
  sig : RangeSig ℓ Point

def proveRange (amount : XmrAmount) (random : RangeRandom ℓ) : RangeProof ℓ Point :=
  let b := d2b amount
  let Ci := fun i => if b i then random.ai i • C.G + C.H2 i else random.ai i • C.G
  let CiH := fun i => Ci i - C.H2 i
  { commitment := ∑ i, Ci i
    mask := ∑ i, random.ai i
    sig := { asig := genBorromean C random.ai Ci CiH b random, Ci := Ci } }

variable [DecidableEq Point]

def verRange (commitment : Point) (as : RangeSig ℓ Point) : Bool :=
  let CiH := fun i => as.Ci i - C.H2 i
  decide (commitment = ∑ i, as.Ci i) && verifyBorromean C as.asig as.Ci CiH

theorem verRange_proveRange (amount : XmrAmount) (random : RangeRandom ℓ) :
    verRange C (proveRange C amount random).commitment (proveRange C amount random).sig = true := by
  rw [verRange, Bool.and_eq_true, decide_eq_true_eq]
  refine ⟨rfl, verifyBorromean_genBorromean C random fun i => ?_⟩
  cases hbit : d2b amount i with
  | true => simp [hbit]
  | false => simp

end

/-! ### The commitment -/

theorem sum_testBit (x n : Nat) :
    ∑ i ∈ Finset.range n, (if x.testBit i then 2 ^ i else 0) = x % 2 ^ n := by
  induction n with
  | zero => simp [Nat.mod_one]
  | succ n ih =>
    have hbit : (if x.testBit n then 2 ^ n else 0) = 2 ^ n * (x / 2 ^ n % 2) := by
      rw [Nat.testBit_eq_decide_div_mod_eq]
      rcases Nat.mod_two_eq_zero_or_one (x / 2 ^ n) with h | h <;> simp [h]
    rw [Finset.sum_range_succ, ih, hbit, Nat.pow_succ, Nat.mod_mul]

theorem sum_d2b (ℓ : Nat) (amount : XmrAmount) :
    ∑ i, (if d2b amount i then 2 ^ (i : Nat) else 0 : ZMod ℓ) = d2h ℓ amount := by
  have hnat : ∑ i : Fin 64, (if amount.toNat.testBit i then 2 ^ (i : Nat) else 0) = amount.toNat := by
    rw [Fin.sum_univ_eq_sum_range fun i => if amount.toNat.testBit i then 2 ^ i else 0,
      sum_testBit, Nat.mod_eq_of_lt amount.toNat_lt]
  rw [d2h, ← hnat, Nat.cast_sum]
  refine Finset.sum_congr rfl fun i _ => ?_
  rw [d2b]
  split <;> simp

/-- The commitments to the bits add up to a commitment to the amount. -/
theorem proveRange_commitment {ℓ : Nat} {Point Key : Type} [AddCommGroup Point]
    [Module (ZMod ℓ) Point] (C : Curve ℓ Point Key) (amount : XmrAmount) (random : RangeRandom ℓ) :
    (proveRange C amount random).commitment = C.genC (proveRange C amount random).mask amount := by
  have hCi : ∀ i, (proveRange C amount random).sig.Ci i =
      random.ai i • C.G + (if d2b amount i then 2 ^ (i : Nat) else 0 : ZMod ℓ) • C.H := by
    intro i
    cases hbit : d2b amount i with
    | true => simp [proveRange, hbit, Curve.H2]
    | false => simp [proveRange, hbit]
  calc (proveRange C amount random).commitment
      = ∑ i, (proveRange C amount random).sig.Ci i := rfl
    _ = ∑ i, (random.ai i • C.G + (if d2b amount i then 2 ^ (i : Nat) else 0 : ZMod ℓ) • C.H) :=
        Finset.sum_congr rfl fun i _ => hCi i
    _ = (∑ i, random.ai i) • C.G +
        (∑ i, (if d2b amount i then 2 ^ (i : Nat) else 0 : ZMod ℓ)) • C.H := by
        rw [Finset.sum_add_distrib, Finset.sum_smul, Finset.sum_smul]
    _ = C.genC (proveRange C amount random).mask amount := by
        rw [sum_d2b]
        rfl

end Ringct

end Lethean
