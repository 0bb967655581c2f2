import Mathlib

/-!
# Lethean.Ringct.RctOps

The types of `rctTypes.h` and the operations of `rctOps.cpp` over an abstract
group. The points form a module over the scalars `ZMod ℓ`, where `ℓ` is the order
of the group; the source computes with the points and scalars as 32 byte keys,
and all scalars it writes are reduced. Hashes are arbitrary functions of the
keys they read.
-/

namespace Lethean

namespace Ringct

abbrev XmrAmount := UInt64

/-- `ctkey`: a destination and a mask, as points or as the scalars behind them. -/
structure CtKey (α : Type) where
  dest : α
  mask : α

/-- `ecdhTuple`, without the unused `senderPk`. -/
structure EcdhTuple (ℓ : Nat) where
  mask : ZMod ℓ
  amount : ZMod ℓ

/-- `RCTTypeNull`, `RCTTypeFull` and `RCTTypeSimple`. -/
inductive RctType
  | null
  | full
  | simple
  deriving DecidableEq, Repr

structure Curve (ℓ : Nat) (Point Key : Type) where
  /-- The base point. -/
  G : Point
  /-- The second generator. -/
  H : Point
  /-- `ge_p3_tobytes`. -/
  ofPoint : Point → Key
  /-- The bytes of a scalar. -/
  ofScalar : ZMod ℓ → Key
  hashToPoint : Point → Point
  hashToScalar : List Key → ZMod ℓ
  cnFastHash : List Key → Key
  /-- The hash of what `serialize_rctsig_base` writes: the type, the fee, the
  pseudo outputs, the encoded amounts and the output commitments. -/
  baseHash : RctType → XmrAmount → List Point → List (EcdhTuple ℓ) → List Point → Key

/-- `d2h`: an amount as a scalar. -/
def d2h (ℓ : Nat) (amount : XmrAmount) : ZMod ℓ := amount.toNat

/-- `h2d`: the low 8 bytes of a scalar. -/
def h2d {ℓ : Nat} (s : ZMod ℓ) : XmrAmount := UInt64.ofNat s.val

theorem h2d_d2h {ℓ : Nat} (h : 2 ^ 64 ≤ ℓ) (amount : XmrAmount) : h2d (d2h ℓ amount) = amount := by
  have hlt : amount.toNat < ℓ := lt_of_lt_of_le amount.toNat_lt h
  rw [h2d, d2h, ZMod.val_natCast_of_lt hlt, UInt64.ofNat_toNat]

section

variable {ℓ : Nat} {Point Key : Type} [AddCommGroup Point] [Module (ZMod ℓ) Point]
  (C : Curve ℓ Point Key)

namespace Curve

def addKeys2 (a b : ZMod ℓ) (B : Point) : Point := a • C.G + b • B

def scalarmultH (a : ZMod ℓ) : Point := a • C.H

/-- `genC`: the commitment to an amount. -/
def genC (a : ZMod ℓ) (amount : XmrAmount) : Point := a • C.G + C.scalarmultH (d2h ℓ amount)

/-- The table `H2`. -/
def H2 (i : Nat) : Point := (2 ^ i : ZMod ℓ) • C.H

def ecdhEncode (unmasked : EcdhTuple ℓ) (sharedSec : Key) : EcdhTuple ℓ :=
  let sharedSec1 := C.hashToScalar [sharedSec]
  let sharedSec2 := C.hashToScalar [C.ofScalar sharedSec1]
  { mask := unmasked.mask + sharedSec1, amount := unmasked.amount + sharedSec2 }

def ecdhDecode (masked : EcdhTuple ℓ) (sharedSec : Key) : EcdhTuple ℓ :=
  let sharedSec1 := C.hashToScalar [sharedSec]
  let sharedSec2 := C.hashToScalar [C.ofScalar sharedSec1]
  { mask := masked.mask - sharedSec1, amount := masked.amount - sharedSec2 }

omit [AddCommGroup Point] [Module (ZMod ℓ) Point] in
theorem ecdhDecode_ecdhEncode (unmasked : EcdhTuple ℓ) (sharedSec : Key) :
    C.ecdhDecode (C.ecdhEncode unmasked sharedSec) sharedSec = unmasked := by
  simp [ecdhDecode, ecdhEncode]

end Curve

def addKeys3 (a : ZMod ℓ) (A : Point) (b : ZMod ℓ) (B : Point) : Point := a • A + b • B

end

/-! ### Checks that throw -/

/-- `CHECK_AND_ASSERT_THROW_MES`. -/
def checkAndAssertThrow (p : Prop) [Decidable p] (message : String) : Except String Unit :=
  if p then .ok () else .error message

theorem assertThrow_bind {p : Prop} [Decidable p] {message : String} {α : Type}
    (h : p) (f : Unit → Except String α) : (checkAndAssertThrow p message >>= f) = f () := by
  rw [checkAndAssertThrow, if_pos h]
  rfl

section

variable {ε α β : Type} {x : Except ε α} {b : β}

theorem bind_eq_ok {f : α → Except ε β} : (x >>= f) = .ok b ↔ ∃ a, x = .ok a ∧ f a = .ok b := by
  cases x with
  | ok a => simp [bind, Except.bind]
  | error e => simp [bind, Except.bind]

theorem map_eq_ok {f : α → β} : x.map f = .ok b ↔ ∃ a, x = .ok a ∧ f a = b := by
  cases x with
  | ok a => simp [Except.map]
  | error e => simp [Except.map]

end

theorem assertThrow_bind_eq_ok {p : Prop} [Decidable p] {message : String} {α : Type}
    {f : Unit → Except String α} {a : α} :
    (checkAndAssertThrow p message >>= f) = .ok a ↔ p ∧ f () = .ok a := by
  by_cases h : p
  · rw [assertThrow_bind h, and_iff_right h]
  · simp [checkAndAssertThrow, h, bind, Except.bind]

end Ringct

end Lethean
