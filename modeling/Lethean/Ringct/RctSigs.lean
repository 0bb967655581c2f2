import Lethean.Ringct.Mlsag
import Lethean.Ringct.Range

/-!
# Lethean.Ringct.RctSigs

The RingCT signatures of a transaction, in two variants. `genRct` signs all
inputs with one ring signature at a common index, whose last row shows that the
commitments balance. `genRctSimple` signs every input with a ring of its own,
against a pseudo output, and the pseudo outputs balance in the open.
-/

namespace Lethean

namespace Ringct

structure RctSig (ℓ : Nat) (Point Key : Type) where
  type : RctType
  message : Key
  mixRing : List (List (CtKey Point))
  pseudoOuts : List Point
  ecdhInfo : List (EcdhTuple ℓ)
  outPk : List (CtKey Point)
  txnFee : XmrAmount
  rangeSigs : List (RangeSig ℓ Point)
  MGs : List (MgSig ℓ Point)

/-- What is random in `genRct`. -/
structure RctRandom (ℓ : Nat) where
  ranges : Nat → RangeRandom ℓ
  mlsag : MlsagRandom ℓ

/-- What is random in `genRctSimple`: also the masks of the pseudo outputs. -/
structure RctSimpleRandom (ℓ : Nat) where
  ranges : Nat → RangeRandom ℓ
  pseudoMasks : Nat → ZMod ℓ
  mlsags : Nat → MlsagRandom ℓ

section

variable {ℓ : Nat} {Point Key : Type} [AddCommGroup Point] [Module (ZMod ℓ) Point]
  (C : Curve ℓ Point Key)

/-! ### The message to sign -/

/-- The keys of a range proof that `get_pre_mlsag_hash` reads. -/
def rangeSigKeys (r : RangeSig ℓ Point) : List Key :=
  (List.ofFn r.asig.s0).map C.ofScalar ++ (List.ofFn r.asig.s1).map C.ofScalar ++
    [C.ofScalar r.asig.ee] ++ (List.ofFn r.Ci).map C.ofPoint

def getPreMlsagHash (rv : RctSig ℓ Point Key) : Except String Key := do
  checkAndAssertThrow (rv.type = .null ∨ rv.outPk.length = rv.ecdhInfo.length)
    "Failed to serialize rctSigBase"
  pure (C.cnFastHash
    [rv.message,
     C.baseHash rv.type rv.txnFee (if rv.type = .simple then rv.pseudoOuts else []) rv.ecdhInfo
      (rv.outPk.map (·.mask)),
     C.cnFastHash (rv.rangeSigs.flatMap (rangeSigKeys C))])

/-! ### Ring signatures over commitments -/

/-- The matrix of `proveRctMG` and `verRctMG`: the keys of a column, and what its
commitments exceed the outputs and the fee by. -/
def rctMatrix (pubs : List (List (CtKey Point))) (outPk : List (CtKey Point)) (txnFeeKey : Point) :
    List (List Point) :=
  pubs.map fun col =>
    col.map (·.dest) ++ [(col.map (·.mask)).sum - (outPk.map (·.mask)).sum - txnFeeKey]

/-- `proveRctMG`. Of `outSk` only the masks are set. -/
def proveRctMG (message : Key) (pubs : List (List (CtKey Point))) (inSk : List (CtKey (ZMod ℓ)))
    (outSk : List (ZMod ℓ)) (outPk : List (CtKey Point)) (index : Nat) (txnFeeKey : Point)
    (random : MlsagRandom ℓ) : Except String (MgSig ℓ Point) := do
  let cols := pubs.length
  checkAndAssertThrow (1 ≤ cols) "Empty pubs"
  let rows := (pubs.getD 0 []).length
  checkAndAssertThrow (1 ≤ rows) "Empty pubs"
  checkAndAssertThrow (∀ col ∈ pubs.tail, col.length = rows) "pubs is not rectangular"
  checkAndAssertThrow (inSk.length = rows) "Bad inSk size"
  checkAndAssertThrow (outSk.length = outPk.length) "Bad outSk/outPk size"
  let sk := inSk.map (·.dest) ++ [(inSk.map (·.mask)).sum - outSk.sum]
  mlsagGen C message (rctMatrix pubs outPk txnFeeKey) sk index rows random

def verRctMG (mg : MgSig ℓ Point) (pubs : List (List (CtKey Point))) (outPk : List (CtKey Point))
    (txnFeeKey : Point) (message : Key) : Bool :=
  let cols := pubs.length
  let rows := (pubs.getD 0 []).length
  decide (1 ≤ cols) && decide (1 ≤ rows) && decide (∀ col ∈ pubs.tail, col.length = rows) &&
    mlsagVer C message (rctMatrix pubs outPk txnFeeKey) mg rows

/-- The matrix of `proveRctMGSimple` and `verRctMGSimple`. -/
def rctMatrixSimple (pubs : List (CtKey Point)) (Cout : Point) : List (List Point) :=
  pubs.map fun pub => [pub.dest, pub.mask - Cout]

def proveRctMGSimple (message : Key) (pubs : List (CtKey Point)) (inSk : CtKey (ZMod ℓ))
    (a : ZMod ℓ) (Cout : Point) (index : Nat) (random : MlsagRandom ℓ) :
    Except String (MgSig ℓ Point) := do
  checkAndAssertThrow (1 ≤ pubs.length) "Empty pubs"
  mlsagGen C message (rctMatrixSimple pubs Cout) [inSk.dest, inSk.mask - a] index 1 random

def verRctMGSimple (message : Key) (mg : MgSig ℓ Point) (pubs : List (CtKey Point)) (Cout : Point) :
    Bool :=
  decide (1 ≤ pubs.length) && mlsagVer C message (rctMatrixSimple pubs Cout) mg 1

/-! ### Generation -/

/-- What the loop over the destinations computes for one of them. -/
structure Output (ℓ : Nat) (Point : Type) where
  outPk : CtKey Point
  mask : ZMod ℓ
  rangeSig : RangeSig ℓ Point
  ecdhInfo : EcdhTuple ℓ

def genOutput (destination : Point) (amount : XmrAmount) (amountKey : Key)
    (random : RangeRandom ℓ) : Output ℓ Point :=
  let proof := proveRange C amount random
  { outPk := { dest := destination, mask := proof.commitment }
    mask := proof.mask
    rangeSig := proof.sig
    ecdhInfo := C.ecdhEncode { mask := proof.mask, amount := d2h ℓ amount } amountKey }

/-- The loop over the destinations in `genRct` and `genRctSimple`. -/
def genOutputs (destinations : List Point) (amounts : List XmrAmount) (amountKeys : List Key)
    (random : Nat → RangeRandom ℓ) : List (Output ℓ Point) :=
  (destinations.zip (amounts.zip amountKeys)).zipIdx.map fun d =>
    genOutput C d.1.1 d.1.2.1 d.1.2.2 (random d.2)

/-- `genRct`: the signature, and the masks of the outputs. -/
def genRct (message : Key) (inSk : List (CtKey (ZMod ℓ))) (destinations : List Point)
    (amounts : List XmrAmount) (mixRing : List (List (CtKey Point))) (amountKeys : List Key)
    (index : Nat) (random : RctRandom ℓ) :
    Except String (RctSig ℓ Point Key × List (ZMod ℓ)) := do
  checkAndAssertThrow
    (amounts.length = destinations.length ∨ amounts.length = destinations.length + 1)
    "Different number of amounts/destinations"
  checkAndAssertThrow (amountKeys.length = destinations.length)
    "Different number of amount_keys/destinations"
  checkAndAssertThrow (index < mixRing.length) "Bad index into mixRing"
  checkAndAssertThrow (∀ col ∈ mixRing, col.length = inSk.length) "Bad mixRing size"
  let outs := genOutputs C destinations amounts amountKeys random.ranges
  let outSk := outs.map (·.mask)
  let txnFee := if destinations.length < amounts.length then amounts.getD destinations.length 0 else 0
  let rv : RctSig ℓ Point Key :=
    { type := .full
      message := message
      mixRing := mixRing
      pseudoOuts := []
      ecdhInfo := outs.map (·.ecdhInfo)
      outPk := outs.map (·.outPk)
      txnFee := txnFee
      rangeSigs := outs.map (·.rangeSig)
      MGs := [] }
  let fullMessage ← getPreMlsagHash C rv
  let mg ← proveRctMG C fullMessage mixRing inSk outSk rv.outPk index
    (C.scalarmultH (d2h ℓ txnFee)) random.mlsag
  pure ({ rv with MGs := [mg] }, outSk)

/-- The masks of the pseudo outputs: all but the last are random, and the last
makes their sum that of the output masks. -/
def pseudoMasks (inputs : Nat) (sumout : ZMod ℓ) (random : Nat → ZMod ℓ) : List (ZMod ℓ) :=
  let front := (List.range (inputs - 1)).map random
  front ++ [sumout - front.sum]

/-- The loop over the inputs at the end of `genRctSimple`. -/
def proveInputs (fullMessage : Key) (random : Nat → MlsagRandom ℓ) :
    List ((List (CtKey Point) × CtKey (ZMod ℓ)) × (ZMod ℓ × Point) × Nat) → Nat →
      Except String (List (MgSig ℓ Point))
  | [], _ => pure []
  | ((ring, inSk), (a, pseudoOut), index) :: rest, i => do
    let mg ← proveRctMGSimple C fullMessage ring inSk a pseudoOut index (random i)
    let mgs ← proveInputs fullMessage random rest (i + 1)
    pure (mg :: mgs)

def genRctSimple (message : Key) (inSk : List (CtKey (ZMod ℓ))) (destinations : List Point)
    (inamounts outamounts : List XmrAmount) (txnFee : XmrAmount)
    (mixRing : List (List (CtKey Point))) (amountKeys : List Key) (index : List Nat)
    (random : RctSimpleRandom ℓ) : Except String (RctSig ℓ Point Key × List (ZMod ℓ)) := do
  checkAndAssertThrow (0 < inamounts.length) "Empty inamounts"
  checkAndAssertThrow (inamounts.length = inSk.length) "Different number of inamounts/inSk"
  checkAndAssertThrow (outamounts.length = destinations.length)
    "Different number of amounts/destinations"
  checkAndAssertThrow (amountKeys.length = destinations.length)
    "Different number of amount_keys/destinations"
  checkAndAssertThrow (index.length = inSk.length) "Different number of index/inSk"
  checkAndAssertThrow (mixRing.length = inSk.length) "Different number of mixRing/inSk"
  checkAndAssertThrow (∀ p ∈ mixRing.zip index, p.2 < p.1.length) "Bad index into mixRing"
  let outs := genOutputs C destinations outamounts amountKeys random.ranges
  let outSk := outs.map (·.mask)
  let a := pseudoMasks inamounts.length outSk.sum random.pseudoMasks
  let rv : RctSig ℓ Point Key :=
    { type := .simple
      message := message
      mixRing := mixRing
      pseudoOuts := List.zipWith C.genC a inamounts
      ecdhInfo := outs.map (·.ecdhInfo)
      outPk := outs.map (·.outPk)
      txnFee := txnFee
      rangeSigs := outs.map (·.rangeSig)
      MGs := [] }
  let fullMessage ← getPreMlsagHash C rv
  let mgs ← proveInputs C fullMessage random.mlsags
    ((mixRing.zip inSk).zip ((a.zip rv.pseudoOuts).zip index)) 0
  pure ({ rv with MGs := mgs }, outSk)

/-! ### Verification and decoding -/

variable [DecidableEq Point]

/-- `verRct`. Without a signature in `MGs` the source reads past its end. -/
def verRct (rv : RctSig ℓ Point Key) (semantics : Bool) : Bool :=
  decide (rv.type = .full) &&
    if semantics then
      decide (rv.outPk.length = rv.rangeSigs.length) &&
        decide (rv.outPk.length = rv.ecdhInfo.length) && decide (rv.MGs.length = 1) &&
        (rv.outPk.zip rv.rangeSigs).all fun o => verRange C o.1.mask o.2
    else
      match rv.MGs, getPreMlsagHash C rv with
      | mg :: _, .ok message =>
        verRctMG C mg rv.mixRing rv.outPk (C.scalarmultH (d2h ℓ rv.txnFee)) message
      | _, _ => false

def verRctSimple (rv : RctSig ℓ Point Key) (semantics : Bool) : Bool :=
  decide (rv.type = .simple) &&
    if semantics then
      decide (rv.outPk.length = rv.rangeSigs.length) &&
        decide (rv.outPk.length = rv.ecdhInfo.length) &&
        decide (rv.pseudoOuts.length = rv.MGs.length) &&
        decide (rv.pseudoOuts.sum =
          C.scalarmultH (d2h ℓ rv.txnFee) + (rv.outPk.map (·.mask)).sum) &&
        (rv.outPk.zip rv.rangeSigs).all fun o => verRange C o.1.mask o.2
    else
      decide (rv.pseudoOuts.length = rv.mixRing.length) &&
        match getPreMlsagHash C rv with
        | .ok message =>
          rv.mixRing.zipIdx.all fun ring =>
            match rv.MGs[ring.2]?, rv.pseudoOuts[ring.2]? with
            | some mg, some pseudoOut => verRctMGSimple C message mg ring.1 pseudoOut
            | _, _ => false
        | .error _ => false

/-- `decodeRct` and `decodeRctSimple`, which differ in the type they expect: the
amount and the mask. For another type the amount is 0 and the mask is left
alone. -/
def decode (type : RctType) (rv : RctSig ℓ Point Key) (sk : Key) (i : Nat) :
    Except String (XmrAmount × Option (ZMod ℓ)) := do
  if rv.type ≠ type then pure (0, none) else
  checkAndAssertThrow (rv.outPk.length = rv.ecdhInfo.length)
    "Mismatched sizes of rv.outPk and rv.ecdhInfo"
  match rv.ecdhInfo[i]?, rv.outPk[i]? with
  | some masked, some outPk =>
    let info := C.ecdhDecode masked sk
    checkAndAssertThrow (outPk.mask = C.addKeys2 info.mask info.amount C.H)
      "warning, amount decoded incorrectly, will be unable to spend"
    pure (h2d info.amount, some info.mask)
  | _, _ => throw "Bad index"

def decodeRct (rv : RctSig ℓ Point Key) (sk : Key) (i : Nat) :
    Except String (XmrAmount × Option (ZMod ℓ)) := decode C .full rv sk i

def decodeRctSimple (rv : RctSig ℓ Point Key) (sk : Key) (i : Nat) :
    Except String (XmrAmount × Option (ZMod ℓ)) := decode C .simple rv sk i

end

end Ringct

end Lethean
