import Lethean.Ringct.RctSigs

/-!
# Lethean.Ringct.Completeness

An honest signer is accepted: for a balanced payment the signatures of `genRct`
and `genRctSimple` pass both halves of their verification, and the holder of an
amount key reads the amount and the mask of an output.
-/

namespace Lethean

namespace Ringct

section

variable {ℓ : Nat} {Point Key : Type} [AddCommGroup Point] [Module (ZMod ℓ) Point]
  (C : Curve ℓ Point Key)

/-! ### Commitments -/

theorem sum_zipWith_genC {masks : List (ZMod ℓ)} {amounts : List XmrAmount}
    (h : masks.length = amounts.length) :
    (List.zipWith C.genC masks amounts).sum =
      masks.sum • C.G + (amounts.map (d2h ℓ)).sum • C.H := by
  induction masks generalizing amounts with
  | nil =>
    obtain rfl : amounts = [] := List.length_eq_zero_iff.mp h.symm
    simp
  | cons mask masks ih =>
    cases amounts with
    | nil => simp at h
    | cons amount amounts =>
      rw [List.zipWith_cons_cons, List.sum_cons, ih (by simpa using h), List.sum_cons,
        List.map_cons, List.sum_cons, Curve.genC, Curve.scalarmultH]
      module

theorem sum_d2h (ℓ : Nat) (amounts : List XmrAmount) :
    (amounts.map (d2h ℓ)).sum = (((amounts.map (·.toNat)).sum : Nat) : ZMod ℓ) := by
  induction amounts with
  | nil => simp
  | cons amount amounts ih => simp [ih, d2h]

/-! ### Outputs -/

section

variable {destinations : List Point} {amounts : List XmrAmount} {amountKeys : List Key}
  (random : Nat → RangeRandom ℓ)

theorem getElem?_genOutputs {i : Nat} {destination : Point} {amount : XmrAmount} {amountKey : Key}
    (hdestination : destinations[i]? = some destination) (hamount : amounts[i]? = some amount)
    (hkey : amountKeys[i]? = some amountKey) :
    (genOutputs C destinations amounts amountKeys random)[i]? =
      some (genOutput C destination amount amountKey (random i)) := by
  have hzip : (destinations.zip (amounts.zip amountKeys))[i]? =
      some (destination, amount, amountKey) :=
    List.getElem?_zip_eq_some.mpr ⟨hdestination, List.getElem?_zip_eq_some.mpr ⟨hamount, hkey⟩⟩
  simp [genOutputs, hzip]

section

variable (hamounts : amounts.length = destinations.length)
  (hkeys : amountKeys.length = destinations.length)
include hamounts hkeys

theorem length_genOutputs :
    (genOutputs C destinations amounts amountKeys random).length = destinations.length := by
  simp [genOutputs, hamounts, hkeys]

theorem genOutputs_append (rest : List XmrAmount) :
    genOutputs C destinations (amounts ++ rest) amountKeys random =
      genOutputs C destinations amounts amountKeys random := by
  have hzip : (amounts ++ rest).zip amountKeys = amounts.zip amountKeys := by
    have happend : (amounts ++ rest).zip (amountKeys ++ []) =
        amounts.zip amountKeys ++ rest.zip [] := List.zip_append (hamounts.trans hkeys.symm)
    simpa using happend
  rw [genOutputs, genOutputs, hzip]

theorem map_mask_genOutputs :
    (genOutputs C destinations amounts amountKeys random).map (·.outPk.mask) =
      List.zipWith C.genC ((genOutputs C destinations amounts amountKeys random).map (·.mask))
        amounts := by
  refine List.ext_getElem? fun i => ?_
  by_cases hi : i < destinations.length
  · have ha : i < amounts.length := hamounts.symm ▸ hi
    have hk : i < amountKeys.length := hkeys.symm ▸ hi
    have hget := getElem?_genOutputs C random (List.getElem?_eq_getElem hi)
      (List.getElem?_eq_getElem ha) (List.getElem?_eq_getElem hk)
    simp [List.getElem?_map, List.getElem?_zipWith, hget, List.getElem?_eq_getElem ha, genOutput,
      proveRange_commitment]
  · rw [List.getElem?_eq_none, List.getElem?_eq_none]
    · simp [length_genOutputs C random hamounts hkeys, hamounts]
      omega
    · simp [length_genOutputs C random hamounts hkeys]
      omega

theorem sum_mask_genOutputs :
    ((genOutputs C destinations amounts amountKeys random).map (·.outPk.mask)).sum =
      ((genOutputs C destinations amounts amountKeys random).map (·.mask)).sum • C.G +
        (amounts.map (d2h ℓ)).sum • C.H := by
  rw [map_mask_genOutputs C random hamounts hkeys, sum_zipWith_genC]
  rw [List.length_map, length_genOutputs C random hamounts hkeys, hamounts]

end

end

theorem getPreMlsagHash_ok {ℓ : Nat} {Point Key : Type} (C : Curve ℓ Point Key)
    (rv : RctSig ℓ Point Key) (h : rv.outPk.length = rv.ecdhInfo.length) :
    ∃ message, getPreMlsagHash C rv = .ok message := by
  unfold getPreMlsagHash
  rw [assertThrow_bind (.inr h)]
  exact ⟨_, rfl⟩

/-! ### A payment -/

/-- A balanced payment: what is spent, with the secret keys, and what it is spent
on. -/
structure Payment (ℓ : Nat) (Point Key : Type) where
  inSk : List (CtKey (ZMod ℓ))
  inamounts : List XmrAmount
  destinations : List Point
  outamounts : List XmrAmount
  amountKeys : List Key
  txnFee : XmrAmount
  length_inamounts : inamounts.length = inSk.length
  length_outamounts : outamounts.length = destinations.length
  length_amountKeys : amountKeys.length = destinations.length
  balanced : (inamounts.map (·.toNat)).sum = (outamounts.map (·.toNat)).sum + txnFee.toNat

def ownKey (inSk : CtKey (ZMod ℓ)) (amount : XmrAmount) : CtKey Point :=
  { dest := inSk.dest • C.G, mask := C.genC inSk.mask amount }

variable (p : Payment ℓ Point Key)

/-- A ring for `genRct`: columns with a member for every input, of which one
belongs to the payer. -/
structure FullRing where
  mixRing : List (List (CtKey Point))
  index : Nat
  two_le : 2 ≤ mixRing.length
  rectangular : ∀ col ∈ mixRing, col.length = p.inSk.length
  own : mixRing[index]? = some (List.zipWith (ownKey C) p.inSk p.inamounts)

/-- Rings for `genRctSimple`: one for each input, with a member of the payer. -/
structure SimpleRings where
  mixRing : List (List (CtKey Point))
  index : List Nat
  length_mixRing : mixRing.length = p.inSk.length
  length_index : index.length = p.inSk.length
  two_le : ∀ ring ∈ mixRing, 2 ≤ ring.length
  own : ∀ (n i : Nat) (ring : List (CtKey Point)) (inSk : CtKey (ZMod ℓ)) (amount : XmrAmount),
    mixRing[n]? = some ring → index[n]? = some i → p.inSk[n]? = some inSk →
      p.inamounts[n]? = some amount → ring[i]? = some (ownKey C inSk amount)

variable {C p}

omit [AddCommGroup Point] [Module (ZMod ℓ) Point] in
theorem Payment.sum_inamounts :
    (p.inamounts.map (d2h ℓ)).sum = (p.outamounts.map (d2h ℓ)).sum + d2h ℓ p.txnFee := by
  rw [sum_d2h, sum_d2h, p.balanced, d2h]
  push_cast
  ring

/-! ### The full signature -/

/-- The last row of the payer's column is the public key of the difference of
the masks. -/
theorem Payment.balance (p : Payment ℓ Point Key) (random : Nat → RangeRandom ℓ) :
    let outs := genOutputs C p.destinations p.outamounts p.amountKeys random
    ((List.zipWith (ownKey C) p.inSk p.inamounts).map (·.mask)).sum -
        ((outs.map (·.outPk)).map (·.mask)).sum - C.scalarmultH (d2h ℓ p.txnFee) =
      ((p.inSk.map (·.mask)).sum - (outs.map (·.mask)).sum) • C.G := by
  intro outs
  have hin : (List.zipWith (ownKey C) p.inSk p.inamounts).map (·.mask) =
      List.zipWith C.genC (p.inSk.map (·.mask)) p.inamounts := by
    rw [List.map_zipWith, List.zipWith_map_left]
    rfl
  have hout : (outs.map (·.outPk)).map (·.mask) = outs.map (·.outPk.mask) := by
    rw [List.map_map]
    rfl
  rw [hin, hout, sum_zipWith_genC C (by simp [p.length_inamounts]),
    sum_mask_genOutputs C random p.length_outamounts p.length_amountKeys, p.sum_inamounts,
    Curve.scalarmultH]
  module

theorem Payment.map_dest_own (p : Payment ℓ Point Key) :
    (List.zipWith (ownKey C) p.inSk p.inamounts).map (·.dest) =
      (p.inSk.map (·.dest)).map (· • C.G) := by
  refine List.ext_getElem (by simp [p.length_inamounts]) fun i hi hi' => ?_
  simp [ownKey]

/-- The one ring signature of `genRct` is made and accepted. -/
theorem FullRing.verRctMG_proveRctMG (ring : FullRing C p) (hinputs : p.inSk ≠ []) (message : Key)
    (ranges : Nat → RangeRandom ℓ) (random : MlsagRandom ℓ) :
    let outs := genOutputs C p.destinations p.outamounts p.amountKeys ranges
    let txnFeeKey := C.scalarmultH (d2h ℓ p.txnFee)
    ∃ mg, proveRctMG C message ring.mixRing p.inSk (outs.map (·.mask)) (outs.map (·.outPk))
        ring.index txnFeeKey random = .ok mg ∧
      verRctMG C mg ring.mixRing (outs.map (·.outPk)) txnFeeKey message = true := by
  intro outs txnFeeKey
  have hpos : 1 ≤ p.inSk.length := List.length_pos_iff.mpr hinputs
  have hcols : 1 ≤ ring.mixRing.length := le_trans (by omega) ring.two_le
  have hrows : (ring.mixRing.getD 0 []).length = p.inSk.length := by
    rw [List.getD_eq_getElem _ _ (by omega : 0 < ring.mixRing.length)]
    exact ring.rectangular _ (List.getElem_mem _)
  have htail : ∀ col ∈ ring.mixRing.tail, col.length = p.inSk.length := fun col hcol =>
    ring.rectangular col (List.mem_of_mem_tail hcol)
  set sk := p.inSk.map (·.dest) ++ [(p.inSk.map (·.mask)).sum - (outs.map (·.mask)).sum] with hsk
  have hsklength : sk.length = p.inSk.length + 1 := by simp [hsk]
  have hown : (rctMatrix ring.mixRing (outs.map (·.outPk)) txnFeeKey)[ring.index]? =
      some (sk.map (· • C.G)) := by
    rw [rctMatrix, List.getElem?_map, ring.own, Option.map_some, p.map_dest_own, p.balance ranges,
      hsk, List.map_append]
    rfl
  have hrect : ∀ col ∈ rctMatrix ring.mixRing (outs.map (·.outPk)) txnFeeKey,
      col.length = sk.length := by
    intro col hcol
    obtain ⟨col', hcol', rfl⟩ := List.mem_map.mp hcol
    simp [ring.rectangular col' hcol', hsklength]
  obtain ⟨mg, hgen, hver⟩ := mlsagVer_mlsagGen C message random
    (by simpa [rctMatrix] using ring.two_le) (by omega) hrect
    (by omega : p.inSk.length ≤ sk.length) hown
  refine ⟨mg, ?_, ?_⟩
  · unfold proveRctMG
    simp only [hrows]
    rw [assertThrow_bind hcols, assertThrow_bind hpos,
      assertThrow_bind htail, assertThrow_bind trivial,
      assertThrow_bind (by simp)]
    exact hgen
  · simp only [verRctMG, hrows, Bool.and_eq_true, decide_eq_true_eq]
    exact ⟨⟨⟨hcols, hpos⟩, htail⟩, hver⟩

/-! ### What both signatures share -/

section

variable [DecidableEq Point]

theorem all_verRange_genOutputs (p : Payment ℓ Point Key) (ranges : Nat → RangeRandom ℓ) :
    let outs := genOutputs C p.destinations p.outamounts p.amountKeys ranges
    (((outs.map (·.outPk)).zip (outs.map (·.rangeSig))).all
      fun o => verRange C o.1.mask o.2) = true := by
  intro outs
  rw [List.zip_map', List.all_eq_true]
  intro o ho
  obtain ⟨out, hout, rfl⟩ := List.mem_map.mp ho
  obtain ⟨d, -, rfl⟩ := List.mem_map.mp hout
  exact verRange_proveRange C _ _

variable {destinations : List Point} {amounts : List XmrAmount} {amountKeys : List Key} {i : Nat}
  {amount : XmrAmount} {amountKey message : Key} {inSk : List (CtKey (ZMod ℓ))}
  {mixRing : List (List (CtKey Point))} {rv : RctSig ℓ Point Key} {random : RctSimpleRandom ℓ}
  {result : RctSig ℓ Point Key × List (ZMod ℓ)}

/-- The holder of an amount key reads the amount and the mask. -/
theorem decode_genOutputs (horder : 2 ^ 64 ≤ ℓ) (ranges : Nat → RangeRandom ℓ)
    (rv : RctSig ℓ Point Key) {type : RctType} (htype : rv.type = type) (hecdhInfo : rv.ecdhInfo =
      (genOutputs C destinations amounts amountKeys ranges).map (·.ecdhInfo))
    (houtPk : rv.outPk = (genOutputs C destinations amounts amountKeys ranges).map (·.outPk))
    (hi : i < destinations.length) (hamount : amounts[i]? = some amount)
    (hkey : amountKeys[i]? = some amountKey) :
    ∃ mask, ((genOutputs C destinations amounts amountKeys ranges).map (·.mask))[i]? =
        some mask ∧
      decode C type rv amountKey i = .ok (amount, some mask) := by
  have hout := getElem?_genOutputs C ranges (List.getElem?_eq_getElem hi) hamount hkey
  refine ⟨(proveRange C amount (ranges i)).mask, by rw [List.getElem?_map, hout]; rfl, ?_⟩
  have hcommitment : (proveRange C amount (ranges i)).commitment =
      C.addKeys2 (proveRange C amount (ranges i)).mask (d2h ℓ amount) C.H :=
    proveRange_commitment C amount (ranges i)
  unfold decode
  rw [if_neg (by simp [htype]), assertThrow_bind (by simp [hecdhInfo, houtPk]), hecdhInfo,
    houtPk, List.getElem?_map, List.getElem?_map, hout]
  simp only [Option.map_some, genOutput, Curve.ecdhDecode_ecdhEncode]
  rw [assertThrow_bind hcommitment, h2d_d2h horder]
  rfl

/-- What `genRct` returns decodes, balanced or not. -/
theorem decode_of_genRct (horder : 2 ^ 64 ≤ ℓ) {index : Nat} {random : RctRandom ℓ}
    {outSk : List (ZMod ℓ)}
    (h : genRct C message inSk destinations amounts mixRing amountKeys index random =
      .ok (rv, outSk)) (hi : i < destinations.length) (hamount : amounts[i]? = some amount)
    (hkey : amountKeys[i]? = some amountKey) :
    ∃ mask, decode C rv.type rv amountKey i = .ok (amount, some mask) := by
  simp only [genRct, assertThrow_bind_eq_ok] at h
  obtain ⟨-, -, -, -, h⟩ := h
  obtain ⟨fullMessage, -, h⟩ := bind_eq_ok.mp h
  obtain ⟨mg, -, h⟩ := bind_eq_ok.mp h
  have hrv := (Except.ok.inj h).symm
  obtain ⟨mask, -, hdecode⟩ := decode_genOutputs (C := C) horder random.ranges rv rfl
    (congrArg (fun r => r.1.ecdhInfo) hrv) (congrArg (fun r => r.1.outPk) hrv) hi hamount hkey
  exact ⟨mask, hdecode⟩

/-- What `genRctSimple` returns decodes, balanced or not. -/
theorem decode_of_genRctSimple (horder : 2 ^ 64 ≤ ℓ) {inamounts outamounts : List XmrAmount}
    {txnFee : XmrAmount} {index : List Nat} {outSk : List (ZMod ℓ)}
    (h : genRctSimple C message inSk destinations inamounts outamounts txnFee mixRing amountKeys
      index random = .ok (rv, outSk)) (hi : i < destinations.length)
    (hamount : outamounts[i]? = some amount) (hkey : amountKeys[i]? = some amountKey) :
    ∃ mask, decode C rv.type rv amountKey i = .ok (amount, some mask) := by
  simp only [genRctSimple, assertThrow_bind_eq_ok] at h
  obtain ⟨-, -, -, -, -, -, -, h⟩ := h
  obtain ⟨fullMessage, -, h⟩ := bind_eq_ok.mp h
  obtain ⟨mgs, -, h⟩ := bind_eq_ok.mp h
  have hrv := (Except.ok.inj h).symm
  obtain ⟨mask, -, hdecode⟩ := decode_genOutputs (C := C) horder random.ranges rv rfl
    (congrArg (fun r => r.1.ecdhInfo) hrv) (congrArg (fun r => r.1.outPk) hrv) hi hamount hkey
  exact ⟨mask, hdecode⟩

omit [AddCommGroup Point] [Module (ZMod ℓ) Point] [DecidableEq Point] in
theorem Payment.lt_of_outamounts (h : p.outamounts[i]? = some amount) : i < p.destinations.length :=
  p.length_outamounts ▸ (List.getElem?_eq_some_iff.mp h).1

/-- A signature passes both halves of its verification, and its outputs decode
to the amounts of the payment and to the masks of `outSk`. -/
def Accepted (verify : RctSig ℓ Point Key → Bool → Bool)
    (decodeOutput : RctSig ℓ Point Key → Key → Nat → Except String (XmrAmount × Option (ZMod ℓ)))
    (p : Payment ℓ Point Key) (rv : RctSig ℓ Point Key) (outSk : List (ZMod ℓ)) : Prop :=
  verify rv true = true ∧ verify rv false = true ∧
    ∀ i amount amountKey, p.outamounts[i]? = some amount → p.amountKeys[i]? = some amountKey →
      ∃ mask, outSk[i]? = some mask ∧ decodeOutput rv amountKey i = .ok (amount, some mask)

/-- The amounts `genRct` gets: a fee of 0 may be left out. -/
def Payment.Amounts (p : Payment ℓ Point Key) (amounts : List XmrAmount) : Prop :=
  amounts = p.outamounts ++ [p.txnFee] ∨ p.txnFee = 0 ∧ amounts = p.outamounts

omit [AddCommGroup Point] [Module (ZMod ℓ) Point] [DecidableEq Point] in
theorem Payment.Amounts.length_eq (h : p.Amounts amounts) :
    amounts.length = p.destinations.length ∨ amounts.length = p.destinations.length + 1 := by
  rcases h with rfl | ⟨-, rfl⟩
  · exact .inr (by simp [p.length_outamounts])
  · exact .inl p.length_outamounts

omit [AddCommGroup Point] [Module (ZMod ℓ) Point] [DecidableEq Point] in
theorem Payment.Amounts.txnFee_eq (h : p.Amounts amounts) :
    (if p.destinations.length < amounts.length then amounts.getD p.destinations.length 0 else 0) =
      p.txnFee := by
  rcases h with rfl | ⟨hzero, rfl⟩
  · simp [← p.length_outamounts]
  · simp [hzero, p.length_outamounts]

omit [DecidableEq Point] in
theorem Payment.Amounts.genOutputs_eq (h : p.Amounts amounts) (ranges : Nat → RangeRandom ℓ) :
    genOutputs C p.destinations amounts p.amountKeys ranges =
      genOutputs C p.destinations p.outamounts p.amountKeys ranges := by
  rcases h with rfl | ⟨-, rfl⟩
  · exact genOutputs_append C ranges p.length_outamounts p.length_amountKeys _
  · rfl

/-- `genRct` signs the payment, and the signature is accepted. -/
theorem FullRing.genRct_accepted (horder : 2 ^ 64 ≤ ℓ) (ring : FullRing C p) (hinputs : p.inSk ≠ [])
    (message : Key) (hamounts : p.Amounts amounts) (random : RctRandom ℓ) :
    ∃ rv outSk, genRct C message p.inSk p.destinations amounts ring.mixRing p.amountKeys ring.index
        random = .ok (rv, outSk) ∧
      Accepted (verRct C) (decodeRct C) p rv outSk := by
  obtain ⟨hindex, -⟩ := List.getElem?_eq_some_iff.mp ring.own
  set outs := genOutputs C p.destinations p.outamounts p.amountKeys random.ranges with houts
  -- the signature without the ring signature, and the hash that is signed
  let base : RctSig ℓ Point Key :=
    { type := .full, message := message, mixRing := ring.mixRing, pseudoOuts := []
      ecdhInfo := outs.map (·.ecdhInfo), outPk := outs.map (·.outPk), txnFee := p.txnFee
      rangeSigs := outs.map (·.rangeSig), MGs := [] }
  obtain ⟨fullMessage, hmessage⟩ := getPreMlsagHash_ok C base (by simp [base])
  obtain ⟨mg, hprove, hver⟩ :=
    ring.verRctMG_proveRctMG hinputs fullMessage random.ranges random.mlsag
  refine ⟨{ base with MGs := [mg] }, outs.map (·.mask), ?_, ?_, ?_, ?_⟩
  · unfold genRct
    rw [assertThrow_bind hamounts.length_eq, assertThrow_bind p.length_amountKeys,
      assertThrow_bind hindex, assertThrow_bind ring.rectangular,
      hamounts.genOutputs_eq, hamounts.txnFee_eq]
    change (getPreMlsagHash C base >>= fun fullMessage => _) = _
    rw [hmessage]
    change (proveRctMG C fullMessage ring.mixRing p.inSk (outs.map (·.mask)) (outs.map (·.outPk))
      ring.index (C.scalarmultH (d2h ℓ p.txnFee)) random.mlsag >>= fun mg => _) = _
    rw [hprove]
    rfl
  · have hranges := all_verRange_genOutputs (C := C) p random.ranges
    simp only [verRct, base, if_true, Bool.and_eq_true, decide_eq_true_eq]
    exact ⟨trivial, ⟨⟨by simp, by simp⟩, by simp⟩, hranges⟩
  · have hmessage' : getPreMlsagHash C { base with MGs := [mg] } = .ok fullMessage := hmessage
    simp only [verRct, hmessage']
    simpa [base] using hver
  · intro i amount amountKey hamount hkey
    exact decode_genOutputs horder random.ranges _ rfl rfl rfl (Payment.lt_of_outamounts hamount)
      hamount hkey

/-! ### The simple signature -/

omit [DecidableEq Point] in
theorem verRctMGSimple_proveRctMGSimple (message : Key) {ring : List (CtKey Point)}
    {inSk : CtKey (ZMod ℓ)} (a : ZMod ℓ) (random : MlsagRandom ℓ) (hring : 2 ≤ ring.length)
    (hown : ring[i]? = some (ownKey C inSk amount)) :
    ∃ mg, proveRctMGSimple C message ring inSk a (C.genC a amount) i random = .ok mg ∧
      verRctMGSimple C message mg ring (C.genC a amount) = true := by
  have hpos : 1 ≤ ring.length := by omega
  have hcol : (rctMatrixSimple ring (C.genC a amount))[i]? =
      some ([inSk.dest, inSk.mask - a].map (· • C.G)) := by
    have hdiff : C.genC inSk.mask amount - C.genC a amount = (inSk.mask - a) • C.G := by
      simp only [Curve.genC]
      module
    rw [rctMatrixSimple, List.getElem?_map, hown, Option.map_some, ownKey]
    simp [hdiff]
  have hrect : ∀ col ∈ rctMatrixSimple ring (C.genC a amount),
      col.length = [inSk.dest, inSk.mask - a].length := by
    intro col hcol
    obtain ⟨pub, -, rfl⟩ := List.mem_map.mp hcol
    rfl
  obtain ⟨mg, hgen, hver⟩ := mlsagVer_mlsagGen C message random
    (by simpa [rctMatrixSimple] using hring) (by simp) hrect
    (by simp : 1 ≤ [inSk.dest, inSk.mask - a].length) hcol
  refine ⟨mg, ?_, ?_⟩
  · rwa [proveRctMGSimple, assertThrow_bind hpos]
  · rw [verRctMGSimple, Bool.and_eq_true, decide_eq_true_eq]
    exact ⟨hpos, hver⟩

omit [DecidableEq Point] in
theorem proveInputs_accepted (message : Key) (random : Nat → MlsagRandom ℓ)
    {items : List ((List (CtKey Point) × CtKey (ZMod ℓ)) × (ZMod ℓ × Point) × Nat)}
    (h : ∀ item ∈ items, ∃ amount, item.2.1.2 = C.genC item.2.1.1 amount ∧
      2 ≤ item.1.1.length ∧ item.1.1[item.2.2]? = some (ownKey C item.1.2 amount)) (k : Nat) :
    ∃ mgs, proveInputs C message random items k = .ok mgs ∧ mgs.length = items.length ∧
      ∀ (n : Nat) item mg, items[n]? = some item → mgs[n]? = some mg →
        verRctMGSimple C message mg item.1.1 item.2.1.2 = true := by
  induction items generalizing k with
  | nil => exact ⟨[], rfl, rfl, by simp⟩
  | cons item items ih =>
    obtain ⟨⟨ring, inSk⟩, ⟨a, pseudoOut⟩, i⟩ := item
    obtain ⟨amount, hpseudoOut, hring, hown⟩ := h _ (List.mem_cons_self ..)
    dsimp only at hpseudoOut hring hown
    subst hpseudoOut
    obtain ⟨mg, hprove, hver⟩ :=
      verRctMGSimple_proveRctMGSimple message a (random k) hring hown
    obtain ⟨mgs, hrest, hlength, hvers⟩ :=
      ih (fun item hitem => h item (List.mem_cons_of_mem _ hitem)) (k + 1)
    refine ⟨mg :: mgs, ?_, by simp [hlength], ?_⟩
    · rw [proveInputs, hprove]
      rw [hrest]
      rfl
    · intro n item' mg' hitem hmg
      cases n with
      | zero =>
        cases hitem
        cases hmg
        exact hver
      | succ n => exact hvers n item' mg' hitem hmg

theorem length_pseudoMasks {inputs : Nat} (h : 0 < inputs) (sumout : ZMod ℓ)
    (random : Nat → ZMod ℓ) : (pseudoMasks inputs sumout random).length = inputs := by
  simp [pseudoMasks]
  omega

theorem sum_pseudoMasks (inputs : Nat) (sumout : ZMod ℓ) (random : Nat → ZMod ℓ) :
    (pseudoMasks inputs sumout random).sum = sumout := by
  simp [pseudoMasks]

omit [DecidableEq Point] in
theorem SimpleRings.own_item (rings : SimpleRings C p) {a : List (ZMod ℓ)}
    {item : (List (CtKey Point) × CtKey (ZMod ℓ)) × (ZMod ℓ × Point) × Nat}
    (h : item ∈ (rings.mixRing.zip p.inSk).zip
      ((a.zip (List.zipWith C.genC a p.inamounts)).zip rings.index)) :
    ∃ amount, item.2.1.2 = C.genC item.2.1.1 amount ∧ 2 ≤ item.1.1.length ∧
      item.1.1[item.2.2]? = some (ownKey C item.1.2 amount) := by
  obtain ⟨n, hn⟩ := List.mem_iff_getElem?.mp h
  obtain ⟨⟨ring, inSk⟩, ⟨a, pseudoOut⟩, i⟩ := item
  obtain ⟨hleft, hright⟩ := List.getElem?_zip_eq_some.mp hn
  obtain ⟨hring, hinSk⟩ := List.getElem?_zip_eq_some.mp hleft
  obtain ⟨hmasks, hindex⟩ := List.getElem?_zip_eq_some.mp hright
  obtain ⟨ha, hpseudoOut⟩ := List.getElem?_zip_eq_some.mp hmasks
  obtain ⟨a', amount, ha', hamount, hgenC⟩ := List.getElem?_zipWith_eq_some.mp hpseudoOut
  obtain rfl : a = a' := by
    rw [ha] at ha'
    exact Option.some.inj ha'
  exact ⟨amount, hgenC.symm, rings.two_le ring (List.mem_of_getElem? hring),
    rings.own n i ring inSk amount hring hindex hinSk hamount⟩

omit [DecidableEq Point] in
theorem SimpleRings.index_lt (rings : SimpleRings C p) :
    ∀ q ∈ rings.mixRing.zip rings.index, q.2 < q.1.length := by
  intro q hq
  obtain ⟨n, hn⟩ := List.mem_iff_getElem?.mp hq
  obtain ⟨hring, hindex⟩ := List.getElem?_zip_eq_some.mp hn
  have hlt : n < p.inSk.length :=
    rings.length_mixRing ▸ (List.getElem?_eq_some_iff.mp hring).1
  have hown := rings.own n q.2 q.1 _ _ hring hindex (List.getElem?_eq_getElem hlt)
    (List.getElem?_eq_getElem (p.length_inamounts.symm ▸ hlt))
  exact (List.getElem?_eq_some_iff.mp hown).1

omit [DecidableEq Point] in
theorem Payment.sum_pseudoOuts (p : Payment ℓ Point Key) {a : List (ZMod ℓ)}
    (ranges : Nat → RangeRandom ℓ) (hlength : a.length = p.inamounts.length)
    (hsum : a.sum =
      ((genOutputs C p.destinations p.outamounts p.amountKeys ranges).map (·.mask)).sum) :
    (List.zipWith C.genC a p.inamounts).sum = C.scalarmultH (d2h ℓ p.txnFee) +
      (((genOutputs C p.destinations p.outamounts p.amountKeys ranges).map (·.outPk)).map
        (·.mask)).sum := by
  have hout := sum_mask_genOutputs C ranges p.length_outamounts p.length_amountKeys
  rw [sum_zipWith_genC C hlength, hsum, List.map_map, p.sum_inamounts, Curve.scalarmultH]
  refine Eq.trans ?_ (congrArg _ hout.symm)
  module

/-- `genRctSimple` signs the payment, and the signature is accepted. -/
theorem SimpleRings.genRctSimple_accepted (horder : 2 ^ 64 ≤ ℓ) (rings : SimpleRings C p)
    (hinputs : p.inSk ≠ []) (message : Key) (random : RctSimpleRandom ℓ) :
    ∃ rv outSk, genRctSimple C message p.inSk p.destinations p.inamounts p.outamounts p.txnFee
        rings.mixRing p.amountKeys rings.index random = .ok (rv, outSk) ∧
      Accepted (verRctSimple C) (decodeRctSimple C) p rv outSk := by
  have hpos : 0 < p.inamounts.length := by
    rw [p.length_inamounts]
    exact List.length_pos_iff.mpr hinputs
  set outs := genOutputs C p.destinations p.outamounts p.amountKeys random.ranges with houts
  set a := pseudoMasks p.inamounts.length (outs.map (·.mask)).sum random.pseudoMasks with ha
  have halength : a.length = p.inamounts.length := length_pseudoMasks hpos _ _
  let base : RctSig ℓ Point Key :=
    { type := .simple, message := message, mixRing := rings.mixRing
      pseudoOuts := List.zipWith C.genC a p.inamounts, ecdhInfo := outs.map (·.ecdhInfo)
      outPk := outs.map (·.outPk), txnFee := p.txnFee, rangeSigs := outs.map (·.rangeSig)
      MGs := [] }
  obtain ⟨fullMessage, hmessage⟩ := getPreMlsagHash_ok C base (by simp [base])
  set items := (rings.mixRing.zip p.inSk).zip
    ((a.zip (List.zipWith C.genC a p.inamounts)).zip rings.index)
  obtain ⟨mgs, hprove, hlength, hvers⟩ := proveInputs_accepted fullMessage random.mlsags
    (fun item hitem => rings.own_item (a := a) hitem) 0
  refine ⟨{ base with MGs := mgs }, outs.map (·.mask), ?_, ?_, ?_, ?_⟩
  · unfold genRctSimple
    rw [assertThrow_bind hpos, assertThrow_bind p.length_inamounts,
      assertThrow_bind p.length_outamounts, assertThrow_bind p.length_amountKeys,
      assertThrow_bind rings.length_index, assertThrow_bind rings.length_mixRing,
      assertThrow_bind rings.index_lt]
    change (getPreMlsagHash C base >>= fun fullMessage => _) = _
    rw [hmessage]
    change (proveInputs C fullMessage random.mlsags items 0 >>= fun mgs => _) = _
    rw [hprove]
    rfl
  · have hranges := all_verRange_genOutputs (C := C) p random.ranges
    have hsum := p.sum_pseudoOuts random.ranges halength (sum_pseudoMasks _ _ _)
    simp only [verRctSimple, base, if_true, Bool.and_eq_true, decide_eq_true_eq]
    refine ⟨trivial, ⟨⟨⟨by simp, by simp⟩, ?_⟩, hsum⟩, hranges⟩
    simp [hlength, halength, p.length_inamounts, rings.length_mixRing, rings.length_index]
  · have hmessage' : getPreMlsagHash C { base with MGs := mgs } = .ok fullMessage := hmessage
    simp only [verRctSimple, hmessage', Bool.and_eq_true, decide_eq_true_eq, Bool.false_eq_true,
      if_false, List.all_eq_true]
    refine ⟨rfl, by simp [base, halength, p.length_inamounts, rings.length_mixRing], ?_⟩
    rintro ⟨ring, n⟩ hn
    have hring : rings.mixRing[n]? = some ring := List.mem_zipIdx_iff_getElem?.mp hn
    have hin : n < p.inSk.length :=
      rings.length_mixRing ▸ (List.getElem?_eq_some_iff.mp hring).1
    have hamount : n < p.inamounts.length := p.length_inamounts.symm ▸ hin
    have hitems : items.length = p.inSk.length := by
      simp [items, halength, p.length_inamounts, rings.length_mixRing, rings.length_index]
    have hmg : n < mgs.length := (hlength.trans hitems).symm ▸ hin
    have hpseudoOut : (List.zipWith C.genC a p.inamounts)[n]? =
        some (C.genC (a.get ⟨n, by omega⟩) (p.inamounts.get ⟨n, hamount⟩)) := by
      simp [hamount, (by omega : n < a.length)]
    have hitem : items[n]? = some ((ring, p.inSk.get ⟨n, hin⟩), (a.get ⟨n, by omega⟩,
        C.genC (a.get ⟨n, by omega⟩) (p.inamounts.get ⟨n, hamount⟩)),
          rings.index.get ⟨n, rings.length_index.symm ▸ hin⟩) := by
      simp [items, List.getElem?_zip_eq_some, hring, hpseudoOut]
    have hver := hvers n _ _ hitem (List.getElem?_eq_getElem hmg)
    simp only [base, List.getElem?_eq_getElem hmg, hpseudoOut]
    exact hver
  · intro i amount amountKey hamount hkey
    exact decode_genOutputs horder random.ranges _ rfl rfl rfl (Payment.lt_of_outamounts hamount)
      hamount hkey

/-! ### Completeness -/

omit [DecidableEq Point] in
theorem FullRing.inSk_ne_nil (ring : FullRing C p) {random : RctRandom ℓ}
    (h : genRct C message p.inSk p.destinations amounts ring.mixRing p.amountKeys ring.index random =
      .ok result) : p.inSk ≠ [] := by
  intro hnil
  simp only [genRct, assertThrow_bind_eq_ok] at h
  obtain ⟨-, -, -, -, h⟩ := h
  obtain ⟨fullMessage, -, h⟩ := bind_eq_ok.mp h
  obtain ⟨mg, hprove, -⟩ := bind_eq_ok.mp h
  simp only [proveRctMG, assertThrow_bind_eq_ok] at hprove
  obtain ⟨-, hrows, -⟩ := hprove
  rw [List.getD_eq_getElem _ _ (by have := ring.two_le; omega : 0 < ring.mixRing.length),
    ring.rectangular _ (List.getElem_mem _), hnil] at hrows
  simp at hrows

omit [DecidableEq Point] in
theorem SimpleRings.inSk_ne_nil (rings : SimpleRings C p)
    (h : genRctSimple C message p.inSk p.destinations p.inamounts p.outamounts p.txnFee
      rings.mixRing p.amountKeys rings.index random = .ok result) : p.inSk ≠ [] := by
  rintro hnil
  unfold genRctSimple at h
  obtain ⟨hpos, -⟩ := assertThrow_bind_eq_ok.mp h
  rw [p.length_inamounts, hnil] at hpos
  simp at hpos

/-- A payment with inputs is signed by `genRct` and by `genRctSimple`, and what
they return is accepted, whatever the ring, the hashes and the randomness. -/
theorem rct_completeness (horder : 2 ^ 64 ≤ ℓ) (C : Curve ℓ Point Key) (p : Payment ℓ Point Key)
    (message : Key) :
    (∀ (ring : FullRing C p) (amounts : List XmrAmount) (random : RctRandom ℓ),
      p.Amounts amounts →
      (p.inSk ≠ [] → ∃ result, genRct C message p.inSk p.destinations amounts ring.mixRing
        p.amountKeys ring.index random = .ok result) ∧
      ∀ rv outSk, genRct C message p.inSk p.destinations amounts ring.mixRing p.amountKeys
        ring.index random = .ok (rv, outSk) → Accepted (verRct C) (decodeRct C) p rv outSk) ∧
    (∀ (rings : SimpleRings C p) (random : RctSimpleRandom ℓ),
      (p.inSk ≠ [] → ∃ result, genRctSimple C message p.inSk p.destinations p.inamounts
        p.outamounts p.txnFee rings.mixRing p.amountKeys rings.index random = .ok result) ∧
      ∀ rv outSk, genRctSimple C message p.inSk p.destinations p.inamounts p.outamounts p.txnFee
        rings.mixRing p.amountKeys rings.index random = .ok (rv, outSk) →
          Accepted (verRctSimple C) (decodeRctSimple C) p rv outSk) := by
  refine ⟨fun ring amounts random hamounts => ⟨fun hinputs => ?_, fun rv outSk hgen => ?_⟩,
    fun rings random => ⟨fun hinputs => ?_, fun rv outSk hgen => ?_⟩⟩
  · obtain ⟨rv, outSk, hgen, -⟩ := ring.genRct_accepted horder hinputs message hamounts random
    exact ⟨(rv, outSk), hgen⟩
  · obtain ⟨rv', outSk', hgen', haccepted⟩ :=
      ring.genRct_accepted horder (ring.inSk_ne_nil hgen) message hamounts random
    rw [hgen] at hgen'
    cases hgen'
    exact haccepted
  · obtain ⟨rv, outSk, hgen, -⟩ := rings.genRctSimple_accepted horder hinputs message random
    exact ⟨(rv, outSk), hgen⟩
  · obtain ⟨rv', outSk', hgen', haccepted⟩ :=
      rings.genRctSimple_accepted horder (rings.inSk_ne_nil hgen) message random
    rw [hgen] at hgen'
    cases hgen'
    exact haccepted

end

end

/-! ### A payment of 10 with a fee of 1 -/

def sampleOrder : Nat := 2 ^ 64 + 13

def sampleCurve : Curve sampleOrder (ZMod sampleOrder) Nat where
  G := 1
  H := (2 : Nat)
  ofPoint := ZMod.val
  ofScalar := ZMod.val
  hashToPoint := fun P => P + (3 : Nat)
  hashToScalar := fun keys => (keys.sum : Nat)
  cnFastHash := List.sum
  baseHash := fun _ txnFee _ _ _ => txnFee.toNat

def sampleKey : CtKey (ZMod sampleOrder) := ⟨(5 : Nat), (7 : Nat)⟩

def samplePayment : Payment sampleOrder (ZMod sampleOrder) Nat where
  inSk := [sampleKey]
  inamounts := [10]
  destinations := [(3 : Nat)]
  outamounts := [9]
  amountKeys := [4]
  txnFee := 1
  length_inamounts := rfl
  length_outamounts := rfl
  length_amountKeys := rfl
  balanced := by decide

def sampleRing : FullRing sampleCurve samplePayment where
  mixRing := [[⟨1, 1⟩], [ownKey sampleCurve sampleKey 10]]
  index := 1
  two_le := le_rfl
  rectangular := by simp [samplePayment]
  own := rfl

def sampleRings : SimpleRings sampleCurve samplePayment where
  mixRing := [[⟨1, 1⟩, ownKey sampleCurve sampleKey 10]]
  index := [1]
  length_mixRing := rfl
  length_index := rfl
  two_le := by simp
  own := by
    intro n i ring inSk amount hring hindex hinSk hamount
    cases n with
    | zero =>
      cases hring
      cases hindex
      cases hinSk
      cases hamount
      rfl
    | succ n => simp at hring

def sampleRanges (n : Nat) : RangeRandom sampleOrder where
  ai := fun i => (n + i + 1 : Nat)
  alpha := fun i => (n + i + 2 : Nat)
  s0 := fun i => (n + i + 3 : Nat)
  s1 := fun i => (n + i + 4 : Nat)

def sampleMlsag : MlsagRandom sampleOrder where
  alpha := fun j => (j + 5 : Nat)
  ss := fun i j => (i + j + 6 : Nat)

theorem rct_completeness_sample :
    2 ^ 64 ≤ sampleOrder ∧
    (∃ rv outSk, genRct sampleCurve 0 samplePayment.inSk samplePayment.destinations [9, 1]
        sampleRing.mixRing samplePayment.amountKeys sampleRing.index
        ⟨sampleRanges, sampleMlsag⟩ = .ok (rv, outSk) ∧
      Accepted (verRct sampleCurve) (decodeRct sampleCurve) samplePayment rv outSk) ∧
    ∃ rv outSk, genRctSimple sampleCurve 0 samplePayment.inSk samplePayment.destinations
        samplePayment.inamounts samplePayment.outamounts samplePayment.txnFee sampleRings.mixRing
        samplePayment.amountKeys sampleRings.index
        ⟨sampleRanges, fun n => (n + 1 : Nat), fun _ => sampleMlsag⟩ = .ok (rv, outSk) ∧
      Accepted (verRctSimple sampleCurve) (decodeRctSimple sampleCurve) samplePayment rv outSk := by
  have horder : 2 ^ 64 ≤ sampleOrder := by decide
  obtain ⟨hfull, hsimple⟩ := rct_completeness horder sampleCurve samplePayment 0
  refine ⟨horder, ?_, ?_⟩
  · obtain ⟨hmade, haccepted⟩ := hfull sampleRing [9, 1] ⟨sampleRanges, sampleMlsag⟩ (.inl rfl)
    obtain ⟨⟨rv, outSk⟩, hgen⟩ := hmade (by simp [samplePayment])
    exact ⟨rv, outSk, hgen, haccepted rv outSk hgen⟩
  · obtain ⟨hmade, haccepted⟩ :=
      hsimple sampleRings ⟨sampleRanges, fun n => (n + 1 : Nat), fun _ => sampleMlsag⟩
    obtain ⟨⟨rv, outSk⟩, hgen⟩ := hmade (by simp [samplePayment])
    exact ⟨rv, outSk, hgen, haccepted rv outSk hgen⟩

end Ringct

end Lethean
