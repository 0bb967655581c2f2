import Lethean.Lib.Draw
import Lethean.Wallet.Transfer

/-!
# Lethean.Wallet.Selection

What the functions that choose inputs share: the fee of a size and its estimate,
how related two outputs are, and `pop_best_value`, which draws the output that is
least related to those already selected.
-/

namespace Lethean

/-! ### Sizes and fees -/

def calculateFee (feePerKb : UInt64) (bytes : Nat) (feeMultiplier : UInt64) : UInt64 :=
  UInt64.ofNat ((bytes + 1023) / 1024) * feePerKb * feeMultiplier

/-- An `int` that is added to a `size_t`. -/
def sizeT (n : Int32) : UInt64 := n.toInt64.toUInt64

def estimateRctTxSize (nInputs mixin nOutputs : Int32) : UInt64 :=
  -- the prefix: first bytes, inputs, outputs and extra
  1 + 6 + sizeT (nInputs * (1 + 6 + (mixin + 1) * 2 + 32)) + sizeT (nOutputs * (6 + 32)) + 40 +
  -- the signature: type, range signatures, MGs
  1 + sizeT ((2 * 64 * 32 + 32 + 64 * 32) * nOutputs) +
  sizeT (nInputs * (64 * (mixin + 1) + 32)) +
  -- pseudoOuts, ecdhInfo, outPk and the fee
  sizeT (32 * nInputs) + sizeT (2 * 32 * nOutputs) + sizeT (32 * nOutputs) + 4

/-- `estimate_tx_size`, with `APPROXIMATE_INPUT_BYTES`. -/
def estimateTxSize (useRct : Bool) (nInputs mixin nOutputs : Int32) : UInt64 :=
  if useRct then estimateRctTxSize nInputs mixin (nOutputs + 1)
  else sizeT (nInputs * (mixin + 1) * 80)

def txSizeTarget (bytes : Nat) : Nat := u64 (bytes * 2) / 3

/-! ### Relatedness -/

/-- `get_output_relatedness`, in tenths. The difference of the heights is an `int`. -/
def getOutputRelatedness (td0 td1 : TransferDetails) : Nat :=
  if td0.txid = td1.txid then 10
  else
    let diff :=
      if td1.blockHeight < td0.blockHeight then td0.blockHeight - td1.blockHeight
      else td1.blockHeight - td0.blockHeight
    let dh := (diff : Int).bmod (2 ^ 32)
    if dh = 0 then 9 else if dh = 1 then 8 else if dh < 10 then 2 else 0

/-- The largest relatedness to a selected transfer. -/
def relatednessTo (selected : List TransferDetails) (td : TransferDetails) : Nat :=
  selected.foldl (fun relatedness td' => max relatedness (getOutputRelatedness td td')) 0

/-- The positions of the least related outputs, with the best relatedness so far. -/
def leastRelated (selected : List TransferDetails) :
    Nat → Nat → List Nat → List TransferDetails → List Nat
  | _, _, candidates, [] => candidates
  | n, best, candidates, td :: tds =>
    let relatedness := relatednessTo selected td
    if relatedness < best then leastRelated selected (n + 1) relatedness [n] tds
    else if relatedness = best then leastRelated selected (n + 1) best (candidates ++ [n]) tds
    else leastRelated selected (n + 1) best candidates tds

/-- The first of the smallest candidates. -/
def smallestOf (amount : Nat → UInt64) : Nat → List Nat → Nat
  | best, [] => best
  | best, n :: candidates =>
    smallestOf amount (if amount n < amount best then n else best) candidates

/-- `pop_best_value_from`: the index that is drawn, and those that are left. Without
an output to draw from the source divides by zero. -/
def Wallet2.popBestValue (w : Wallet2) (unusedIndices selectedTransfers : List Nat)
    (smallest : Bool) (pick : Nat) : Except SpendError (Nat × List Nat) := do
  let tds ← w.detailsAt unusedIndices
  let selected ← w.detailsAt selectedTransfers
  match leastRelated selected 0 10 [] tds with
  | [] => .error .undefined
  | first :: rest =>
    let amount := fun n => ((tds[n]?).map (·.money)).getD 0
    let n :=
      if smallest then smallestOf amount first rest
      else (first :: rest).getD (pick % (rest.length + 1)) first
    match unusedIndices[n]? with
    | none => .error .undefined
    | some idx => .ok (idx, Draw.swapRemove unusedIndices n)

theorem Wallet2.popBestValue_perm {w : Wallet2} {unused selected rest : List Nat} {smallest : Bool}
    {pick idx : Nat} (h : w.popBestValue unused selected smallest pick = .ok (idx, rest)) :
    unused.Perm (idx :: rest) := by
  unfold Wallet2.popBestValue at h
  obtain ⟨tds, -, h⟩ := Ringct.bind_eq_ok.mp h
  obtain ⟨sel, -, h⟩ := Ringct.bind_eq_ok.mp h
  split at h
  · cases h
  dsimp only at h
  split at h
  · cases h
  · rename_i hidx
    cases h
    exact Draw.perm_cons_swapRemove hidx

/-! ### Attempts -/

section

variable {ℓ : Nat} {Point : Type} [AddCommGroup Point] [Module (ZMod ℓ) Point]

/-- What is random in the functions that make several attempts: the calls of
`transfer_selected` and the draws. -/
structure SpendRandom (ℓ : Nat) where
  calls : Nat → CallRandom ℓ
  picks : Nat → Nat

/-- One attempt: `transfer_selected_rct`, or `transfer_selected` with the usual
strategy. -/
def SpendEnv.attempt (env : SpendEnv ℓ Point) (useRct : Bool) (call : CallRandom ℓ) (w : Wallet2)
    (args : TransferArgs) (outs : List (List GetOutsEntry)) :
    Except SpendError (PendingTx ℓ Point × List (List GetOutsEntry)) :=
  if useRct then env.transferSelectedRct call w args outs
  else env.transferSelected call w args outs TxDustPolicy.default

theorem attempt_made {env : SpendEnv ℓ Point} {useRct : Bool} {call : CallRandom ℓ} {w : Wallet2}
    {args : TransferArgs} {outs outs' : List (List GetOutsEntry)} {ptx : PendingTx ℓ Point}
    (h : env.attempt useRct call w args outs = .ok (ptx, outs')) : ptx.Made w args := by
  cases useRct with
  | true => exact transferSelectedRct_made h
  | false => exact transferSelected_made rfl h

structure SpendArgs where
  fakeOutsCount : Nat
  unlockTime : Nat
  feePerKb : UInt64
  feeMultiplier : UInt64
  extra : List UInt8
  useRct : Bool

def SpendArgs.transfer (args : SpendArgs) (dsts : List TxDestinationEntry) (selected : List Nat)
    (fee : UInt64) : TransferArgs :=
  { dsts
    selectedTransfers := selected
    fakeOutputsCount := args.fakeOutsCount
    unlockTime := args.unlockTime
    fee
    extra := args.extra }

def SpendEnv.requiredFee (env : SpendEnv ℓ Point) (args : SpendArgs) (ptx : PendingTx ℓ Point) :
    UInt64 :=
  calculateFee args.feePerKb (env.blobSize ptx.tx) args.feeMultiplier

/-- The loop that makes the transaction again until its fee is enough for its size.
The destinations may depend on the fee. -/
def SpendEnv.adjust (env : SpendEnv ℓ Point) (random : SpendRandom ℓ) (w : Wallet2)
    (args : SpendArgs) (dsts : UInt64 → List TxDestinationEntry) (selected : List Nat) :
    Nat → UInt64 → List (List GetOutsEntry) → Nat → Except SpendError (PendingTx ℓ Point × Nat)
  | 0, _, _, _ => .error .outOfFuel
  | fuel + 1, neededFee, outs, calls =>
    match env.attempt args.useRct (random.calls calls) w
        (args.transfer (dsts neededFee) selected neededFee) outs with
    | .error e => .error e
    | .ok (ptx, outs) =>
      if ptx.fee < env.requiredFee args ptx then
        adjust env random w args dsts selected fuel (env.requiredFee args ptx) outs (calls + 1)
      else .ok (ptx, calls + 1)

variable {env : SpendEnv ℓ Point} {random : SpendRandom ℓ} {w : Wallet2} {args : SpendArgs}
  {dsts : UInt64 → List TxDestinationEntry} {selected : List Nat}

/-- The last attempt is kept, and its fee is enough. -/
theorem adjust_ok {fuel calls calls' : Nat} {neededFee : UInt64}
    {outs : List (List GetOutsEntry)} {ptx : PendingTx ℓ Point}
    (h : env.adjust random w args dsts selected fuel neededFee outs calls = .ok (ptx, calls')) :
    env.requiredFee args ptx ≤ ptx.fee ∧
      ∃ fee, ptx.Made w (args.transfer (dsts fee) selected fee) := by
  induction fuel generalizing neededFee outs calls with
  | zero => cases h
  | succ fuel ih =>
    rw [SpendEnv.adjust] at h
    cases hattempt : env.attempt args.useRct (random.calls calls) w
        (args.transfer (dsts neededFee) selected neededFee) outs with
    | error e =>
      rw [hattempt] at h
      cases h
    | ok result =>
      obtain ⟨ptx', outs'⟩ := result
      simp only [hattempt] at h
      split at h
      · exact ih h
      · rename_i hlt
        cases h
        exact ⟨UInt64.not_lt.mp hlt, neededFee, attempt_made hattempt⟩

section

variable {e : SpendError} (he : e.ofLoop = true)
include he

theorem Wallet2.avoids_popBestValue (w : Wallet2) (unused selected : List Nat) (smallest : Bool)
    (pick : Nat) : Avoids e (w.popBestValue unused selected smallest pick) := by
  refine (w.avoids_detailsAt he _).bind fun tds _ => (w.avoids_detailsAt he _).bind fun sel _ => ?_
  split
  · exact avoids_error he rfl
  · dsimp only
    split
    · exact avoids_error he rfl
    · exact avoids_ok e _

theorem avoids_attempt (env : SpendEnv ℓ Point) (useRct : Bool) (call : CallRandom ℓ) (w : Wallet2)
    (args : TransferArgs) (outs : List (List GetOutsEntry)) :
    Avoids e (env.attempt useRct call w args outs) := by
  cases useRct with
  | true => exact avoids_transferSelectedRct he env call w args outs
  | false => exact avoids_transferSelected he env call w args outs _

/-- The fee grows with every attempt, so that the loop ends. -/
theorem avoids_adjust {fuel calls : Nat} {neededFee : UInt64} {outs : List (List GetOutsEntry)}
    (hfuel : 2 ^ 64 ≤ neededFee.toNat + fuel) :
    Avoids e (env.adjust random w args dsts selected fuel neededFee outs calls) := by
  induction fuel generalizing neededFee outs calls with
  | zero =>
    have := neededFee.toNat_lt
    omega
  | succ fuel ih =>
    rw [SpendEnv.adjust]
    cases hattempt : env.attempt args.useRct (random.calls calls) w
        (args.transfer (dsts neededFee) selected neededFee) outs with
    | error e =>
      have hends := avoids_attempt he env args.useRct (random.calls calls) w
        (args.transfer (dsts neededFee) selected neededFee) outs
      rw [hattempt] at hends
      exact hends.error
    | ok result =>
      obtain ⟨ptx, outs'⟩ := result
      dsimp only
      split
      · rename_i hlt
        have hle : neededFee ≤ ptx.fee := (attempt_made hattempt).fee_le
        rw [UInt64.lt_iff_toNat_lt] at hlt
        rw [UInt64.le_iff_toNat_le] at hle
        exact ih (by omega)
      · exact avoids_ok e _

end

end

/-! ### A small wallet -/

open Ringct (sampleOrder)

/-- An output to the sample account, made with the secret key `idx + 3`. -/
def sampleTransfer (idx : Nat) (amount : UInt64) (rct : Bool) : TransferDetails :=
  let txKey := TxCrypto.sampleTxCrypto.secretKeyToPublicKey (idx + 3 : Nat)
  let key := ((TxCrypto.sampleTxCrypto.generateKeyImageHelper
    TxCrypto.sampleAccount.toAccountKeys txKey 0).map fun r => r.1.pub).getD (nullBlob 32)
  { blockHeight := 20 * idx
    tx :=
      { version := 1, unlockTime := 0, isMmTx := false, vin := []
        vout := [⟨amount.toNat, .toKey key⟩], extra := 0x01 :: txKey.toList }
    txid := numberedHash idx, internalOutputIndex := 0, globalOutputIndex := idx, spent := false
    spentHeight := 0, keyImage := numberedHash idx, mask := nullBlob 32, amount := amount.toNat, rct
    keyImageKnown := true, pkIndex := 0 }

def sampleSpender (transfers : List TransferDetails) : Wallet2 where
  blockchain := []
  transfers
  keyImages := fun _ => none
  pubKeys := fun _ => none
  payments := []
  unconfirmedPayments := []
  confirmedTxs := fun _ => none
  unconfirmedTxs := []
  localBcHeight := 1000

def sampleSpendEnv : SpendEnv sampleOrder (ZMod sampleOrder) where
  crypto := TxCrypto.sampleTxCrypto
  keys := TxCrypto.sampleAccount.toAccountKeys
  maskScalar := fun _ => 0
  blobSize := fun built => 600 * built.tx.vin.length
  upperTransactionSizeLimit := 100000

def sampleSpendRandom : SpendRandom sampleOrder where
  calls := fun _ =>
    { getOuts := fun selected fake => some (selected.map fun idx =>
        ⟨idx, nullBlob 32, nullBlob 32⟩ ::
          List.replicate fake ⟨1000, nullBlob 32, nullBlob 32⟩)
      dummyAddress := AccountPublicAddress.null
      tx := fun _ =>
        { txKey := (11 : Nat)
          shuffle := Equiv.refl _
          rct := TxCrypto.sampleRandom.rct
          rctSimple := TxCrypto.sampleRandom.rctSimple } }
  picks := id

def sampleSpendArgs : SpendArgs where
  fakeOutsCount := 0
  unlockTime := 0
  feePerKb := 1
  feeMultiplier := 1
  extra := []
  useRct := false

end Lethean
