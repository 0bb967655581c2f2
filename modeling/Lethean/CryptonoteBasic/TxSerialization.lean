import Lethean.Common.IntUtil
import Lethean.Serialization.BinaryArchive

/-!
# Lethean.CryptonoteBasic.TxSerialization

The serializers of `cryptonote_basic.h` and `rctTypes.h`. The source writes one
function for both directions; here `serialize...` is the reading one and
`write...` the writing one. A reader fills an existing transaction, so what it
does not read keeps the value it had.
-/

namespace Lethean

open Codec BinaryArchive

/-! ### Inputs and outputs -/

/-- `txout_to_script`. -/
def serializeTxoutToScript : Reader TxoutToScript := do
  let keys ← serializeVector (serializeBlob 32)
  let script ← serializeVector Reader.byte
  pure ⟨keys, script⟩

@[inherit_doc serializeTxoutToScript]
def writeTxoutToScript (t : TxoutToScript) : List UInt8 :=
  writeVector List.Vector.toList t.keys ++ writeVector (fun b => [b]) t.script

/-- `txin_v`: the tag, then the alternative. -/
def serializeTxin : Reader TxIn := do
  let tag ← Reader.byte
  if tag = 0xff then do
    let height ← serializeUvarint 64
    pure (.gen height)
  else if tag = 0x0 then do
    let prev ← serializeBlob 32
    let prevout ← serializeUvarint 64
    let sigset ← serializeVector Reader.byte
    pure (.toScript prev prevout sigset)
  else if tag = 0x1 then do
    let prev ← serializeBlob 32
    let prevout ← serializeUvarint 64
    let script ← serializeTxoutToScript
    let sigset ← serializeVector Reader.byte
    pure (.toScripthash prev prevout script sigset)
  else if tag = 0x2 then do
    let amount ← serializeUvarint 64
    let keyOffsets ← serializeVector (serializeUvarint 64)
    let kImage ← serializeBlob 32
    pure (.toKey amount keyOffsets kImage)
  else Reader.fail

@[inherit_doc serializeTxin]
def writeTxin : TxIn → List UInt8
  | .gen height => 0xff :: writeVarint height
  | .toScript prev prevout sigset =>
    0x0 :: (prev.toList ++ writeVarint prevout ++ writeVector (fun b => [b]) sigset)
  | .toScripthash prev prevout script sigset =>
    0x1 :: (prev.toList ++ writeVarint prevout ++ writeTxoutToScript script ++
      writeVector (fun b => [b]) sigset)
  | .toKey amount keyOffsets kImage =>
    0x2 :: (writeVarint amount ++ writeVector writeVarint keyOffsets ++ kImage.toList)

/-- `txout_target_v`. -/
def serializeTxoutTarget : Reader TxoutTarget := do
  let tag ← Reader.byte
  if tag = 0x0 then do
    let script ← serializeTxoutToScript
    pure (.toScript script)
  else if tag = 0x1 then do
    let hash ← serializeBlob 32
    pure (.toScripthash hash)
  else if tag = 0x2 then do
    let key ← serializeBlob 32
    pure (.toKey key)
  else Reader.fail

@[inherit_doc serializeTxoutTarget]
def writeTxoutTarget : TxoutTarget → List UInt8
  | .toScript script => 0x0 :: writeTxoutToScript script
  | .toScripthash hash => 0x1 :: hash.toList
  | .toKey key => 0x2 :: key.toList

/-- `tx_out`. -/
def serializeTxout : Reader TxOut := do
  let amount ← serializeUvarint 64
  let target ← serializeTxoutTarget
  pure ⟨amount, target⟩

@[inherit_doc serializeTxout]
def writeTxout (o : TxOut) : List UInt8 := writeVarint o.amount ++ writeTxoutTarget o.target

def currentTransactionVersion : Nat := 2

/-- The version check of `transaction_prefix`. -/
def versionAllowed (version : Nat) (isMmTx : Bool) : Bool :=
  !((version = 0 || currentTransactionVersion < version) && !isMmTx)

/-- `transaction_prefix`. -/
def serializeTransactionPrefix (isMmTx : Bool) : Reader TransactionPrefix := do
  let version ← serializeUvarint 64
  Reader.guard (versionAllowed version isMmTx)
  let unlockTime ← serializeUvarint 64
  let vin ← serializeVector serializeTxin
  let vout ← serializeVector serializeTxout
  let extra ← serializeVector Reader.byte
  pure ⟨version, unlockTime, isMmTx, vin, vout, extra⟩

@[inherit_doc serializeTransactionPrefix]
def writeTransactionPrefix (tx : TransactionPrefix) : Output :=
  Output.emit (writeVarint tx.version) ++ Output.check (versionAllowed tx.version tx.isMmTx) ++
    Output.emit (writeVarint tx.unlockTime ++ writeVector writeTxin tx.vin ++
      writeVector writeTxout tx.vout ++ writeVector (fun b => [b]) tx.extra)

/-! ### Signatures -/

/-- The signatures of a version 1 transaction: one vector for each input, of
the size that the input asks for. -/
def serializeSignatureVectors : List TxIn → Reader (List (List Signature))
  | [] => pure []
  | i :: vin => do
    let s ← serializeSignatures i.signatureSize
    let rest ← serializeSignatureVectors vin
    pure (s :: rest)

def writeSignatureLoop (signaturesNotExpected : Bool) : List TxIn → List (List Signature) → Output
  | [], _ => .emit []
  | i :: vin, signatures =>
    if signaturesNotExpected then
      Output.check (i.signatureSize = 0) ++
        writeSignatureLoop signaturesNotExpected vin signatures
    else
      let s := signatures.headD []
      Output.check (i.signatureSize = s.length) ++ Output.emit (s.flatMap List.Vector.toList) ++
        writeSignatureLoop signaturesNotExpected vin signatures.tail

@[inherit_doc serializeSignatureVectors]
def writeSignatureVectors (vin : List TxIn) (signatures : List (List Signature)) : Output :=
  Output.check (signatures.isEmpty || vin.length = signatures.length) ++
    writeSignatureLoop signatures.isEmpty vin signatures

/-! ### RingCT -/

/-- `rct::ecdhTuple`. -/
def serializeEcdhTuple : Reader EcdhTuple := do
  let mask ← serializeBlob 32
  let amount ← serializeBlob 32
  pure ⟨mask, amount⟩

@[inherit_doc serializeEcdhTuple]
def writeEcdhTuple (t : EcdhTuple) : List UInt8 := t.mask.toList ++ t.amount.toList

/-- `pseudoOuts`, which only the simple type has. -/
def serializePseudoOuts (rv : RctSig) (inputs : Nat) : Reader (List RctKey) :=
  if rv.type = rctTypeSimple then (serializeBlob 32).times inputs else pure rv.pseudoOuts

@[inherit_doc serializePseudoOuts]
def writePseudoOuts (rv : RctSig) (inputs : Nat) : Output :=
  if rv.type = rctTypeSimple then
    Output.check (rv.pseudoOuts.length = inputs) ++
      Output.emit (rv.pseudoOuts.flatMap List.Vector.toList)
  else .emit []

def RctSig.carriesData (rv : RctSig) : Bool := rv.type = rctTypeFull || rv.type = rctTypeSimple

def serializeRctsigBase (rv : RctSig) (inputs outputs : Nat) : Reader RctSig := do
  let type ← Reader.byte
  let rv := { rv with type := type.toNat }
  if rv.type = rctTypeNull then pure rv
  else do
    Reader.guard rv.carriesData
    let txnFee ← serializeUvarint 64
    let pseudoOuts ← serializePseudoOuts rv inputs
    let ecdhInfo ← serializeEcdhTuple.times outputs
    let outPk ← (serializeBlob 32).times outputs
    pure { rv with txnFee, pseudoOuts, ecdhInfo, outPk }

def writeRctsigBase (rv : RctSig) (inputs outputs : Nat) : Output :=
  Output.emit [UInt8.ofNat rv.type] ++
    if rv.type = rctTypeNull then .emit []
    else
      Output.check rv.carriesData ++ Output.emit (writeVarint rv.txnFee) ++
        writePseudoOuts rv inputs ++
        Output.check (rv.ecdhInfo.length = outputs) ++
        Output.emit (rv.ecdhInfo.flatMap writeEcdhTuple) ++
        Output.check (rv.outPk.length = outputs) ++
        Output.emit (rv.outPk.flatMap List.Vector.toList)

/-- `rct::rangeSig`. -/
def serializeRangeSig : Reader RangeSig := do
  let asig ← serializeBlob (129 * 32)
  let ci ← serializeBlob (64 * 32)
  pure ⟨asig, ci⟩

@[inherit_doc serializeRangeSig]
def writeRangeSig (r : RangeSig) : List UInt8 := r.asig.toList ++ r.ci.toList

/-- An MLSAG signature: a matrix without sizes, then `cc`. -/
def serializeMgSig (rows columns : Nat) : Reader MgSig := do
  let ss ← ((serializeBlob 32).times columns).times rows
  let cc ← serializeBlob 32
  pure ⟨ss, cc⟩

@[inherit_doc serializeMgSig]
def writeMgSig (rows columns : Nat) (m : MgSig) : Output :=
  Output.check (m.ss.length = rows) ++
    Output.concat (m.ss.map fun row =>
      Output.check (row.length = columns) ++ Output.emit (row.flatMap List.Vector.toList)) ++
    Output.emit m.cc.toList

/-- `mg_elements`: simple RingCT has one signature for each input, full has one. -/
def RctSig.mgElements (rv : RctSig) (inputs : Nat) : Nat :=
  if rv.type = rctTypeSimple then inputs else 1

def RctSig.mgSs2Elements (rv : RctSig) (inputs : Nat) : Nat :=
  (if rv.type = rctTypeSimple then 1 else inputs) + 1

def serializeRctsigPrunable (rv : RctSig) (inputs outputs mixin : Nat) : Reader RctSig := do
  if rv.type = rctTypeNull then pure rv
  else do
    Reader.guard rv.carriesData
    let rangeSigs ← serializeRangeSig.times outputs
    let mgs ← (serializeMgSig (u64 (mixin + 1)) (rv.mgSs2Elements inputs)).times
      (rv.mgElements inputs)
    pure { rv with rangeSigs, mgs }

def writeRctsigPrunable (rv : RctSig) (inputs outputs mixin : Nat) : Output :=
  if rv.type = rctTypeNull then .emit []
  else
    Output.check rv.carriesData ++
      Output.check (rv.rangeSigs.length = outputs) ++
      Output.emit (rv.rangeSigs.flatMap writeRangeSig) ++
      Output.check (rv.mgs.length = rv.mgElements inputs) ++
      Output.concat (rv.mgs.map (writeMgSig (u64 (mixin + 1)) (rv.mgSs2Elements inputs)))

/-- The `mixin` argument for the prunable part, from the first input. -/
def TxIn.mixin : TxIn → Nat
  | .toKey _ keyOffsets _ => subU64 keyOffsets.length 1
  | _ => 0

/-! ### Transactions -/

/-- What follows the prefix of a version 2 transaction with inputs. The source
skips the prunable part for the null type, which has none. -/
def serializeRctSignatures (rv : RctSig) (first : TxIn) (inputs outputs : Nat) : Reader RctSig := do
  let rv ← serializeRctsigBase rv inputs outputs
  serializeRctsigPrunable rv inputs outputs first.mixin

/-- `transaction`, read into `tx`. -/
def serializeTransaction (tx : Transaction) : Reader Transaction := do
  let txPrefix ← serializeTransactionPrefix tx.isMmTx
  if txPrefix.version ≤ 1 then do
    let signatures ← serializeSignatureVectors txPrefix.vin
    pure { toTransactionPrefix := txPrefix, signatures, rctSignatures := tx.rctSignatures }
  else
    match txPrefix.vin with
    | [] => pure { tx with toTransactionPrefix := txPrefix }
    | first :: _ => do
      let rctSignatures ← serializeRctSignatures tx.rctSignatures first txPrefix.vin.length
        txPrefix.vout.length
      pure { toTransactionPrefix := txPrefix, signatures := tx.signatures, rctSignatures }

/-- `transaction`, written. -/
def writeTransaction (tx : Transaction) : Output :=
  writeTransactionPrefix tx.toTransactionPrefix ++
    if tx.version ≤ 1 then writeSignatureVectors tx.vin tx.signatures
    else
      match tx.vin with
      | [] => .emit []
      | first :: _ =>
        writeRctsigBase tx.rctSignatures tx.vin.length tx.vout.length ++
          writeRctsigPrunable tx.rctSignatures tx.vin.length tx.vout.length first.mixin

/-- `parse_and_validate_tx_from_blob(blob, tx)`: the transaction as it is filled
when the call returns `true`. All bytes must have been read. -/
def parseAndValidateTxFromBlob (tx : Transaction) (blob : List UInt8) : Option Transaction :=
  match serializeTransaction tx false blob with
  | some (tx, []) => some tx
  | _ => none

def txToBlob (tx : Transaction) : List UInt8 := (writeTransaction tx).bytes

end Lethean
