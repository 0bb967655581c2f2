import Lethean.CryptonoteBasic.BlockSerialization
import Lethean.CryptonoteBasic.TxExtraEdit

/-!
# Lethean.CryptonoteBasic.BlockLayout

Where the extra bytes of the miner transaction stand in the blob of a block. The
blob is cut there: what is in front of them depends on their number only, what is
behind them not at all. A parser that gets other bytes from some point on reads
the same up to there, so it can be followed through the change.
-/

namespace Lethean

open Codec BinaryArchive Crypto

def Transaction.withExtra (tx : Transaction) (extra : List UInt8) : Transaction :=
  { tx with extra }

def Block.withExtra (b : Block) (extra : List UInt8) : Block :=
  { b with minerTx := b.minerTx.withExtra extra }

def Block.withTxs (b : Block) (minerTx : Transaction) (txHashes : List Hash) : Block :=
  { b with minerTx, txHashes }

/-! ### The bytes of a block -/

def headBytes (b : Block) : List UInt8 :=
  (writeBlockHeader b.toBlockHeader).bytes ++
    if isMergeMined b.toBlockHeader then (writeBytecoinBlock b.timestamp b.parentBlock).bytes
    else []

def prefixBytes (tx : TransactionPrefix) : List UInt8 :=
  writeVarint tx.version ++ (writeVarint tx.unlockTime ++ writeVector writeTxin tx.vin ++
    writeVector writeTxout tx.vout ++ writeVarint tx.extra.length)

def bytesBeforeExtra (b : Block) : List UInt8 :=
  headBytes b ++ prefixBytes b.minerTx.toTransactionPrefix

/-- The bytes behind them, where the miner transaction has no signatures. -/
def bytesAfterExtra (b : Block) : List UInt8 :=
  (if b.minerTx.version ≤ 1 then [] else [0]) ++ writeVector List.Vector.toList b.txHashes

/-- A block that is written without error, with a miner transaction that has one
input and no signatures. Nothing is said of the sizes. -/
structure Writable (b : Block) : Prop where
  majorVersion : b.majorVersion ≤ 8
  timestamp : b.timestamp < 2 ^ 64
  parentBlock : isMergeMined b.toBlockHeader = true → b.parentBlock.WellFormed
  version : b.minerTx.version = 1 ∨ b.minerTx.version = 2
  isMmTx : b.minerTx.isMmTx = false
  vin : ∃ height, b.minerTx.vin = [.gen height]
  signatures : b.minerTx.signatures = []
  rctSignatures : b.minerTx.rctSignatures = RctSig.null

theorem versionAllowed_of_or {version : Nat} (h : version = 1 ∨ version = 2) (isMmTx : Bool) :
    versionAllowed version isMmTx = true := by
  rcases h with rfl | rfl <;> cases isMmTx <;> rfl

theorem writeVector_bytes (l : List UInt8) :
    writeVector (fun b => [b]) l = writeVarint l.length ++ l := by
  rw [writeVector, List.flatMap_singleton']

namespace Writable

variable {b : Block}

section

variable (h : Writable b)
include h

theorem writeHead :
    writeBlockHeader b.toBlockHeader ++ (if isMergeMined b.toBlockHeader then
      writeBytecoinBlock b.timestamp b.parentBlock else .emit []) = .emit (headBytes b) := by
  have hheader : ∃ o, writeBlockHeader b.toBlockHeader = .emit o :=
    ⟨_, by simp [writeBlockHeader, h.majorVersion]; rfl⟩
  obtain ⟨o, ho⟩ := hheader
  rw [headBytes, ho]
  cases hmined : isMergeMined b.toBlockHeader with
  | false => rfl
  | true =>
    obtain ⟨o', ho', -⟩ := roundTrips_bytecoinBlock (h.parentBlock hmined) h.timestamp .null
    rw [if_pos rfl, if_pos rfl, ho']
    rfl

/-- What follows the prefix of the miner transaction: nothing, or the type of an
empty RingCT part. -/
theorem writeTransaction_eq :
    writeTransaction b.minerTx =
      writeTransactionPrefix b.minerTx.toTransactionPrefix ++
        .emit (if b.minerTx.version ≤ 1 then [] else [0]) := by
  obtain ⟨height, hvin⟩ := h.vin
  rw [writeTransaction]
  rcases h.version with hv | hv
  · rw [if_pos (by omega), if_pos (by omega), hvin, h.signatures]
    rfl
  · rw [if_neg (by omega), if_neg (by omega), hvin, h.rctSignatures]
    rfl

theorem writePrefix :
    writeTransactionPrefix b.minerTx.toTransactionPrefix =
      .emit (prefixBytes b.minerTx.toTransactionPrefix ++ b.minerTx.extra) := by
  rw [writeTransactionPrefix, versionAllowed_of_or h.version, Output.emit_append_check_true,
    Output.emit_append_emit, writeVector_bytes, prefixBytes]
  simp only [List.append_assoc]

theorem writeBlock_eq :
    writeBlock b = .emit (bytesBeforeExtra b ++ b.minerTx.extra ++ bytesAfterExtra b) := by
  rw [writeBlock, h.writeHead, h.writeTransaction_eq, h.writePrefix]
  simp only [Output.emit_append_emit, bytesBeforeExtra, bytesAfterExtra, List.append_assoc]

theorem blockToBlob_eq :
    blockToBlob b = bytesBeforeExtra b ++ b.minerTx.extra ++ bytesAfterExtra b := by
  rw [blockToBlob, h.writeBlock_eq]
  rfl

theorem withExtra (extra : List UInt8) : Writable (b.withExtra extra) :=
  ⟨h.majorVersion, h.timestamp, h.parentBlock, h.version, h.isMmTx, h.vin, h.signatures,
    h.rctSignatures⟩

end

end Writable

variable {b : Block} {txPrefix : TransactionPrefix} {height : Nat} {strict : Bool}
  {s rest : List UInt8}

theorem beforeExtra_withExtra {extra : List UInt8}
    (h : extra.length = b.minerTx.extra.length) :
    bytesBeforeExtra (b.withExtra extra) = bytesBeforeExtra b := by
  have hlength : (b.withExtra extra).minerTx.extra.length = b.minerTx.extra.length := h
  rw [bytesBeforeExtra, bytesBeforeExtra, prefixBytes, prefixBytes, hlength]
  rfl

theorem Block.WellFormed.withExtra (h : b.WellFormed) {extra : List UInt8}
    (hlength : extra.length = b.minerTx.extra.length) : (b.withExtra extra).WellFormed := by
  have hfits := h.minerTx.fits
  have hextra : extra.length < 2 ^ 64 := hlength ▸ hfits.extra
  exact ⟨h.majorVersion, h.minorVersion, h.timestamp, h.nonce, h.parentBlock,
    ⟨⟨hfits.version, hfits.unlockTime, hfits.vin, hfits.vout, hextra⟩, h.minerTx.signatures,
      h.minerTx.rctSignatures⟩, h.minerTxVersion, h.txHashes⟩

/-! ### Reading up to the extra bytes -/

/-- What `serializeTransaction` does behind the prefix. -/
def finishTransaction (txPrefix : TransactionPrefix) : Reader Transaction :=
  if txPrefix.version ≤ 1 then do
    let signatures ← serializeSignatureVectors txPrefix.vin
    pure { toTransactionPrefix := txPrefix, signatures, rctSignatures := RctSig.null }
  else
    match txPrefix.vin with
    | [] => pure { Transaction.null with toTransactionPrefix := txPrefix }
    | first :: _ => do
      let rctSignatures ← serializeRctSignatures RctSig.null first txPrefix.vin.length
        txPrefix.vout.length
      pure { toTransactionPrefix := txPrefix, signatures := [], rctSignatures }

theorem transaction_null :
    serializeTransaction .null = serializeTransactionPrefix false >>= finishTransaction := rfl

/-- The block that is read, from the miner transaction on. -/
def finishBlock (b : Block) (txPrefix : TransactionPrefix) : Reader Block := do
  let minerTx ← finishTransaction txPrefix
  let txHashes ← serializeVector (serializeBlob 32)
  pure ((Block.null.readInto b).withTxs minerTx txHashes)

/-- The header and the parent are read as they were written, whatever follows. -/
theorem serializeBlock_headBytes (hwf : b.WellFormed) (strict : Bool) (s : List UInt8) :
    serializeBlock .null strict (headBytes b ++ s) =
      (do
        let minerTx ← serializeTransaction .null
        let txHashes ← serializeVector (serializeBlob 32)
        pure ((Block.null.readInto b).withTxs minerTx txHashes) : Reader Block) strict s := by
  obtain ⟨o1, ho1, hheader⟩ := roundTrips_blockHeader hwf Block.null.toBlockHeader
  rw [headBytes, ho1, Output.bytes_emit, List.append_assoc, serializeBlock,
    Reader.bind_of_some _ (hheader strict _), serializeParent]
  cases hmined : isMergeMined b.toBlockHeader with
  | true =>
    obtain ⟨o2, ho2, hparent⟩ := roundTrips_bytecoinBlock (hwf.parentBlock hmined)
      hwf.timestamp Block.null.parentBlock
    have hread : isMergeMined (Block.null.toBlockHeader.readInto b.toBlockHeader) = true := by
      rwa [BlockHeader.readInto, if_pos hmined]
    rw [if_pos hread, if_pos rfl, ho2, Output.bytes_emit,
      Reader.bind_of_some _ (hparent strict s)]
    simp only [Block.readInto, hmined, if_true]
    rfl
  | false =>
    have hread : Block.null.toBlockHeader.readInto b.toBlockHeader = b.toBlockHeader := by
      rw [BlockHeader.readInto, if_neg (by simp [hmined])]
    rw [hread, hmined, if_neg (by decide), if_neg (by decide), List.nil_append]
    simp only [Block.readInto, hmined, hread]
    rfl

theorem serializeBlock_bytesBeforeExtra (hwf : b.WellFormed) (h : Writable b) (strict : Bool)
    (s : List UInt8) :
    serializeBlock .null strict (bytesBeforeExtra b ++ b.minerTx.extra ++ s) =
      finishBlock b b.minerTx.toTransactionPrefix strict s := by
  have hprefix : RoundTrips (writeTransactionPrefix b.minerTx.toTransactionPrefix)
      (serializeTransactionPrefix b.minerTx.isMmTx) b.minerTx.toTransactionPrefix :=
    roundTrips_txPrefix hwf.minerTx.fits
      (versionAllowed_of_or hwf.minerTxVersion _) (versionAllowed_of_or hwf.minerTxVersion _)
  rw [h.isMmTx] at hprefix
  obtain ⟨o, ho, hread⟩ := hprefix
  obtain rfl : prefixBytes b.minerTx.toTransactionPrefix ++ b.minerTx.extra = o :=
    congrArg Output.bytes (h.writePrefix.symm.trans ho)
  rw [bytesBeforeExtra, List.append_assoc, List.append_assoc, ← List.append_assoc (prefixBytes _),
    serializeBlock_headBytes hwf, transaction_null, bind_assoc,
    Reader.bind_of_some _ (hread strict s)]
  rfl

/-! ### What follows the extra bytes -/

theorem finishTransaction_of_le (hversion : txPrefix.version ≤ 1)
    (hvin : txPrefix.vin = [.gen height]) (strict : Bool) (s : List UInt8) :
    finishTransaction txPrefix strict s = some (⟨txPrefix, [[]], RctSig.null⟩, s) := by
  rw [finishTransaction, if_pos hversion, hvin]
  rfl

theorem finishBlock_of_le (hversion : txPrefix.version ≤ 1) (hvin : txPrefix.vin = [.gen height])
    (strict : Bool) (s : List UInt8) :
    finishBlock b txPrefix strict s =
      (serializeVector (serializeBlob 32) >>= fun txHashes =>
        pure ((Block.null.readInto b).withTxs ⟨txPrefix, [[]], RctSig.null⟩ txHashes) :
          Reader Block) strict s := by
  rw [finishBlock, Reader.bind_of_some _ (finishTransaction_of_le hversion hvin strict s)]

theorem serializeRctsigPrunable_type {rv rv' : RctSig} {inputs outputs mixin : Nat}
    (h : serializeRctsigPrunable rv inputs outputs mixin strict s = some (rv', rest)) :
    rv'.type = rv.type := by
  unfold serializeRctsigPrunable at h
  split at h
  · cases h
    rfl
  obtain ⟨_, s1, -, h⟩ := Reader.bind_some h
  obtain ⟨rangeSigs, s2, -, h⟩ := Reader.bind_some h
  obtain ⟨mgs, s3, -, h⟩ := Reader.bind_some h
  cases h
  rfl

theorem serializeRctSignatures_type {rv rv' : RctSig} {first : TxIn} {inputs outputs : Nat}
    (h : serializeRctSignatures rv first inputs outputs strict s = some (rv', rest)) :
    ∃ type s', s = type :: s' ∧ rv'.type = type.toNat := by
  obtain ⟨base, s1, hbase, h⟩ := Reader.bind_some h
  obtain ⟨type, s2, hbyte, hbase⟩ := Reader.bind_some hbase
  have hs : s = type :: s2 := by
    cases s with
    | nil => cases hbyte
    | cons b tail =>
      cases hbyte
      rfl
  refine ⟨type, s2, hs, (serializeRctsigPrunable_type h).trans ?_⟩
  dsimp only at hbase
  split at hbase
  · cases hbase
    rfl
  obtain ⟨_, s3, -, hbase⟩ := Reader.bind_some hbase
  obtain ⟨txnFee, s4, -, hbase⟩ := Reader.bind_some hbase
  obtain ⟨pseudoOuts, s5, -, hbase⟩ := Reader.bind_some hbase
  obtain ⟨ecdhInfo, s6, -, hbase⟩ := Reader.bind_some hbase
  obtain ⟨outPk, s7, -, hbase⟩ := Reader.bind_some hbase
  cases hbase
  rfl

theorem finishTransaction_of_lt (hversion : 1 < txPrefix.version)
    (hvin : txPrefix.vin = [.gen height]) {tx : Transaction}
    (h : finishTransaction txPrefix strict s = some (tx, rest)) :
    tx.toTransactionPrefix = txPrefix ∧
      ∃ type s', s = type :: s' ∧ tx.rctSignatures.type = type.toNat := by
  rw [finishTransaction, if_neg (by omega), hvin] at h
  obtain ⟨rct, s1, hrct, h⟩ := Reader.bind_some h
  cases h
  exact ⟨rfl, serializeRctSignatures_type hrct⟩

theorem finishBlock_inv {b' : Block} (hvin : txPrefix.vin = [.gen height])
    (h : finishBlock b txPrefix strict s = some (b', rest)) :
    b'.minerTx.extra = txPrefix.extra ∧
      (txPrefix.version ≤ 1 →
        serializeVector (serializeBlob 32) strict s = some (b'.txHashes, rest)) ∧
      (1 < txPrefix.version →
        ∃ type s', s = type :: s' ∧ b'.minerTx.rctSignatures.type = type.toNat) := by
  obtain ⟨tx, s1, htx, h⟩ := Reader.bind_some h
  obtain ⟨txHashes, s2, hhashes, h⟩ := Reader.bind_some h
  cases h
  by_cases hversion : txPrefix.version ≤ 1
  · rw [finishTransaction_of_le hversion hvin] at htx
    cases htx
    exact ⟨rfl, fun _ => hhashes, fun hlt => absurd hversion (by omega)⟩
  · obtain ⟨hkept, htype⟩ := finishTransaction_of_lt (by omega) hvin htx
    refine ⟨?_, fun hle => absurd hle hversion, fun _ => htype⟩
    rw [← hkept]
    rfl

theorem length_of_serializeBlob_times {size : Nat} {n : Nat} {s rest : List UInt8}
    {l : List (Blob size)} (h : (serializeBlob size).times n strict s = some (l, rest)) :
    s.length = size * n + rest.length := by
  induction n generalizing s rest l with
  | zero =>
    cases h
    simp
  | succ n ih =>
    obtain ⟨a, s1, ha, h⟩ := Reader.bind_some h
    obtain ⟨l', s2, hl', h⟩ := Reader.bind_some h
    cases h
    have hbytes := ih hl'
    unfold serializeBlob at ha
    by_cases hsize : size ≤ s.length
    · rw [dif_pos hsize] at ha
      obtain ⟨-, rfl⟩ := Prod.mk.inj (Option.some.inj ha)
      rw [List.length_drop] at hbytes
      rw [Nat.mul_succ]
      omega
    · rw [dif_neg hsize] at ha
      cases ha

/-- One byte of a varint: the last one, or a digit in front of more. -/
theorem readVarint_cons (x : UInt8) (tail : List UInt8) :
    readVarint 64 (x :: tail) =
      if x.toNat < 128 then (.done, x.toNat, tail)
      else readVarintLoop 64 7 (x.toNat % 128) tail := by
  rw [readVarint, readVarintLoop, if_neg (by omega), if_neg (by simp)]
  dsimp only
  rw [write_or_eq (by decide)]
  by_cases hlast : x.toNat < 128
  · rw [if_pos ((continuation_iff x).mpr hlast), if_pos hlast, Nat.mod_eq_of_lt hlast]
    simp
  · rw [if_neg (mt (continuation_iff x).mp hlast), if_neg hlast]
    simp

/-- The first byte of the list of hashes is determined by the list. Where there is
none, a varint that breaks off is 0 as well. -/
theorem first_byte_of_vector {x z : UInt8} {tail : List UInt8} {hashes : List Hash}
    (hcount : hashes.length < 2 ^ 64)
    (hwritten : writeVector List.Vector.toList hashes = z :: tail)
    (hread : serializeVector (serializeBlob 32) false (x :: tail) = some (hashes, [])) :
    x = z ∨ hashes = [] ∧ x = 0x80 := by
  obtain ⟨cnt, s1, hcnt, hread1⟩ := Reader.bind_some hread
  obtain ⟨_, s2, hneed, hread2⟩ := Reader.bind_some hread1
  have hs2 : s2 = s1 := by
    unfold Reader.need at hneed
    split at hneed
    · cases hneed
    · cases hneed
      rfl
  rw [hs2] at hread2
  obtain rfl : hashes.length = cnt := Reader.length_of_times hread2
  have hbytes := length_of_serializeBlob_times hread2
  rw [List.length_nil, Nat.add_zero] at hbytes
  have hlist : (hashes.flatMap List.Vector.toList).length = 32 * hashes.length := by
    rw [List.length_flatMap]
    simp [Nat.mul_comm]
  have hfirst := hwritten
  rw [writeVector, writeVarint] at hwritten
  simp only [serializeUvarint, readVarint_cons, Bool.false_eq_true, false_and, if_false,
    Option.some.injEq] at hcnt
  by_cases hsmall : hashes.length < 0x80
  · -- the count is one byte
    rw [if_pos hsmall, List.singleton_append] at hwritten
    obtain ⟨rfl, rfl⟩ := List.cons.inj hwritten
    split at hcnt
    · left
      rw [← (Prod.mk.inj hcnt).1, UInt8.ofNat_toNat]
    rename_i hlast
    obtain ⟨hvalue, hrest⟩ := Prod.mk.inj hcnt
    have hle := @length_varintLoop_le 64 7 (x.toNat % 128) (hashes.flatMap List.Vector.toList)
    rw [hrest, hbytes, hlist] at hle
    obtain rfl : hashes = [] := List.eq_nil_of_length_eq_zero (by omega)
    have hzero : x.toNat % 128 = 0 := hvalue
    have hlt := x.toNat_lt
    exact .inr ⟨rfl, UInt8.toNat_inj.mp (by change x.toNat = 128; omega)⟩
  · -- the digits behind the first byte are still those of the count
    rw [if_neg hsmall, List.cons_append] at hwritten
    obtain ⟨-, rfl⟩ := List.cons.inj hwritten
    have hdiv : hashes.length >>> 7 = hashes.length / 128 := Nat.shiftRight_eq_div_pow _ 7
    rw [hdiv] at hcnt hfirst
    by_cases hlast : x.toNat < 128
    · rw [if_pos hlast] at hcnt
      have hvalue : x.toNat = hashes.length := (Prod.mk.inj hcnt).1
      omega
    have hloop : readVarintLoop 64 7 (x.toNat % 128) (writeVarint (hashes.length / 128) ++
        hashes.flatMap List.Vector.toList) = (.done, x.toNat % 128 + hashes.length / 128 * 2 ^ 7,
          hashes.flatMap List.Vector.toList) :=
      varintLoop_writeVarint _ _ (by omega) (by omega) (by omega)
    rw [if_neg hlast, hloop] at hcnt
    have hvalue : x.toNat % 128 + hashes.length / 128 * 128 = hashes.length :=
      (Prod.mk.inj hcnt).1
    have hcons := writeVarint_cons (Nat.le_of_not_lt hlast)
      (show hashes.length / 128 ≠ 0 by omega)
    rw [hvalue] at hcons
    rw [writeVector, hcons, List.cons_append] at hfirst
    exact .inl (List.cons.inj hfirst).1

end Lethean
