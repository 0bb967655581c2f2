import Lethean.CryptonoteBasic.BlockSerialization
import Lethean.Lib.Metered

/-!
# Lethean.CryptonoteBasic.ContainerGrowth

How large do the containers get that the parsers fill? The readers of
transactions and blocks again, now with every `reserve` and `resize` on the way.
A vector with a count of its own is checked against the bytes that are left. The
other sizes are implied by what was read before: numbers of inputs and outputs,
sizes of rings, the depth of a tree, and the depth in a merge mining tag, which
nothing bounds.
-/

namespace Lethean

open Codec BinaryArchive Crypto

inductive Container
  /-- vectors of inputs, outputs, offsets, bytes, keys, signatures and hashes -/
  | vector
  /-- `miner_tx_branch` and `blockchain_branch` -/
  | branch
  deriving DecidableEq

/-- Sizes that an input of `n` bytes may lead to. -/
def Allowed (n : Nat) : Container → Nat → Prop
  | .vector, size => size ≤ n
  | .branch, size => size ≤ max 64 n

instance (n : Nat) (container : Container) (size : Nat) : Decidable (Allowed n container size) := by
  cases container <;> exact inferInstanceAs (Decidable (_ ≤ _))

theorem Allowed.vector {n size : Nat} (h : size ≤ n) : Allowed n .vector size := h

/-! ### Containers -/

def serializeCount : Reader Nat := do
  let cnt ← serializeUvarint 64
  Reader.need cnt
  pure cnt

/-- `do_serialize` on a vector: `reserve`, then `resize` for each element. -/
def meterVector {α : Type} (element : Metered Container α) : Metered Container (List α) := do
  let cnt ← Metered.lift serializeCount
  Metered.grow .vector cnt
  Metered.fill .vector element 0 cnt

/-- `PREPARE_CUSTOM_VECTOR_SERIALIZATION`, then the elements. -/
def meterPrepared {α : Type} (container : Container) (element : Metered Container α) (size : Nat) :
    Metered Container (List α) := do
  Metered.grow container size
  element.times size

/-- `do_serialize` on a `vector<signature>` of known size. -/
def meterSignatures (cnt : Nat) : Metered Container (List Signature) := do
  Metered.lift (Reader.need (cnt * 64 % 2 ^ 64))
  Metered.grow .vector cnt
  Metered.fill .vector (Metered.lift (serializeBlob 64)) 0 cnt

/-! ### Transactions -/

/-- `txout_to_script`. -/
def meterTxoutToScript : Metered Container TxoutToScript := do
  let keys ← meterVector (Metered.lift (serializeBlob 32))
  let script ← meterVector (Metered.lift Reader.byte)
  pure ⟨keys, script⟩

/-- `txin_v`. -/
def meterTxin : Metered Container TxIn := do
  let tag ← Metered.lift Reader.byte
  if tag = 0xff then do
    let height ← Metered.lift (serializeUvarint 64)
    pure (.gen height)
  else if tag = 0x0 then do
    let prev ← Metered.lift (serializeBlob 32)
    let prevout ← Metered.lift (serializeUvarint 64)
    let sigset ← meterVector (Metered.lift Reader.byte)
    pure (.toScript prev prevout sigset)
  else if tag = 0x1 then do
    let prev ← Metered.lift (serializeBlob 32)
    let prevout ← Metered.lift (serializeUvarint 64)
    let script ← meterTxoutToScript
    let sigset ← meterVector (Metered.lift Reader.byte)
    pure (.toScripthash prev prevout script sigset)
  else if tag = 0x2 then do
    let amount ← Metered.lift (serializeUvarint 64)
    let keyOffsets ← meterVector (Metered.lift (serializeUvarint 64))
    let kImage ← Metered.lift (serializeBlob 32)
    pure (.toKey amount keyOffsets kImage)
  else Metered.lift Reader.fail

/-- `txout_target_v`. -/
def meterTxoutTarget : Metered Container TxoutTarget := do
  let tag ← Metered.lift Reader.byte
  if tag = 0x0 then do
    let script ← meterTxoutToScript
    pure (.toScript script)
  else if tag = 0x1 then do
    let hash ← Metered.lift (serializeBlob 32)
    pure (.toScripthash hash)
  else if tag = 0x2 then do
    let key ← Metered.lift (serializeBlob 32)
    pure (.toKey key)
  else Metered.lift Reader.fail

/-- `tx_out`. -/
def meterTxout : Metered Container TxOut := do
  let amount ← Metered.lift (serializeUvarint 64)
  let target ← meterTxoutTarget
  pure ⟨amount, target⟩

/-- `transaction_prefix`. -/
def meterTransactionPrefix (isMmTx : Bool) : Metered Container TransactionPrefix := do
  let version ← Metered.lift (serializeUvarint 64)
  Metered.lift (Reader.guard (versionAllowed version isMmTx))
  let unlockTime ← Metered.lift (serializeUvarint 64)
  let vin ← meterVector meterTxin
  let vout ← meterVector meterTxout
  let extra ← meterVector (Metered.lift Reader.byte)
  pure ⟨version, unlockTime, isMmTx, vin, vout, extra⟩

/-- The signatures of a version 1 transaction. Each vector is resized to its size
before it is read. -/
def meterSignatureVectors : List TxIn → Metered Container (List (List Signature))
  | [] => pure []
  | i :: vin => do
    Metered.grow .vector i.signatureSize
    let s ← meterSignatures i.signatureSize
    let rest ← meterSignatureVectors vin
    pure (s :: rest)

/-- `pseudoOuts`. -/
def meterPseudoOuts (rv : RctSig) (inputs : Nat) : Metered Container (List RctKey) :=
  if rv.type = rctTypeSimple then meterPrepared .vector (Metered.lift (serializeBlob 32)) inputs
  else pure rv.pseudoOuts

/-- `serialize_rctsig_base`. -/
def meterRctsigBase (rv : RctSig) (inputs outputs : Nat) : Metered Container RctSig := do
  let type ← Metered.lift Reader.byte
  let rv := { rv with type := type.toNat }
  if rv.type = rctTypeNull then pure rv
  else do
    Metered.lift (Reader.guard rv.carriesData)
    let txnFee ← Metered.lift (serializeUvarint 64)
    let pseudoOuts ← meterPseudoOuts rv inputs
    let ecdhInfo ← meterPrepared .vector (Metered.lift serializeEcdhTuple) outputs
    let outPk ← meterPrepared .vector (Metered.lift (serializeBlob 32)) outputs
    pure { rv with txnFee, pseudoOuts, ecdhInfo, outPk }

/-- An MLSAG signature: `ss`, then each of its rows, then `cc`. -/
def meterMgSig (rows columns : Nat) : Metered Container MgSig := do
  let ss ← meterPrepared .vector
    (meterPrepared .vector (Metered.lift (serializeBlob 32)) columns) rows
  let cc ← Metered.lift (serializeBlob 32)
  pure ⟨ss, cc⟩

/-- `serialize_rctsig_prunable`. -/
def meterRctsigPrunable (rv : RctSig) (inputs outputs mixin : Nat) :
    Metered Container RctSig := do
  if rv.type = rctTypeNull then pure rv
  else do
    Metered.lift (Reader.guard rv.carriesData)
    let rangeSigs ← meterPrepared .vector (Metered.lift serializeRangeSig) outputs
    let mgs ← meterPrepared .vector (meterMgSig (u64 (mixin + 1)) (rv.mgSs2Elements inputs))
      (rv.mgElements inputs)
    pure { rv with rangeSigs, mgs }

/-- What follows the prefix of a version 2 transaction with inputs. -/
def meterRctSignatures (rv : RctSig) (first : TxIn) (inputs outputs : Nat) :
    Metered Container RctSig := do
  let rv ← meterRctsigBase rv inputs outputs
  meterRctsigPrunable rv inputs outputs first.mixin

/-- `transaction`, read into `tx`. -/
def meterTransaction (tx : Transaction) : Metered Container Transaction := do
  let txPrefix ← meterTransactionPrefix tx.isMmTx
  if txPrefix.version ≤ 1 then do
    Metered.grow .vector txPrefix.vin.length
    let signatures ← meterSignatureVectors txPrefix.vin
    pure { toTransactionPrefix := txPrefix, signatures, rctSignatures := tx.rctSignatures }
  else
    match txPrefix.vin with
    | [] => pure { tx with toTransactionPrefix := txPrefix }
    | first :: _ => do
      let rctSignatures ← meterRctSignatures tx.rctSignatures first txPrefix.vin.length
        txPrefix.vout.length
      pure { toTransactionPrefix := txPrefix, signatures := tx.signatures, rctSignatures }

/-! ### Blocks -/

/-- `blockchain_branch`, resized to the depth in the tag. -/
def meterBlockchainBranch (minerTx : Transaction) : Metered Container (List Hash) :=
  match getMmTagFromExtra minerTx.extra with
  | none => Metered.lift Reader.fail
  | some mmTag => meterPrepared .branch (Metered.lift (serializeBlob 32)) mmTag.depth

/-- `serializable_bytecoin_block` up to the miner transaction. -/
def meterParentHead (parent : BytecoinBlock) : Metered Container (Nat × BytecoinBlock) := do
  let majorVersion ← Metered.lift (serializeUvarint 8)
  let minorVersion ← Metered.lift (serializeUvarint 8)
  let timestamp ← Metered.lift (serializeUvarint 64)
  let prevId ← Metered.lift (serializeBlob 32)
  let nonce ← Metered.lift serializeUint32
  let numberOfTransactions ← Metered.lift (serializeUvarint 64)
  Metered.lift (Reader.guard (1 ≤ numberOfTransactions))
  let minerTxBranch ← meterPrepared .branch (Metered.lift (serializeBlob 32))
    (treeDepth numberOfTransactions)
  let minerTx ← meterTransaction parent.minerTx.asMmTx
  pure (timestamp, ⟨majorVersion, minorVersion, prevId, nonce, numberOfTransactions, minerTxBranch,
    minerTx, parent.blockchainBranch⟩)

/-- `serializable_bytecoin_block`. -/
def meterBytecoinBlock (parent : BytecoinBlock) : Metered Container (Nat × BytecoinBlock) := do
  let head ← meterParentHead parent
  let blockchainBranch ← meterBlockchainBranch head.2.minerTx
  pure (head.1, { head.2 with blockchainBranch })

/-- The parent of a block with the given header, and the block's timestamp. -/
def meterParent (b : Block) (header : BlockHeader) : Metered Container (Nat × BytecoinBlock) :=
  if isMergeMined header then meterBytecoinBlock b.parentBlock
  else pure (header.timestamp, b.parentBlock)

/-- `block`, read into `b`. -/
def meterBlock (b : Block) : Metered Container Block := do
  let header ← Metered.lift (serializeBlockHeader b.toBlockHeader)
  let parent ← meterParent b header
  let minerTx ← meterTransaction b.minerTx
  let txHashes ← meterVector (Metered.lift (serializeBlob 32))
  pure { header with timestamp := parent.1, parentBlock := parent.2, minerTx, txHashes }

/-! ### The same readers -/

section Reader

variable {α : Type}

@[simp] theorem reader_meterVector (element : Metered Container α) :
    (meterVector element).reader = serializeVector element.reader := by
  simp [meterVector, serializeVector, serializeCount]

@[simp] theorem reader_meterPrepared (container : Container) (element : Metered Container α)
    (size : Nat) : (meterPrepared container element size).reader = element.reader.times size := by
  simp [meterPrepared]

@[simp] theorem reader_meterTxoutToScript :
    meterTxoutToScript.reader = serializeTxoutToScript := by
  simp [meterTxoutToScript, serializeTxoutToScript]

@[simp] theorem reader_meterTxin : meterTxin.reader = serializeTxin := by
  simp [meterTxin, serializeTxin]

@[simp] theorem reader_meterTxout : meterTxout.reader = serializeTxout := by
  simp [meterTxout, serializeTxout, meterTxoutTarget, serializeTxoutTarget]

@[simp] theorem reader_meterSignatureVectors (vin : List TxIn) :
    (meterSignatureVectors vin).reader = serializeSignatureVectors vin := by
  induction vin with
  | nil => rfl
  | cons i vin ih =>
    simp [meterSignatureVectors, serializeSignatureVectors, meterSignatures, serializeSignatures,
      ih]

@[simp] theorem reader_meterRctSignatures (rv : RctSig) (first : TxIn) (inputs outputs : Nat) :
    (meterRctSignatures rv first inputs outputs).reader =
      serializeRctSignatures rv first inputs outputs := by
  simp [meterRctSignatures, serializeRctSignatures, meterRctsigBase, serializeRctsigBase,
    meterPseudoOuts, serializePseudoOuts, meterRctsigPrunable, serializeRctsigPrunable, meterMgSig,
    serializeMgSig]

@[simp] theorem reader_meterTransaction (tx : Transaction) :
    (meterTransaction tx).reader = serializeTransaction tx := by
  have hprefix : (meterTransactionPrefix tx.isMmTx).reader =
      serializeTransactionPrefix tx.isMmTx := by
    simp [meterTransactionPrefix, serializeTransactionPrefix]
  rw [meterTransaction, serializeTransaction, Metered.reader_bind, hprefix]
  refine congrArg _ (funext fun txPrefix => ?_)
  rw [Metered.reader_ite]
  refine congrArg₂ _ (by simp) ?_
  cases txPrefix.vin with
  | nil => rfl
  | cons first vin => simp

theorem reader_meterBlockchainBranch (minerTx : Transaction) :
    (meterBlockchainBranch minerTx).reader = serializeBlockchainBranch minerTx := by
  unfold meterBlockchainBranch serializeBlockchainBranch
  cases getMmTagFromExtra minerTx.extra <;> simp

theorem reader_meterParentHead (parent : BytecoinBlock) :
    (meterParentHead parent).reader = serializeParentHead parent := by
  simp [meterParentHead, serializeParentHead]

theorem reader_meterParent (b : Block) (header : BlockHeader) :
    (meterParent b header).reader = serializeParent b header := by
  simp [meterParent, serializeParent, meterBytecoinBlock, serializeBytecoinBlock,
    reader_meterParentHead, reader_meterBlockchainBranch]

end Reader

/-! ### Bytes read -/

theorem uvarint_rest {bits v : Nat} {s rest : List UInt8}
    (h : serializeUvarint bits false s = some (v, rest)) :
    rest.length ≤ s.length - 1 ∧ (s = [] → v = 0) := by
  cases h
  refine ⟨length_varintLoop_le s, fun hnil => ?_⟩
  rw [hnil]
  rfl

theorem forward_uvarint (bits : Nat) : Metered.Forward (serializeUvarint bits) :=
  fun _ _ _ h => (uvarint_rest h).1.trans (Nat.sub_le _ _)

theorem forward_blob (n : Nat) : Metered.Forward (serializeBlob n) := by
  intro s blob rest h
  unfold serializeBlob at h
  split at h
  · cases h
    rw [List.length_drop]
    exact Nat.sub_le _ _
  · cases h

theorem forward_need (n : Nat) : Metered.Forward (Reader.need n) := by
  intro s a rest h
  unfold Reader.need at h
  split at h
  · cases h
  · cases h
    exact le_rfl

theorem forward_uint32 : Metered.Forward serializeUint32 :=
  .bind .byte fun _ => .bind .byte fun _ => .bind .byte fun _ => .bind .byte fun _ => .pure _

theorem forward_blockHeader (header : BlockHeader) :
    Metered.Forward (serializeBlockHeader header) := by
  refine .bind (forward_uvarint 8) fun majorVersion => .bind (.guard _) fun _ => ?_
  refine .bind (forward_uvarint 8) fun minorVersion => ?_
  cases hasOwnNonce majorVersion with
  | true =>
    exact .bind (forward_uvarint 64) fun _ => .bind (forward_blob 32) fun _ =>
      .bind forward_uint32 fun _ => .pure _
  | false =>
    exact .bind (.pure _) fun _ => .bind (forward_blob 32) fun _ =>
      .bind (.pure _) fun _ => .pure _

/-! ### Sizes of transactions -/

section Sizes

open Metered (Keeps)

variable {n : Nat} {α : Type} {P : α → Prop}

theorem keeps_vector {element : Metered Container α} (h : Keeps (Allowed n) n element P) :
    Keeps (Allowed n) n (meterVector element) fun l =>
      (l = [] ∨ l.length < n) ∧ ∀ a ∈ l, P a := by
  have hcount : Keeps (Allowed n) n (Metered.lift serializeCount) fun cnt => cnt = 0 ∨ cnt < n := by
    refine Metered.Keeps.lift fun s cnt rest hs hcnt => ?_
    obtain ⟨v, mid, hv, hcnt⟩ := Reader.bind_some hcnt
    obtain ⟨hmid, hnil⟩ := uvarint_rest hv
    obtain ⟨_, mid', hneed, hcnt⟩ := Reader.bind_some hcnt
    cases hcnt
    unfold Reader.need at hneed
    split at hneed
    · cases hneed
    cases hneed
    refine ⟨hmid.trans (Nat.sub_le _ _), ?_⟩
    cases s with
    | nil => exact .inl (hnil rfl)
    | cons b tail =>
      rw [List.length_cons] at hs hmid
      right
      omega
  refine hcount.bind fun cnt hcnt => ?_
  have hle : cnt ≤ n := by omega
  refine (Keeps.grow (.vector hle)).bind fun _ _ => ?_
  refine (h.fill cnt 0 fun size hsize => ?_).mono fun l hl => ?_
  · show size ≤ n
    omega
  · refine ⟨hcnt.imp (fun h0 => ?_) fun hlt => ?_, hl.2⟩
    · exact List.eq_nil_of_length_eq_zero (hl.1.trans h0)
    · omega

theorem keeps_prepared {container : Container} {element : Metered Container α} {size : Nat}
    (h : Keeps (Allowed n) n element P) (hsize : Allowed n container size) :
    Keeps (Allowed n) n (meterPrepared container element size) fun l =>
      l.length = size ∧ ∀ a ∈ l, P a :=
  (Keeps.grow hsize).bind fun _ _ => h.times size

theorem keeps_blobs {container : Container} {m size : Nat} (hsize : Allowed n container size) :
    Keeps (Allowed n) n (meterPrepared container (Metered.lift (serializeBlob m)) size)
      fun _ => True :=
  (keeps_prepared (.forward (forward_blob m)) hsize).mono fun _ _ => trivial

theorem keeps_bytes : Keeps (Allowed n) n (meterVector (Metered.lift Reader.byte)) fun _ => True :=
  (keeps_vector (.forward .byte)).mono fun _ _ => trivial

theorem keeps_txoutToScript : Keeps (Allowed n) n meterTxoutToScript fun _ => True :=
  (keeps_vector (.forward (forward_blob 32))).bind fun _ _ =>
    keeps_bytes.bind fun _ _ => .pure trivial

theorem keeps_txin : Keeps (Allowed n) n meterTxin fun i => i.signatureSize ≤ n := by
  refine (Keeps.forward .byte).bind fun tag _ => ?_
  have huvarint : Keeps (Allowed n) n (Metered.lift (serializeUvarint 64)) fun _ => True :=
    .forward (forward_uvarint 64)
  have hblob : Keeps (Allowed n) n (Metered.lift (serializeBlob 32)) fun _ => True :=
    .forward (forward_blob 32)
  split
  · exact huvarint.bind fun _ _ => .pure (Nat.zero_le n)
  split
  · exact hblob.bind fun _ _ => huvarint.bind fun _ _ => keeps_bytes.bind fun _ _ =>
      .pure (Nat.zero_le n)
  split
  · exact hblob.bind fun _ _ => huvarint.bind fun _ _ => keeps_txoutToScript.bind fun _ _ =>
      keeps_bytes.bind fun _ _ => .pure (Nat.zero_le n)
  split
  · refine huvarint.bind fun _ _ => (keeps_vector huvarint).bind fun keyOffsets hoffsets => ?_
    refine hblob.bind fun _ _ => .pure ?_
    rcases hoffsets.1 with hnil | hlt
    · rw [hnil]
      exact Nat.zero_le n
    · exact hlt.le
  · exact .lift fun s a rest _ h => by cases h

theorem keeps_txout : Keeps (Allowed n) n meterTxout fun _ => True := by
  refine (Keeps.forward (forward_uvarint 64)).bind fun _ _ => ?_
  refine Keeps.bind (P := fun _ => True) ?_ fun _ _ => .pure trivial
  refine (Keeps.forward .byte).bind fun tag _ => ?_
  split
  · exact keeps_txoutToScript.bind fun _ _ => .pure trivial
  split
  · exact (Keeps.forward (forward_blob 32)).bind fun _ _ => .pure trivial
  split
  · exact (Keeps.forward (forward_blob 32)).bind fun _ _ => .pure trivial
  · exact .lift fun s a rest _ h => by cases h

/-- What the prefix promises about the sizes it implies. -/
structure Implied (n : Nat) (tx : TransactionPrefix) : Prop where
  vin : tx.vin = [] ∨ tx.vin.length < n
  vout : tx.vout.length ≤ n
  signatureSize : ∀ i ∈ tx.vin, i.signatureSize ≤ n

theorem keeps_txPrefix (isMmTx : Bool) :
    Keeps (Allowed n) n (meterTransactionPrefix isMmTx) (Implied n) := by
  refine (Keeps.forward (forward_uvarint 64)).bind fun version _ => ?_
  refine (Keeps.forward (.guard _)).bind fun _ _ => ?_
  refine (Keeps.forward (forward_uvarint 64)).bind fun unlockTime _ => ?_
  refine (keeps_vector keeps_txin).bind fun vin hvin => ?_
  refine (keeps_vector keeps_txout).bind fun vout hvout => ?_
  refine keeps_bytes.bind fun extra _ => .pure ⟨hvin.1, ?_, hvin.2⟩
  rcases hvout.1 with hnil | hlt
  · rw [hnil]
    exact Nat.zero_le n
  · exact hlt.le

theorem keeps_signatures {cnt : Nat} (h : cnt ≤ n) :
    Keeps (Allowed n) n (meterSignatures cnt) fun _ => True := by
  refine (Keeps.forward (forward_need _)).bind fun _ _ => ?_
  refine (Keeps.grow (.vector h)).bind fun _ _ => ?_
  refine (Keeps.fill (.forward (forward_blob 64)) cnt 0 fun size hsize => ?_).mono
    fun _ _ => trivial
  show size ≤ n
  omega

theorem keeps_signatureVectors {vin : List TxIn} (h : ∀ i ∈ vin, i.signatureSize ≤ n) :
    Keeps (Allowed n) n (meterSignatureVectors vin) fun _ => True := by
  induction vin with
  | nil => exact .pure trivial
  | cons i vin ih =>
    have hi : i.signatureSize ≤ n := h i (by simp)
    refine (Keeps.grow (.vector hi)).bind fun _ _ => ?_
    refine (keeps_signatures hi).bind fun _ _ => ?_
    exact (ih fun x hx => h x (by simp [hx])).bind fun _ _ => .pure trivial

theorem keeps_rctsigBase (rv : RctSig) {inputs outputs : Nat} (hinputs : inputs ≤ n)
    (houtputs : outputs ≤ n) :
    Keeps (Allowed n) n (meterRctsigBase rv inputs outputs) fun _ => True := by
  refine (Keeps.forward .byte).bind fun type _ => ?_
  dsimp only
  split
  · exact .pure trivial
  refine (Keeps.forward (.guard _)).bind fun _ _ => ?_
  refine (Keeps.forward (forward_uvarint 64)).bind fun _ _ => ?_
  refine Keeps.bind (P := fun _ => True) ?_ fun _ _ => ?_
  · unfold meterPseudoOuts
    split
    · exact keeps_blobs (.vector hinputs)
    · exact .pure trivial
  refine (keeps_prepared (.forward ?_) (.vector houtputs)).bind fun _ _ => ?_
  · exact .bind (forward_blob 32) fun _ => .bind (forward_blob 32) fun _ => .pure _
  exact (keeps_blobs (.vector houtputs)).bind fun _ _ => .pure trivial

theorem keeps_rctsigPrunable (rv : RctSig) {inputs outputs mixin : Nat} (hpos : 0 < inputs)
    (hinputs : inputs < n) (houtputs : outputs ≤ n) (hmixin : u64 (mixin + 1) ≤ n) :
    Keeps (Allowed n) n (meterRctsigPrunable rv inputs outputs mixin) fun _ => True := by
  have hcolumns : rv.mgSs2Elements inputs ≤ n := by
    unfold RctSig.mgSs2Elements
    split <;> omega
  have helements : rv.mgElements inputs ≤ n := by
    unfold RctSig.mgElements
    split <;> omega
  unfold meterRctsigPrunable
  split
  · exact .pure trivial
  refine (Keeps.forward (.guard _)).bind fun _ _ => ?_
  refine (keeps_prepared (.forward ?_) (.vector houtputs)).bind fun _ _ => ?_
  · exact .bind (forward_blob _) fun _ => .bind (forward_blob _) fun _ => .pure _
  refine (keeps_prepared (P := fun _ => True) ?_ (.vector helements)).bind fun _ _ => .pure trivial
  refine (keeps_prepared (keeps_blobs (.vector hcolumns)) (.vector hmixin)).bind fun _ _ => ?_
  exact (Keeps.forward (forward_blob 32)).bind fun _ _ => .pure trivial

/-- The rows of an MLSAG signature, one for each member of the first ring. -/
theorem u64_mixin_le {i : TxIn} (hn : 1 ≤ n) (h : i.signatureSize ≤ n) :
    u64 (i.mixin + 1) ≤ n := by
  cases i with
  | toKey amount keyOffsets kImage =>
    simp only [TxIn.signatureSize] at h
    simp only [TxIn.mixin, u64, subU64]
    omega
  | gen height => exact hn
  | toScript prev prevout sigset => exact hn
  | toScripthash prev prevout script sigset => exact hn

theorem keeps_transaction (tx : Transaction) :
    Keeps (Allowed n) n (meterTransaction tx) fun _ => True := by
  refine (keeps_txPrefix _).bind fun txPrefix himplied => ?_
  split
  · have hvin : txPrefix.vin.length ≤ n := by
      rcases himplied.vin with hnil | hlt
      · rw [hnil]
        exact Nat.zero_le n
      · exact hlt.le
    refine (Keeps.grow (.vector hvin)).bind fun _ _ => ?_
    exact (keeps_signatureVectors himplied.signatureSize).bind fun _ _ => .pure trivial
  cases hvin : txPrefix.vin with
  | nil => exact .pure trivial
  | cons first rest =>
    have hlt : txPrefix.vin.length < n := himplied.vin.resolve_left (by simp [hvin])
    have hfirst : first.signatureSize ≤ n := himplied.signatureSize first (by simp [hvin])
    rw [hvin] at hlt
    refine Keeps.bind (P := fun _ => True) ?_ fun _ _ => .pure trivial
    refine (keeps_rctsigBase _ hlt.le himplied.vout).bind fun rv _ => ?_
    exact keeps_rctsigPrunable rv (by simp) hlt himplied.vout (u64_mixin_le (by omega) hfirst)

/-! ### Sizes of blocks -/

theorem treeDepthLoop_le (shifts : List Nat) (count depth : Nat) :
    treeDepthLoop shifts count depth ≤ depth + shifts.sum := by
  induction shifts generalizing count depth with
  | nil => exact le_rfl
  | cons i shifts ih =>
    rw [treeDepthLoop, List.sum_cons]
    split
    · exact (ih _ _).trans (by omega)
    · exact (ih _ _).trans (by omega)

theorem treeDepth_le (count : Nat) : treeDepth count ≤ 63 := treeDepthLoop_le _ _ _

theorem keeps_parentHead (parent : BytecoinBlock) :
    Keeps (Allowed n) n (meterParentHead parent) fun _ => True := by
  refine (Keeps.forward (forward_uvarint 8)).bind fun _ _ => ?_
  refine (Keeps.forward (forward_uvarint 8)).bind fun _ _ => ?_
  refine (Keeps.forward (forward_uvarint 64)).bind fun _ _ => ?_
  refine (Keeps.forward (forward_blob 32)).bind fun _ _ => ?_
  refine (Keeps.forward forward_uint32).bind fun _ _ => ?_
  refine (Keeps.forward (forward_uvarint 64)).bind fun numberOfTransactions _ => ?_
  refine (Keeps.forward (.guard _)).bind fun _ _ => ?_
  have hdepth : Allowed n .branch (treeDepth numberOfTransactions) :=
    (treeDepth_le _).trans ((by decide : 63 ≤ 64).trans (le_max_left 64 n))
  exact (keeps_blobs hdepth).bind fun _ _ => (keeps_transaction _).bind fun _ _ => .pure trivial

theorem keeps_blockBody (b : Block) (g : Transaction → List Hash → Block) :
    Keeps (Allowed n) n (do
      let minerTx ← meterTransaction b.minerTx
      let txHashes ← meterVector (Metered.lift (serializeBlob 32))
      pure (g minerTx txHashes)) fun _ => True :=
  (keeps_transaction _).bind fun _ _ =>
    (keeps_vector (.forward (forward_blob 32))).bind fun _ _ => .pure trivial

end Sizes

/-- The depth that the merge mining tag in the blob announces, if the parser gets to
it: the blob starts with the header of a merge-mined block and a parent up to its
miner transaction, whose extra bytes have the tag. -/
def announcedDepth (b : Block) (blob : List UInt8) : Option Nat :=
  match serializeBlockHeader b.toBlockHeader false blob with
  | none => none
  | some (header, rest) =>
    if isMergeMined header then
      match serializeParentHead b.parentBlock false rest with
      | none => none
      | some (head, _) => (getMmTagFromExtra head.2.minerTx.extra).map MergeMiningTag.depth
    else none

theorem announcedDepth_eq {b : Block} {blob rest rest' : List UInt8} {header : BlockHeader}
    {head : Nat × BytecoinBlock}
    (hheader : serializeBlockHeader b.toBlockHeader false blob = some (header, rest))
    (hmined : isMergeMined header = true)
    (hhead : serializeParentHead b.parentBlock false rest = some (head, rest')) :
    announcedDepth b blob =
      (getMmTagFromExtra head.2.minerTx.extra).map MergeMiningTag.depth := by
  simp only [announcedDepth, hheader, hmined, if_true, hhead]

theorem mem_sizes_blockchainBranch {minerTx : Transaction} {s : List UInt8}
    {e : Container × Nat} :
    e ∈ (meterBlockchainBranch minerTx).sizes s ↔
      ∃ tag, getMmTagFromExtra minerTx.extra = some tag ∧ e = (.branch, tag.depth) := by
  unfold meterBlockchainBranch
  cases getMmTagFromExtra minerTx.extra with
  | none => simp [Metered.lift]
  | some tag =>
    have hsizes : (meterPrepared .branch (Metered.lift (serializeBlob 32)) tag.depth).sizes s =
        [(.branch, tag.depth)] := by
      refine congrArg (List.cons _) ?_
      exact Metered.sizes_times_lift _ _ s
    simp [hsizes]

theorem forward_parent (b : Block) (header : BlockHeader) :
    Metered.Forward (serializeParent b header) := by
  unfold serializeParent
  split
  · refine .bind (fun s head rest hhead => ?_) fun head => .bind ?_ fun _ => .pure _
    · rw [← reader_meterParentHead] at hhead
      exact ((keeps_parentHead b.parentBlock s le_rfl).2 head rest hhead).1
    · unfold serializeBlockchainBranch
      split
      · intro s a rest h
        cases h
      · exact .times (forward_blob 32) _
  · exact .pure _

/-- Every size the block parser uses is allowed, or it is the announced depth. -/
theorem allowed_or_announced {b : Block} {s : List UInt8} {e : Container × Nat}
    (h : e ∈ (meterBlock b).sizes s) :
    Allowed s.length e.1 e.2 ∨ ∃ depth, announcedDepth b s = some depth ∧ e = (.branch, depth) := by
  rcases Metered.mem_sizes_bind.mp h with h | ⟨header, rest, hheader, h⟩
  · exact absurd h List.not_mem_nil
  have hrest : rest.length ≤ s.length := forward_blockHeader _ s header rest hheader
  rcases Metered.mem_sizes_bind.mp h with h | ⟨parent, rest', hparent, h⟩
  · unfold meterParent at h
    cases hmined : isMergeMined header with
    | false =>
      rw [hmined] at h
      exact absurd h List.not_mem_nil
    | true =>
      rw [hmined] at h
      rcases Metered.mem_sizes_bind.mp h with h | ⟨head, rest2, hhead, h⟩
      · exact .inl ((keeps_parentHead _ rest hrest).1 e h)
      rcases Metered.mem_sizes_bind.mp h with h | ⟨_, _, _, h⟩
      · obtain ⟨tag, htag, he⟩ := mem_sizes_blockchainBranch.mp h
        rw [reader_meterParentHead] at hhead
        refine .inr ⟨tag.depth, ?_, he⟩
        rw [announcedDepth_eq hheader hmined hhead, htag]
        rfl
      · exact absurd h List.not_mem_nil
  · rw [reader_meterParent] at hparent
    have hrest' : rest'.length ≤ s.length :=
      (forward_parent b header rest parent rest' hparent).trans hrest
    exact .inl ((keeps_blockBody b _ rest' hrest').1 e h)

theorem announced_mem {b : Block} {s : List UInt8} {depth : Nat}
    (h : announcedDepth b s = some depth) : (.branch, depth) ∈ (meterBlock b).sizes s := by
  unfold announcedDepth at h
  split at h
  · cases h
  rename_i header rest hheader
  split at h
  · rename_i hmined
    split at h
    · cases h
    rename_i head rest' hhead
    obtain ⟨tag, htag, hdepth⟩ := Option.map_eq_some_iff.mp h
    refine Metered.mem_sizes_bind.mpr (.inr ⟨header, rest, hheader, ?_⟩)
    refine Metered.mem_sizes_bind.mpr (.inl ?_)
    rw [meterParent, if_pos hmined]
    refine Metered.mem_sizes_bind.mpr (.inr ⟨head, rest', ?_, ?_⟩)
    · rwa [reader_meterParentHead]
    · refine Metered.mem_sizes_bind.mpr (.inl ?_)
      exact mem_sizes_blockchainBranch.mpr ⟨tag, htag, by rw [hdepth]⟩
  · cases h

/-- **Containers and the input.** Parsing a transaction never gives a container more
elements than there are bytes. Parsing a block does not either, up to 64 hashes
in a branch, exactly if the merge mining tag the parser comes across announces
no larger depth. -/
theorem containers_within_input (tx : Transaction) (b : Block) (blob : List UInt8) :
    (∀ e ∈ (meterTransaction tx).sizes blob, Allowed blob.length e.1 e.2) ∧
      ((∀ e ∈ (meterBlock b).sizes blob, Allowed blob.length e.1 e.2) ↔
        ∀ depth, announcedDepth b blob = some depth → depth ≤ max 64 blob.length) := by
  refine ⟨(keeps_transaction tx blob le_rfl).1, ?_, ?_⟩
  · intro h depth hdepth
    exact h (.branch, depth) (announced_mem hdepth)
  · intro h e he
    rcases allowed_or_announced he with hallowed | ⟨depth, hdepth, heq⟩
    · exact hallowed
    · rw [heq]
      exact h depth hdepth

/-- The merge-mined block without a branch keeps to its bytes. -/
theorem containers_within_input_merge_mined :
    announcedDepth .null (blockToBlob (mergeMinedBlock 0)) = some 0 ∧
      ∀ e ∈ (meterBlock .null).sizes (blockToBlob (mergeMinedBlock 0)),
        Allowed (blockToBlob (mergeMinedBlock 0)).length e.1 e.2 := by
  have hdepth : announcedDepth .null (blockToBlob (mergeMinedBlock 0)) = some 0 := by
    decide +kernel
  refine ⟨hdepth, (containers_within_input .null .null _).2.mpr fun depth h => ?_⟩
  rw [hdepth] at h
  cases h
  exact Nat.zero_le _

def deepTagBlob : List UInt8 :=
  [2, 0] ++ List.replicate 32 0 ++ [0, 0, 0] ++ List.replicate 36 0 ++ [1] ++
    [1, 0, 0, 0, 39] ++ [3, 37, 0x80, 0x80, 0x80, 0x80, 0x10] ++ List.replicate 32 0

/-- On these 118 bytes the parser resizes `blockchain_branch` to 2³² hashes. -/
theorem deep_tag_resizes_branch :
    deepTagBlob.length = 118 ∧ (.branch, 2 ^ 32) ∈ (meterBlock .null).sizes deepTagBlob ∧
      ¬ Allowed deepTagBlob.length .branch (2 ^ 32) := by
  refine ⟨by decide, announced_mem ?_, by decide⟩
  decide +kernel

end Lethean
