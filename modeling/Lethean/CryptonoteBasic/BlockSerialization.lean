import Lethean.CryptonoteBasic.FormatUtils
import Lethean.CryptonoteBasic.TxRoundTrip

/-!
# Lethean.CryptonoteBasic.BlockSerialization

The serializers of blocks. The header of a version 2 or 3 block has no timestamp
and no nonce: behind it comes the merge-mined parent block, which holds the
timestamp of the block and a nonce of its own. The nonce of the block itself is
not written then. The sizes of the two branches of the parent are implied, one
by its number of transactions, the other by the merge mining tag in its miner
transaction.

Blocks survive serialization except for that nonce, and a blob that parses is
the serialization of its block exactly if every varint in it ends properly.
-/

namespace Lethean

open Codec BinaryArchive Crypto

/-! ### Readers and writers -/

/-- `serialize_int` on a `uint32_t`. -/
def serializeUint32 : Reader Nat := do
  let b₀ ← Reader.byte
  let b₁ ← Reader.byte
  let b₂ ← Reader.byte
  let b₃ ← Reader.byte
  pure (b₀.toNat + b₁.toNat * 2 ^ 8 + b₂.toNat * 2 ^ 16 + b₃.toNat * 2 ^ 24)

/-- `block_header`, read into `header`. -/
def serializeBlockHeader (header : BlockHeader) : Reader BlockHeader := do
  let majorVersion ← serializeUvarint 8
  Reader.guard (majorVersion ≤ 8)
  let minorVersion ← serializeUvarint 8
  let timestamp ← if hasOwnNonce majorVersion then serializeUvarint 64 else pure header.timestamp
  let prevId ← serializeBlob 32
  let nonce ← if hasOwnNonce majorVersion then serializeUint32 else pure header.nonce
  pure ⟨majorVersion, minorVersion, timestamp, prevId, nonce⟩

/-- `tx.is_mm_tx = true`, which the constructor of `serializable_bytecoin_block`
sets in the parent's miner transaction. -/
def Transaction.asMmTx (tx : Transaction) : Transaction := { tx with isMmTx := true }

/-- `blockchain_branch`, behind the parent's miner transaction: as many hashes as
the tag in that transaction says. -/
def serializeBlockchainBranch (minerTx : Transaction) : Reader (List Hash) :=
  match getMmTagFromExtra minerTx.extra with
  | none => Reader.fail
  | some mmTag => (serializeBlob 32).times mmTag.depth

/-- `serializable_bytecoin_block` up to the miner transaction, not for hashing, read
into `parent`; with the timestamp of the block. -/
def serializeParentHead (parent : BytecoinBlock) : Reader (Nat × BytecoinBlock) := do
  let majorVersion ← serializeUvarint 8
  let minorVersion ← serializeUvarint 8
  let timestamp ← serializeUvarint 64
  let prevId ← serializeBlob 32
  let nonce ← serializeUint32
  let numberOfTransactions ← serializeUvarint 64
  Reader.guard (1 ≤ numberOfTransactions)
  let minerTxBranch ← (serializeBlob 32).times (treeDepth numberOfTransactions)
  let minerTx ← serializeTransaction parent.minerTx.asMmTx
  pure (timestamp, ⟨majorVersion, minorVersion, prevId, nonce, numberOfTransactions, minerTxBranch,
    minerTx, parent.blockchainBranch⟩)

@[inherit_doc serializeParentHead]
def writeParentHead (timestamp : Nat) (parent : BytecoinBlock) : Output :=
  Output.emit (writeVarint parent.majorVersion ++ writeVarint parent.minorVersion ++
      writeVarint timestamp ++ parent.prevId.toList ++ writeUint32 parent.nonce ++
      writeVarint parent.numberOfTransactions) ++
    Output.check (1 ≤ parent.numberOfTransactions) ++
    Output.check (parent.minerTxBranch.length = treeDepth parent.numberOfTransactions) ++
    Output.emit (parent.minerTxBranch.flatMap List.Vector.toList) ++
    writeTransaction parent.minerTx.asMmTx

/-- `serializable_bytecoin_block` in full. -/
def serializeBytecoinBlock (parent : BytecoinBlock) : Reader (Nat × BytecoinBlock) := do
  let head ← serializeParentHead parent
  let blockchainBranch ← serializeBlockchainBranch head.2.minerTx
  pure (head.1, { head.2 with blockchainBranch })

@[inherit_doc serializeBytecoinBlock]
def writeBytecoinBlock (timestamp : Nat) (parent : BytecoinBlock) : Output :=
  writeParentHead timestamp parent ++
    Output.check ((getMmTagFromExtra parent.minerTx.extra).any fun tag =>
      tag.depth = parent.blockchainBranch.length) ++
    Output.emit (parent.blockchainBranch.flatMap List.Vector.toList)

/-- The parent of a block with the given header, and the block's timestamp. -/
def serializeParent (b : Block) (header : BlockHeader) : Reader (Nat × BytecoinBlock) :=
  if isMergeMined header then serializeBytecoinBlock b.parentBlock
  else pure (header.timestamp, b.parentBlock)

/-- `block`, read into `b`. -/
def serializeBlock (b : Block) : Reader Block := do
  let header ← serializeBlockHeader b.toBlockHeader
  let parent ← serializeParent b header
  let minerTx ← serializeTransaction b.minerTx
  let txHashes ← serializeVector (serializeBlob 32)
  pure { header with timestamp := parent.1, parentBlock := parent.2, minerTx, txHashes }

/-- `block`, written. -/
def writeBlock (b : Block) : Output :=
  writeBlockHeader b.toBlockHeader ++
    (if isMergeMined b.toBlockHeader then writeBytecoinBlock b.timestamp b.parentBlock
      else .emit []) ++
    writeTransaction b.minerTx ++ Output.emit (writeVector List.Vector.toList b.txHashes)

/-- `AUTO_VAL_INIT` of a `block`. -/
def Block.null : Block := Block.ofHeader ⟨0, 0, 0, nullHash, 0⟩

/-- `parse_and_validate_block_from_blob(blob, b)`: the block as it is filled when
the call returns `true`. All bytes must have been read. -/
def parseAndValidateBlockFromBlob (b : Block) (blob : List UInt8) : Option Block :=
  match serializeBlock b false blob with
  | some (b, []) => some b
  | _ => none

def blockToBlob (b : Block) : List UInt8 := (writeBlock b).bytes

/-! ### What is read is written back -/

theorem writeUint32_toNat (b0 b1 b2 b3 : UInt8) :
    writeUint32 (b0.toNat + b1.toNat * 2 ^ 8 + b2.toNat * 2 ^ 16 + b3.toNat * 2 ^ 24) =
      [b0, b1, b2, b3] := by
  have h0 := b0.toNat_lt
  have h1 := b1.toNat_lt
  have h2 := b2.toNat_lt
  have h3 := b3.toNat_lt
  simp only [writeUint32, Nat.shiftRight_eq_div_pow, List.cons.injEq, and_true,
    ← UInt8.toNat_inj, UInt8.toNat_ofNat']
  omega

theorem decodes_uint32 : Decodes serializeUint32 fun n o => o = writeUint32 n := by
  refine Decodes.byte.bind fun b0 o0 h0 => ?_
  refine Decodes.byte.bind fun b1 o1 h1 => ?_
  refine Decodes.byte.bind fun b2 o2 h2 => ?_
  refine Decodes.byte.bind fun b3 o3 h3 => ?_
  refine Decodes.pure ?_
  rw [h0, h1, h2, h3, writeUint32_toNat]
  rfl

theorem decodes_uvarint8 : Decodes (serializeUvarint 8) fun v o => o = writeVarint v :=
  decodes_uvarint

theorem decodes_blockHeader (header0 : BlockHeader) :
    Decodes (serializeBlockHeader header0) fun header o =>
      writeBlockHeader header = Output.emit o := by
  refine decodes_uvarint8.bind fun majorVersion o1 h1 => ?_
  refine Decodes.guard.bind fun _ o2 ⟨hallowed, h2⟩ => ?_
  refine decodes_uvarint8.bind fun minorVersion o3 h3 => ?_
  cases hown : hasOwnNonce majorVersion with
  | true =>
    refine decodes_uvarint64.bind fun timestamp o4 h4 => ?_
    refine (decodes_blob 32).bind fun prevId o5 h5 => ?_
    refine decodes_uint32.bind fun nonce o6 h6 => ?_
    refine Decodes.pure ?_
    simp [writeBlockHeader, hallowed, hown, h1, h2, h3, h4, h5, h6]
  | false =>
    refine (Decodes.pure (W := fun _ o => o = []) rfl).bind fun timestamp o4 h4 => ?_
    refine (decodes_blob 32).bind fun prevId o5 h5 => ?_
    refine (Decodes.pure (W := fun _ o => o = []) rfl).bind fun nonce o6 h6 => ?_
    refine Decodes.pure ?_
    simp [writeBlockHeader, hallowed, hown, h1, h2, h3, h4, h5, h6]

theorem hasOwnNonce_of_isMergeMined {header : BlockHeader} (h : isMergeMined header = true) :
    hasOwnNonce header.majorVersion = false := by
  simp only [isMergeMined, hasOwnNonce, Bool.or_eq_true, decide_eq_true_eq] at h ⊢
  rcases h with h | h <;> rw [h] <;> rfl

/-- The header of a merge-mined block is written without its timestamp. -/
theorem writeBlockHeader_timestamp {header : BlockHeader} (h : isMergeMined header = true)
    (timestamp : Nat) :
    writeBlockHeader { header with timestamp } = writeBlockHeader header := by
  simp [writeBlockHeader, hasOwnNonce_of_isMergeMined h]

theorem isMmTx_of_transaction {tx0 tx : Transaction} {strict : Bool}
    {s rest : List UInt8} (h : serializeTransaction tx0 strict s = some (tx, rest)) :
    tx.isMmTx = tx0.isMmTx := by
  obtain ⟨txPrefix, mid, hprefix, h⟩ := Reader.bind_some h
  have hflag : txPrefix.isMmTx = tx0.isMmTx := by
    obtain ⟨version, m1, -, hprefix⟩ := Reader.bind_some hprefix
    obtain ⟨_, m2, -, hprefix⟩ := Reader.bind_some hprefix
    obtain ⟨unlockTime, m3, -, hprefix⟩ := Reader.bind_some hprefix
    obtain ⟨vin, m4, -, hprefix⟩ := Reader.bind_some hprefix
    obtain ⟨vout, m5, -, hprefix⟩ := Reader.bind_some hprefix
    obtain ⟨extra, m6, -, hprefix⟩ := Reader.bind_some hprefix
    cases hprefix
    rfl
  rw [← hflag]
  split at h
  · obtain ⟨signatures, m, -, h⟩ := Reader.bind_some h
    cases h
    rfl
  cases hvin : txPrefix.vin with
  | nil =>
    rw [hvin] at h
    cases h
    rfl
  | cons first vin =>
    rw [hvin] at h
    obtain ⟨rctSignatures, m, -, h⟩ := Reader.bind_some h
    cases h
    rfl

theorem decodes_blockchainBranch (minerTx : Transaction) :
    Decodes (serializeBlockchainBranch minerTx) fun branch o =>
      ((getMmTagFromExtra minerTx.extra).any fun tag => tag.depth = branch.length) = true ∧
        o = branch.flatMap List.Vector.toList := by
  unfold serializeBlockchainBranch
  cases htag : getMmTagFromExtra minerTx.extra with
  | none => exact Decodes.fail
  | some mmTag =>
    exact (decodes_times (decodes_blob 32) mmTag.depth).mono fun branch o ⟨hlength, ho⟩ =>
      ⟨by simp [hlength], ho⟩

theorem decodes_parentHead (parent0 : BytecoinBlock) :
    Decodes (serializeParentHead parent0) fun head o =>
      writeParentHead head.1 head.2 = Output.emit o := by
  refine decodes_uvarint8.bind fun majorVersion o1 h1 => ?_
  refine decodes_uvarint8.bind fun minorVersion o2 h2 => ?_
  refine decodes_uvarint64.bind fun timestamp o3 h3 => ?_
  refine (decodes_blob 32).bind fun prevId o4 h4 => ?_
  refine decodes_uint32.bind fun nonce o5 h5 => ?_
  refine decodes_uvarint64.bind fun numberOfTransactions o6 h6 => ?_
  refine Decodes.guard.bind fun _ o7 ⟨hcount, h7⟩ => ?_
  refine (decodes_times (decodes_blob 32) _).bind fun minerTxBranch o8 ⟨hbranch, h8⟩ => ?_
  refine ((decodes_transaction _).and fun s tx rest =>
    isMmTx_of_transaction).bind fun minerTx o9 ⟨h9, hflag⟩ => ?_
  refine Decodes.pure ?_
  have hminerTx : minerTx.asMmTx = minerTx := by
    have hflag : minerTx.isMmTx = true := hflag
    rw [Transaction.asMmTx, ← hflag]
  simp [writeParentHead, hminerTx, hcount, hbranch, h1, h2, h3, h4, h5, h6, h7, h8, h9]

theorem decodes_bytecoinBlock (parent0 : BytecoinBlock) :
    Decodes (serializeBytecoinBlock parent0) fun result o =>
      writeBytecoinBlock result.1 result.2 = Output.emit o := by
  refine (decodes_parentHead parent0).bind fun head o1 h1 => ?_
  refine (decodes_blockchainBranch head.2.minerTx).bind fun branch o2 ⟨htag, h2⟩ => ?_
  refine Decodes.pure ?_
  -- the branch is not part of the head
  have hhead : writeParentHead head.1 { head.2 with blockchainBranch := branch } =
      Output.emit o1 := h1
  simp [writeBytecoinBlock, hhead, htag, h2]

theorem decodes_block (b0 : Block) :
    Decodes (serializeBlock b0) fun b o => writeBlock b = Output.emit o := by
  refine (decodes_blockHeader _).bind fun header o1 h1 => ?_
  unfold serializeParent
  cases hmined : isMergeMined header with
  | true =>
    refine (decodes_bytecoinBlock _).bind fun parent o2 h2 => ?_
    refine (decodes_transaction _).bind fun minerTx o3 h3 => ?_
    refine (decodes_vector (decodes_blob 32)).bind fun txHashes o4 h4 => ?_
    refine Decodes.pure ?_
    have hmined' : isMergeMined { header with timestamp := parent.1 } = true := hmined
    simp [writeBlock, hmined', writeBlockHeader_timestamp hmined, h1, h2, h3, h4]
  | false =>
    refine (Decodes.pure (W := fun parent o => parent.1 = header.timestamp ∧ o = [])
      ⟨rfl, rfl⟩).bind fun parent o2 ⟨htimestamp, h2⟩ => ?_
    refine (decodes_transaction _).bind fun minerTx o3 h3 => ?_
    refine (decodes_vector (decodes_blob 32)).bind fun txHashes o4 h4 => ?_
    refine Decodes.pure ?_
    simp [writeBlock, htimestamp, hmined, h1, h2, h3, h4]

/-- Every varint of the blob that the parser reads ends properly: a parser that
checks this, and is the same otherwise, accepts the blob. -/
def BlockVarintsOk (b₀ : Block) (blob : List UInt8) : Prop :=
  (serializeBlock b₀ true blob).isSome

instance (b₀ : Block) (blob : List UInt8) : Decidable (BlockVarintsOk b₀ blob) :=
  inferInstanceAs (Decidable (_ = true))

theorem serializeBlock_of_parse {b0 b : Block} {blob : List UInt8}
    (h : parseAndValidateBlockFromBlob b0 blob = some b) :
    serializeBlock b0 false blob = some (b, []) := by
  unfold parseAndValidateBlockFromBlob at h
  split at h
  · rename_i b' hread
    rwa [← Option.some.inj h]
  · cases h

theorem blockToBlob_eq_iff {b0 b : Block} {blob : List UInt8}
    (h : parseAndValidateBlockFromBlob b0 blob = some b) :
    blockToBlob b = blob ↔ BlockVarintsOk b0 blob := by
  refine (decodes_block b0).eq_iff_isSome (serializeBlock_of_parse h) fun o hwrite => ?_
  rw [blockToBlob, hwrite]
  rfl

/-! ### What is written is read back -/

/-- A parent block whose numbers fit their types and whose branches have the sizes
that the rest of it implies. -/
structure BytecoinBlock.WellFormed (parent : BytecoinBlock) : Prop where
  majorVersion : parent.majorVersion < 2 ^ 8
  minorVersion : parent.minorVersion < 2 ^ 8
  nonce : parent.nonce < 2 ^ 32
  numberOfTransactions : 1 ≤ parent.numberOfTransactions ∧ parent.numberOfTransactions < 2 ^ 64
  minerTxBranch : parent.minerTxBranch.length = treeDepth parent.numberOfTransactions
  minerTx : parent.minerTx.WellFormed
  blockchainBranch : ∃ tag, getMmTagFromExtra parent.minerTx.extra = some tag ∧
    tag.depth = parent.blockchainBranch.length

/-- A block of version 1 to 8 with a well-formed miner transaction and, if it is
merge mined, a well-formed parent. -/
structure Block.WellFormed (b : Block) : Prop where
  majorVersion : 1 ≤ b.majorVersion ∧ b.majorVersion ≤ 8
  minorVersion : b.minorVersion < 2 ^ 8
  timestamp : b.timestamp < 2 ^ 64
  nonce : b.nonce < 2 ^ 32
  parentBlock : isMergeMined b.toBlockHeader = true → b.parentBlock.WellFormed
  minerTx : b.minerTx.WellFormed
  minerTxVersion : b.minerTx.version = 1 ∨ b.minerTx.version = 2
  txHashes : b.txHashes.length < 2 ^ 64

theorem reads_uint32 {n : Nat} (h : n < 2 ^ 32) : Reads serializeUint32 (writeUint32 n) n := by
  have hvalue : (UInt8.ofNat n).toNat + (UInt8.ofNat (n >>> 8)).toNat * 2 ^ 8 +
      (UInt8.ofNat (n >>> 16)).toNat * 2 ^ 16 + (UInt8.ofNat (n >>> 24)).toNat * 2 ^ 24 = n := by
    simp only [UInt8.toNat_ofNat', Nat.shiftRight_eq_div_pow]
    omega
  refine Reads.byte_bind (Reads.byte_bind (Reads.byte_bind (Reads.byte_bind ?_)))
  rw [hvalue]
  exact Reads.pure n

/-- The header as it is read into `header₀`: a merge-mined one has no timestamp
and no nonce. -/
def BlockHeader.readInto (header₀ header : BlockHeader) : BlockHeader :=
  if isMergeMined header then
    { header with timestamp := header₀.timestamp, nonce := header₀.nonce }
  else header

theorem roundTrips_blockHeader {b : Block} (h : b.WellFormed) (header0 : BlockHeader) :
    RoundTrips (writeBlockHeader b.toBlockHeader) (serializeBlockHeader header0)
      (header0.readInto b.toBlockHeader) := by
  obtain ⟨hpos, hle⟩ := h.majorVersion
  rw [writeBlockHeader, Output.append_assoc]
  refine RoundTrips.append (.emit (reads_uvarint (by omega))) ?_
  refine RoundTrips.guard (decide_eq_true hle) hle (.emit ?_)
  rw [List.append_assoc, List.append_assoc, BlockHeader.readInto]
  refine (reads_uvarint h.minorVersion).bind ?_
  cases hmined : isMergeMined b.toBlockHeader with
  | true =>
    rw [hasOwnNonce_of_isMergeMined hmined]
    exact (Reads.pure _).bind ((reads_blob b.prevId).bind ((Reads.pure _).bind (Reads.pure _)))
  | false =>
    have hown : hasOwnNonce b.majorVersion = true := by
      simp only [isMergeMined, hasOwnNonce, Bool.or_eq_false_iff, decide_eq_false_iff_not,
        Bool.or_eq_true, decide_eq_true_eq] at hmined ⊢
      omega
    rw [hown]
    refine (reads_uvarint h.timestamp).bind ((reads_blob b.prevId).bind ?_)
    exact (reads_uint32 h.nonce).last (Reads.pure _)

/-- The parent block as it is read into `parent₀`. -/
def BytecoinBlock.readInto (parent₀ parent : BytecoinBlock) : BytecoinBlock :=
  { parent with minerTx := parent₀.minerTx.asMmTx.readInto parent.minerTx }

theorem versionAllowed_mm (version : Nat) : versionAllowed version true = true := by
  simp [versionAllowed]

theorem roundTrips_parentHead {parent : BytecoinBlock} (h : parent.WellFormed)
    {timestamp : Nat} (htimestamp : timestamp < 2 ^ 64) (parent0 : BytecoinBlock) :
    RoundTrips (writeParentHead timestamp parent) (serializeParentHead parent0)
      (timestamp, { parent0.readInto parent with
        blockchainBranch := parent0.blockchainBranch }) := by
  obtain ⟨hpos, hcount⟩ := h.numberOfTransactions
  have hminerTx : parent.minerTx.asMmTx.WellFormed :=
    ⟨⟨h.minerTx.fits.version, h.minerTx.fits.unlockTime, h.minerTx.fits.vin, h.minerTx.fits.vout,
      h.minerTx.fits.extra⟩, h.minerTx.signatures, h.minerTx.rctSignatures⟩
  simp only [writeParentHead, ← Output.emit_append_emit, Output.append_assoc]
  refine RoundTrips.append (.emit (reads_uvarint h.majorVersion)) ?_
  refine RoundTrips.append (.emit (reads_uvarint h.minorVersion)) ?_
  refine RoundTrips.append (.emit (reads_uvarint htimestamp)) ?_
  refine RoundTrips.append (.emit (reads_blob parent.prevId)) ?_
  refine RoundTrips.append (.emit (reads_uint32 h.nonce)) ?_
  refine RoundTrips.append (.emit (reads_uvarint hcount)) ?_
  refine RoundTrips.guard (decide_eq_true hpos) hpos ?_
  refine RoundTrips.check (by simp [h.minerTxBranch]) ?_
  rw [← h.minerTxBranch]
  refine RoundTrips.append (.emit (reads_blobs parent.minerTxBranch)) ?_
  exact (roundTrips_transaction hminerTx _ (versionAllowed_mm _) (versionAllowed_mm _)).last
    (Reads.pure _)

theorem roundTrips_bytecoinBlock {parent : BytecoinBlock} (h : parent.WellFormed)
    {timestamp : Nat} (htimestamp : timestamp < 2 ^ 64) (parent0 : BytecoinBlock) :
    RoundTrips (writeBytecoinBlock timestamp parent) (serializeBytecoinBlock parent0)
      (timestamp, parent0.readInto parent) := by
  obtain ⟨tag, htag, hdepth⟩ := h.blockchainBranch
  have hbranch : serializeBlockchainBranch (parent0.minerTx.asMmTx.readInto parent.minerTx) =
      (serializeBlob 32).times parent.blockchainBranch.length := by
    rw [← hdepth]
    simp only [serializeBlockchainBranch, Transaction.readInto, htag]
  rw [writeBytecoinBlock, Output.append_assoc]
  refine (roundTrips_parentHead h htimestamp parent0).append ?_
  refine RoundTrips.check (by simp [htag, hdepth]) ?_
  dsimp only [BytecoinBlock.readInto]
  rw [hbranch]
  exact RoundTrips.last (.emit (reads_blobs parent.blockchainBranch)) (Reads.pure _)

/-- The block as it is read into `b₀`. -/
def Block.readInto (b₀ b : Block) : Block :=
  { b₀.toBlockHeader.readInto b.toBlockHeader with
    timestamp := b.timestamp
    parentBlock :=
      if isMergeMined b.toBlockHeader then b₀.parentBlock.readInto b.parentBlock
      else b₀.parentBlock
    minerTx := b₀.minerTx.readInto b.minerTx
    txHashes := b.txHashes }

theorem roundTrips_block {b : Block} (h : b.WellFormed) (b0 : Block) :
    RoundTrips (writeBlock b) (serializeBlock b0) (b0.readInto b) := by
  have hallowed : ∀ isMmTx, versionAllowed b.minerTx.version isMmTx = true := by
    rcases h.minerTxVersion with hv | hv <;> rw [hv] <;> decide
  have htail : ∀ parent : Nat × BytecoinBlock, ∀ header : BlockHeader,
      RoundTrips (writeTransaction b.minerTx ++
          Output.emit (writeVector List.Vector.toList b.txHashes))
        (do
          let minerTx ← serializeTransaction b0.minerTx
          let txHashes ← serializeVector (serializeBlob 32)
          pure { header with timestamp := parent.1, parentBlock := parent.2, minerTx, txHashes })
        ({ header with
          timestamp := parent.1, parentBlock := parent.2
          minerTx := b0.minerTx.readInto b.minerTx, txHashes := b.txHashes } : Block) := by
    intro parent header
    refine (roundTrips_transaction h.minerTx _ (hallowed _) (hallowed _)).append ?_
    refine RoundTrips.last (.emit (reads_vector h.txHashes ?_ fun hash _ => reads_blob hash))
      (Reads.pure _)
    intro hash _ hnil
    have hlength : hash.toList.length = 32 := hash.toList_length
    simp [hnil] at hlength
  rw [writeBlock, Output.append_assoc, Output.append_assoc]
  refine (roundTrips_blockHeader h b0.toBlockHeader).append ?_
  unfold serializeParent
  cases hmined : isMergeMined b.toBlockHeader with
  | true =>
    have hread : isMergeMined (b0.toBlockHeader.readInto b.toBlockHeader) = true := by
      rwa [BlockHeader.readInto, if_pos hmined]
    rw [hread, Block.readInto, hmined]
    exact (roundTrips_bytecoinBlock (h.parentBlock hmined) h.timestamp _).append (htail _ _)
  | false =>
    have hread : b0.toBlockHeader.readInto b.toBlockHeader = b.toBlockHeader := by
      rw [BlockHeader.readInto, if_neg (by simp [hmined])]
    rw [hread, hmined, Block.readInto, hmined, hread]
    exact RoundTrips.append (.emit (Reads.pure _)) (htail _ _)

/-! ### Both ways -/

/-- The same parent block as far as it is serialized. -/
structure BytecoinBlock.SameSerialized (parent parent' : BytecoinBlock) : Prop where
  majorVersion : parent'.majorVersion = parent.majorVersion
  minorVersion : parent'.minorVersion = parent.minorVersion
  prevId : parent'.prevId = parent.prevId
  nonce : parent'.nonce = parent.nonce
  numberOfTransactions : parent'.numberOfTransactions = parent.numberOfTransactions
  minerTxBranch : parent'.minerTxBranch = parent.minerTxBranch
  minerTx : parent.minerTx.SameSerialized parent'.minerTx
  blockchainBranch : parent'.blockchainBranch = parent.blockchainBranch

/-- The same block: the whole header, the transactions and, where there is one, the
parent. -/
structure Block.Same (b b' : Block) : Prop where
  header : b'.toBlockHeader = b.toBlockHeader
  parentBlock : isMergeMined b.toBlockHeader = true →
    b.parentBlock.SameSerialized b'.parentBlock
  minerTx : b.minerTx.SameSerialized b'.minerTx
  txHashes : b'.txHashes = b.txHashes

/-- Only the nonce of a merge-mined block is lost. -/
theorem Block.same_readInto_iff {b b0 : Block} (hminerTx : b0.minerTx.signatures = [])
    (hparent : b0.parentBlock.minerTx.signatures = []) :
    b.Same (b0.readInto b) ↔ (isMergeMined b.toBlockHeader = true → b.nonce = b0.nonce) := by
  have hheader : (b0.readInto b).toBlockHeader = b.toBlockHeader ↔
      (isMergeMined b.toBlockHeader = true → b.nonce = b0.nonce) := by
    cases hmined : isMergeMined b.toBlockHeader with
    | true =>
      simp only [Block.readInto, BlockHeader.readInto, if_pos hmined, true_implies]
      exact ⟨fun heq => (congrArg BlockHeader.nonce heq).symm, fun hnonce => by rw [← hnonce]⟩
    | false => simp [Block.readInto, BlockHeader.readInto, hmined]
  rw [← hheader]
  refine ⟨Block.Same.header, fun h => ⟨h, fun hmined => ?_, ?_, rfl⟩⟩
  · simp only [Block.readInto, if_pos hmined]
    exact ⟨rfl, rfl, rfl, rfl, rfl, rfl, b.parentBlock.minerTx.sameSerialized_readInto hparent, rfl⟩
  · exact b.minerTx.sameSerialized_readInto hminerTx

theorem parse_blockToBlob {b : Block} (h : b.WellFormed) :
    parseAndValidateBlockFromBlob .null (blockToBlob b) = some (Block.null.readInto b) := by
  obtain ⟨o, hwrite, hread⟩ := roundTrips_block h .null
  have hblob : blockToBlob b = o ++ [] := by rw [blockToBlob, hwrite, List.append_nil]; rfl
  rw [parseAndValidateBlockFromBlob, hblob, hread false []]

/-- **Blocks and blobs.** A well-formed block is written without error and its blob
parses; what comes back is the same block unless the block is merge mined and has
a nonce of its own. A blob that parses is the serialization of its block exactly
if every varint in it ends properly. -/
theorem block_round_trip (b : Block) (blob : List UInt8) :
    (b.WellFormed → (writeBlock b).ok = true ∧
      ∃ b', parseAndValidateBlockFromBlob .null (blockToBlob b) = some b' ∧
        (b.Same b' ↔ (isMergeMined b.toBlockHeader = true → b.nonce = 0))) ∧
      ∀ parsed, parseAndValidateBlockFromBlob .null blob = some parsed →
        (blockToBlob parsed = blob ↔ BlockVarintsOk .null blob) := by
  refine ⟨fun h => ?_, fun parsed => blockToBlob_eq_iff⟩
  obtain ⟨o, hwrite, -⟩ := roundTrips_block h .null
  exact ⟨by rw [hwrite]; rfl, Block.null.readInto b, parse_blockToBlob h,
    Block.same_readInto_iff rfl rfl⟩

def mergeMinedBlock (nonce : Nat) : Block :=
  { Block.ofHeader ⟨2, 0, 1000, nullHash, nonce⟩ with
    parentBlock :=
      { BytecoinBlock.null with
        numberOfTransactions := 1
        minerTx := { Transaction.null with extra := 3 :: 33 :: List.replicate 33 0 } } }

theorem Transaction.wellFormed_null {extra : List UInt8} (h : extra.length < 2 ^ 64) :
    ({ Transaction.null with extra } : Transaction).WellFormed :=
  ⟨⟨show 1 < 2 ^ 64 by decide, show 0 < 2 ^ 64 by decide,
    ⟨show 0 < 2 ^ 64 by decide, fun _ hi => absurd hi List.not_mem_nil⟩,
    ⟨show 0 < 2 ^ 64 by decide, fun _ ho => absurd ho List.not_mem_nil⟩, h⟩,
    fun _ => .inl .nil, fun hversion => absurd (show 1 < 1 from hversion) (by decide)⟩

theorem mergeMined_wellFormed {nonce : Nat} (hnonce : nonce < 2 ^ 32) :
    (mergeMinedBlock nonce).WellFormed := by
  refine ⟨⟨show 1 ≤ 2 by decide, show 2 ≤ 8 by decide⟩, show 0 < 2 ^ 8 by decide,
    show 1000 < 2 ^ 64 by decide, hnonce, fun _ => ?_,
    Transaction.wellFormed_null (show 0 < 2 ^ 64 by decide), .inl rfl, show 0 < 2 ^ 64 by decide⟩
  refine ⟨show 0 < 2 ^ 8 by decide, show 0 < 2 ^ 8 by decide, show 0 < 2 ^ 32 by decide,
    ⟨show 1 ≤ 1 by decide, show 1 < 2 ^ 64 by decide⟩, ?_,
    Transaction.wellFormed_null (by decide), ?_⟩
  · show 0 = treeDepth 1
    decide
  · have htag : getMmTagFromExtra (3 :: 33 :: List.replicate 33 0) = some ⟨0, nullHash⟩ := by
      decide +kernel
    exact ⟨⟨0, nullHash⟩, htag, rfl⟩

theorem block_round_trip_merge_mined :
    ∃ b', parseAndValidateBlockFromBlob .null (blockToBlob (mergeMinedBlock 0)) = some b' ∧
      (mergeMinedBlock 0).Same b' := by
  obtain ⟨-, b', hparse, hsame⟩ :=
    (block_round_trip (mergeMinedBlock 0) []).1 (mergeMined_wellFormed (by decide))
  exact ⟨b', hparse, hsame.mpr fun _ => rfl⟩

/-- The blob of a version 1 block without transactions, less its last byte: the
number of transaction hashes is missing. -/
def truncatedBlockBlob : List UInt8 :=
  [1, 0, 0] ++ List.replicate 32 0 ++ [0, 0, 0, 0] ++ [1, 0, 0, 0, 0]

/-- It is accepted, and the block it parses to has another blob. With a nonce, the
merge-mined block comes back without it. -/
theorem truncated_block_parses :
    (∃ b, parseAndValidateBlockFromBlob .null truncatedBlockBlob = some b ∧
      blockToBlob b ≠ truncatedBlockBlob) ∧
    (mergeMinedBlock 7).WellFormed ∧
      ∃ b', parseAndValidateBlockFromBlob .null (blockToBlob (mergeMinedBlock 7)) = some b' ∧
        b'.nonce = 0 := by
  refine ⟨⟨Block.ofHeader ⟨1, 0, 0, nullHash, 0⟩, by decide +kernel, by decide +kernel⟩,
    mergeMined_wellFormed (by decide), Block.null.readInto (mergeMinedBlock 7), ?_, rfl⟩
  decide +kernel

end Lethean
