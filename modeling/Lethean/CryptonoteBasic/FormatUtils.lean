import Lethean.CryptonoteBasic.Difficulty
import Lethean.CryptonoteBasic.TxExtra
import Lethean.CryptonoteBasic.TxSerialization

/-!
# Lethean.CryptonoteBasic.FormatUtils

`cryptonote_format_utils.cpp` and `tree-hash.c`: what is hashed for a
transaction and for a block, and the two rules for proof of work. Version 2 and
3 blocks are merge mined: their proof of work is that of a parent block of
another chain, whose miner transaction commits to them with a Merkle root.

The hash functions are parameters. Cached hashes are always computed here.
-/

namespace Lethean

open BinaryArchive

/-- The hash functions of `crypto/`, and the id of the genesis block. -/
structure Crypto where
  cnFastHash : List UInt8 → Hash
  /-- `cn_slow_hash(data, variant, height)` -/
  cnSlowHash : List UInt8 → Nat → Nat → Hash
  chukwaSlowHashV2 : List UInt8 → Hash
  /-- `get_genesis_block_hash` -/
  genesisBlockHash : Hash

namespace Crypto

variable (c : Crypto)

/-! ### Tree hashes -/

/-- `cn_fast_hash` of two adjacent hashes. -/
def hashPair (a b : Hash) : Hash := c.cnFastHash (a.toList ++ b.toList)

/-- The loop of `tree_hash_cnt`. -/
def treeHashCntLoop (count : Nat) : Nat → Nat → Nat
  | 0, pow => pow
  | n + 1, pow => if pow < count then treeHashCntLoop count n (pow <<< 1) else pow

def treeHashCnt (count : Nat) : Nat := treeHashCntLoop count count 2 >>> 1

def hashPairs : List Hash → List Hash
  | a :: b :: rest => c.hashPair a b :: hashPairs rest
  | _ => []

/-- The levels above, down to two hashes; the bound is the width. -/
def treeHashLoop : Nat → List Hash → Hash
  | _, [a, b] => c.hashPair a b
  | 0, _ => nullHash
  | n + 1, ints => treeHashLoop n (c.hashPairs ints)

/-- `tree_hash`. It is never called without hashes. -/
def treeHash (hashes : List Hash) : Hash :=
  match hashes with
  | [] => nullHash
  | [a] => a
  | [a, b] => c.hashPair a b
  | _ =>
    let cnt := treeHashCnt hashes.length
    let single := 2 * cnt - hashes.length
    c.treeHashLoop cnt (hashes.take single ++ c.hashPairs (hashes.drop single))

/-- Bit `depth` of a path. -/
def pathBit (path : Hash) (depth : Nat) : Bool :=
  (path.toList.getD (depth >>> 3) 0).toNat &&& (1 <<< (depth &&& 7)) ≠ 0

/-- The loop of `tree_hash_from_branch`: `acc` is the hash of the subtree below
level `depth`. -/
def treeHashFromBranchLoop (branch : List Hash) (path : Option Hash) : Nat → Hash → Hash
  | 0, acc => acc
  | depth + 1, acc =>
    let sibling := branch.getD depth nullHash
    treeHashFromBranchLoop branch path depth
      (if path.any (pathBit · depth) then c.hashPair sibling acc else c.hashPair acc sibling)

def treeHashFromBranch (branch : List Hash) (leaf : Hash) (path : Option Hash) : Hash :=
  c.treeHashFromBranchLoop branch path branch.length leaf

/-- The loop of `tree_depth`, over the shifts 32, 16, ..., 1. -/
def treeDepthLoop : List Nat → Nat → Nat → Nat
  | [], _, depth => depth
  | i :: rest, count, depth =>
    if 0 < count >>> i then treeDepthLoop rest (count >>> i) (depth + i)
    else treeDepthLoop rest count depth

def treeDepth (count : Nat) : Nat := treeDepthLoop [32, 16, 8, 4, 2, 1] count 0

/-! ### Transactions -/

/-- `get_transaction_hash`. Version 1 hashes the blob, version 2 the hashes of
three parts. -/
def getTransactionHash (tx : Transaction) : Option Hash :=
  if tx.version ≤ 1 then some (c.cnFastHash (txToBlob tx))
  else
    let rv := tx.rctSignatures
    let mixin := (tx.vin.head?.map TxIn.mixin).getD 0
    let base := writeRctsigBase rv tx.vin.length tx.vout.length
    let prunable := writeRctsigPrunable rv tx.vin.length tx.vout.length mixin
    if base.ok = false then none
    else if rv.type ≠ rctTypeNull ∧ prunable.ok = false then none
    else
      let prunableHash := if rv.type = rctTypeNull then nullHash else c.cnFastHash prunable.bytes
      some (c.cnFastHash ((c.cnFastHash (writeTransactionPrefix tx.toTransactionPrefix).bytes).toList
        ++ (c.cnFastHash base.bytes).toList ++ prunableHash.toList))

def getTxTreeHash (b : Block) : Hash :=
  c.treeHash ((c.getTransactionHash b.minerTx).getD nullHash :: b.txHashes)

/-! ### Blocks -/

def writeUint32 (n : Nat) : List UInt8 :=
  [UInt8.ofNat n, UInt8.ofNat (n >>> 8), UInt8.ofNat (n >>> 16), UInt8.ofNat (n >>> 24)]

def hasOwnNonce (majorVersion : Nat) : Bool := majorVersion = 1 || 4 ≤ majorVersion

/-- `block_header`, written. -/
def writeBlockHeader (b : BlockHeader) : Output :=
  Output.emit (writeVarint b.majorVersion) ++ Output.check (b.majorVersion ≤ 8) ++
    Output.emit (writeVarint b.minorVersion ++
      (if hasOwnNonce b.majorVersion then writeVarint b.timestamp else []) ++ b.prevId.toList ++
      (if hasOwnNonce b.majorVersion then writeUint32 b.nonce else []))

def getBlockHashingBlob (b : Block) : List UInt8 :=
  (writeBlockHeader b.toBlockHeader).bytes ++ (c.getTxTreeHash b).toList ++
    writeVarint (b.txHashes.length + 1)

/-- The part of `serializable_bytecoin_block` that comes first, for hashing. -/
def writeParentHeader (b : Block) : Output :=
  let parent := b.parentBlock
  let minerTx := { parent.minerTx with isMmTx := true }
  Output.emit (writeVarint parent.majorVersion ++ writeVarint parent.minorVersion ++
      writeVarint b.timestamp ++ parent.prevId.toList ++ writeUint32 parent.nonce) ++
    Output.check (c.getTransactionHash minerTx).isSome ++
    Output.emit (c.treeHashFromBranch parent.minerTxBranch
        ((c.getTransactionHash minerTx).getD nullHash) none).toList ++
    Output.emit (writeVarint parent.numberOfTransactions) ++
    Output.check (1 ≤ parent.numberOfTransactions)

/-- `serializable_bytecoin_block` in full, for hashing. -/
def writeParent (b : Block) : Output :=
  let parent := b.parentBlock
  let mmTag := getMmTagFromExtra parent.minerTx.extra
  c.writeParentHeader b ++
    Output.check (parent.minerTxBranch.length = treeDepth parent.numberOfTransactions) ++
    Output.emit (parent.minerTxBranch.flatMap List.Vector.toList) ++
    writeTransaction { parent.minerTx with isMmTx := true } ++
    Output.check (mmTag.any fun tag => tag.depth = parent.blockchainBranch.length) ++
    Output.emit (parent.blockchainBranch.flatMap List.Vector.toList)

/-- `get_object_hash` of a blob, which is hashed as a string with its length. -/
def getObjectHash (blob : List UInt8) : Hash := c.cnFastHash (writeVarint blob.length ++ blob)

def isMergeMined (b : BlockHeader) : Bool := b.majorVersion = 2 || b.majorVersion = 3

/-- `get_block_hash`, the null hash when it fails. -/
def getBlockHash (b : Block) : Hash :=
  if isMergeMined b.toBlockHeader then
    if (c.writeParent b).ok then
      c.getObjectHash (c.getBlockHashingBlob b ++ (c.writeParent b).bytes)
    else nullHash
  else c.getObjectHash (c.getBlockHashingBlob b)

def getBlockHeaderHash (b : Block) : Hash := c.getObjectHash (c.getBlockHashingBlob b)

/-! ### Proof of work -/

def cnVariant (majorVersion : Nat) : Nat :=
  if 4 ≤ majorVersion then (if 6 ≤ majorVersion then majorVersion - 2 else majorVersion - 3) else 0

def getBlockLonghash (b : Block) (height : Nat) : Hash :=
  if 7 ≤ b.majorVersion then c.chukwaSlowHashV2 (c.getBlockHashingBlob b)
  else c.cnSlowHash (c.getBlockHashingBlob b) (cnVariant b.majorVersion) height

def getBytecoinBlockLonghash (b : Block) : Option Hash :=
  if (c.writeParentHeader b).ok then some (c.cnSlowHash (c.writeParentHeader b).bytes 0 0) else none

def checkProofOfWorkV1 (b : Block) (currentDiffic height : Nat) : Bool :=
  if isMergeMined b.toBlockHeader then false
  else checkHash (c.getBlockLonghash b height) currentDiffic

/-- What `check_proof_of_work_v2` asks for besides the hash: the parent's miner
transaction has a merge mining tag, the branch is not longer than a path, and
the tag's root is that of the block's header hash. -/
def mergeMiningOk (b : Block) : Bool :=
  match getMmTagFromExtra b.parentBlock.minerTx.extra with
  | none => false
  | some mmTag =>
    b.parentBlock.blockchainBranch.length ≤ 8 * 32 &&
      c.treeHashFromBranch b.parentBlock.blockchainBranch (c.getBlockHeaderHash b)
        (some c.genesisBlockHash) = mmTag.merkleRoot

def checkProofOfWorkV2 (b : Block) (currentDiffic : Nat) : Bool :=
  if isMergeMined b.toBlockHeader = false then false
  else
    match c.getBytecoinBlockLonghash b with
    | none => false
    | some proofOfWork => checkHash proofOfWork currentDiffic && c.mergeMiningOk b

def checkProofOfWork (b : Block) (currentDiffic height : Nat) : Bool :=
  if isMergeMined b.toBlockHeader then c.checkProofOfWorkV2 b currentDiffic
  else c.checkProofOfWorkV1 b currentDiffic height

end Crypto

end Lethean
