import Lethean.CryptonoteBasic.Types

/-!
# Lethean.BlockchainDb.Interface

What `class BlockchainDB` promises to its users (`blockchain_db.h`): the main
chain as a stack of stored blocks with their metadata, and the table of
hard-fork versions by height. `Blockchain` and `HardFork` talk to the storage
through this interface only. The tables of the LMDB implementation are a
separate layer.

Reads by height throw when the height is not below `height()`; here they are
`Option`s. Loops of the source that read a range of heights below `height()`
are slices of `chain`.
-/

namespace Lethean

/-- A block of the main chain together with what `add_block` was given for it. -/
structure StoredBlock where
  blk : Block
  hash : Hash
  /-- `bi_size` -/
  size : Nat
  /-- `bi_diff` -/
  cumulativeDifficulty : Nat
  /-- `bi_coins` -/
  coins : Nat
  txs : List Transaction
  deriving DecidableEq

/-- A stored block with the given header and id and nothing else. -/
def StoredBlock.ofHeader (header : BlockHeader) (hash : Hash) : StoredBlock :=
  { blk := Block.ofHeader header, hash := hash, size := 0, cumulativeDifficulty := 0, coins := 0,
    txs := [] }

/-- The storage behind `m_db`. -/
structure BlockchainDb where
  /-- The main chain, genesis first: the block at height `h` is `chain[h]`. -/
  chain : List StoredBlock
  /-- The table `hf_versions`. -/
  hfVersions : Nat → Option Nat

namespace BlockchainDb

def empty : BlockchainDb := ⟨[], fun _ => none⟩

/-- `height()`: the number of stored blocks. -/
def height (db : BlockchainDb) : Nat := db.chain.length

def getBlockFromHeight (db : BlockchainDb) (h : Nat) : Option Block :=
  (db.chain[h]?).map (·.blk)

def getBlockHashFromHeight (db : BlockchainDb) (h : Nat) : Option Hash :=
  (db.chain[h]?).map (·.hash)

def getBlockCumulativeDifficulty (db : BlockchainDb) (h : Nat) : Option Nat :=
  (db.chain[h]?).map (·.cumulativeDifficulty)

def getBlockAlreadyGeneratedCoins (db : BlockchainDb) (h : Nat) : Option Nat :=
  (db.chain[h]?).map (·.coins)

/-- `top_block_hash`: the null hash on an empty chain. -/
def topBlockHash (db : BlockchainDb) : Hash :=
  (db.chain.getLast?.map (·.hash)).getD nullHash

def getBlockHeight (db : BlockchainDb) (id : Hash) : Option Nat :=
  db.chain.findIdx? (·.hash = id)

def blockExists (db : BlockchainDb) (id : Hash) : Bool :=
  db.chain.any (·.hash = id)

def getHardForkVersion (db : BlockchainDb) (h : Nat) : Option Nat := db.hfVersions h

/-- `set_hard_fork_version`: replaces the entry of the height. -/
def setHardForkVersion (db : BlockchainDb) (h version : Nat) : BlockchainDb :=
  { db with hfVersions := Function.update db.hfVersions h (some version) }

/-- What the block rows written by `add_block` amount to: one more block on top. -/
def push (db : BlockchainDb) (b : StoredBlock) : BlockchainDb :=
  { db with chain := db.chain ++ [b] }

/-- What `pop_block` amounts to. The hard-fork versions stay. -/
def pop (db : BlockchainDb) : BlockchainDb := { db with chain := db.chain.dropLast }

@[simp] theorem setHardForkVersion_chain (db : BlockchainDb) (h v : Nat) :
    (db.setHardForkVersion h v).chain = db.chain := rfl

theorem setHardForkVersion_of_ne (db : BlockchainDb) {h i : Nat} (hi : i ≠ h) (v : Nat) :
    (db.setHardForkVersion h v).getHardForkVersion i = db.getHardForkVersion i :=
  Function.update_of_ne hi _ _

@[simp] theorem push_chain (db : BlockchainDb) (b : StoredBlock) :
    (db.push b).chain = db.chain ++ [b] := rfl

theorem blockHeight_of_getElem {db : BlockchainDb} (hids : (db.chain.map (·.hash)).Nodup)
    {h : Nat} {b : StoredBlock} (hb : db.chain[h]? = some b) :
    db.getBlockHeight b.hash = some h := by
  obtain ⟨hlt, rfl⟩ := List.getElem?_eq_some_iff.mp hb
  refine List.findIdx?_eq_some_iff_getElem.mpr ⟨hlt, by simp, fun j hj heq => ?_⟩
  have hh : h < (db.chain.map (·.hash)).length := by simpa using hlt
  have hj' : j < (db.chain.map (·.hash)).length := hj.trans hh
  have hhash : (db.chain.map (·.hash))[j] = (db.chain.map (·.hash))[h] := by simpa using heq
  exact absurd ((List.Nodup.getElem_inj_iff hids).mp hhash) hj.ne

theorem blockExists_iff {db : BlockchainDb} {id : Hash} :
    db.blockExists id = true ↔ ∃ b ∈ db.chain, b.hash = id := by
  simp [blockExists]

end BlockchainDb

end Lethean
