import Lethean.CryptonoteBasic.Difficulty
import Lethean.CryptonoteBasic.HardFork
import Lethean.CryptonoteCore.TxPool
import Lethean.Lib.Window

/-!
# Lethean.CryptonoteCore.Blockchain

The state of `class Blockchain` and the functions that extend the main chain by
one block or shorten it by one: `handle_block_to_main_chain`,
`pop_block_from_blockchain`, and the difficulty and timestamp rules they use.

`handle_block_to_main_chain` is cut where the source changes what it may touch:
the header checks and the difficulty (which touch the difficulty cache only),
the transaction loop (which touches the pool only), and the storage call. The
clock enters as the argument `now`. Locks, statistics, log output and the block
size limit for templates are left out.
-/

namespace Lethean

/-- `block_extended_info`; its size and coin fields are never set. -/
structure BlockExtendedInfo where
  bl : Block
  height : Nat
  cumulativeDifficulty : Nat
  deriving DecidableEq

/-- `block_verification_context`. -/
structure Bvc where
  addedToMainChain : Bool := false
  verifivationFailed : Bool := false
  markedAsOrphaned : Bool := false
  alreadyExists : Bool := false
  partialBlockReward : Bool := false
  deriving DecidableEq, Repr

/-- What a block handler returns: its value, the verification context, and,
for the reorganizing ones, what the calls of `rollback_blockchain_switching`
on the way returned. No caller in the source looks at the latter. -/
structure Outcome where
  ret : Bool
  bvc : Bvc := {}
  rollbacks : List Bool := []
  deriving DecidableEq, Repr

namespace Outcome

/-- `return false`. -/
def reject : Outcome := { ret := false }

/-- `bvc.m_verifivation_failed = true; return false`. -/
def fail : Outcome := { ret := false, bvc := { verifivationFailed := true } }

end Outcome

/-- A call of `get_difficulty_for_next_block`: the chain and the version it
found, the state of the cache (was it one block behind, and how many entries did
it have), the vectors it passed to `next_difficulty`, and what it returned. -/
structure DifficultyCall where
  chain : List StoredBlock
  version : Nat
  cached : Bool
  cachedCount : Nat
  timestamps : List Nat
  difficulties : List Nat
  result : Nat
  deriving DecidableEq

/-- `class Blockchain`. -/
structure Blockchain where
  db : BlockchainDb
  hardfork : HardFork
  txPool : TxPool
  alternativeChains : Finmap fun _ : Hash => BlockExtendedInfo
  invalidBlocks : Finmap fun _ : Hash => BlockExtendedInfo
  checkpoints : Checkpoints
  /-- `m_timestamps_and_difficulties_height` -/
  cachedHeight : Nat
  /-- `m_timestamps` -/
  timestamps : List Nat
  /-- `m_difficulties` -/
  difficulties : List Nat
  /-- `m_blocks_longhash_table` -/
  blocksLonghashTable : Finmap fun _ : Hash => Hash
  /-- `m_blocks_txs_check` -/
  blocksTxsCheck : List Hash
  /-- A history variable: the calls of `get_difficulty_for_next_block` so far.
  No function reads it. -/
  difficultyCalls : List DifficultyCall

def StoredBlock.timestamp (b : StoredBlock) : Nat := b.blk.timestamp

namespace Blockchain

/-- A node that just started on a stored chain: nothing cached, no alternative
blocks, an empty pool. -/
def start (hf : HardFork) (db : BlockchainDb) (checkpoints : Checkpoints) : Blockchain :=
  { db := db, hardfork := hf, txPool := TxPool.empty, alternativeChains := ∅, invalidBlocks := ∅,
    checkpoints := checkpoints, cachedHeight := 0, timestamps := [], difficulties := [],
    blocksLonghashTable := ∅, blocksTxsCheck := [], difficultyCalls := [] }

def startEmpty (table : ForkTable) : Blockchain :=
  let hf := HardFork.new table HardFork.defaultWindowSize HardFork.defaultWindowSize_pos
  start hf.reset (BlockchainDb.empty.setHardForkVersion 0 hf.originalVersion) .empty

/-- `get_current_hard_fork_version`. -/
def currentVersion (bc : Blockchain) : Nat := bc.hardfork.getCurrentVersion

/-! ### Difficulty of the next block -/

/-- The blocks `get_difficulty_for_next_block` reads when it starts from
scratch: the last `n` ones, but never the genesis block. -/
def lastBlocks (chain : List StoredBlock) (n : Nat) : List StoredBlock :=
  let offset := chain.length - min chain.length n
  chain.drop (if offset = 0 then 1 else offset)

/-- The cached branch of `get_difficulty_for_next_block`: push the data of the
top block, then erase from the front what exceeds the window. -/
def slideCache (bc : Blockchain) (n : Nat) : Blockchain :=
  { bc with
    timestamps := (bc.timestamps ++ (bc.db.chain.getLast?.map (·.timestamp)).toList).rtake n
    difficulties :=
      (bc.difficulties ++ (bc.db.chain.getLast?.map (·.cumulativeDifficulty)).toList).rtake n
    cachedHeight := bc.db.height }

/-- The other branch: read the window from the database. -/
def fillCache (bc : Blockchain) (n : Nat) : Blockchain :=
  { bc with
    timestamps := (lastBlocks bc.db.chain n).map (·.timestamp)
    difficulties := (lastBlocks bc.db.chain n).map (·.cumulativeDifficulty)
    cachedHeight := bc.db.height }

def cacheUsable (bc : Blockchain) : Bool :=
  bc.cachedHeight ≠ 0 && bc.db.height = bc.cachedHeight + 1

/-- The cache after `get_difficulty_for_next_block`. -/
def refreshCache (bc : Blockchain) : Blockchain :=
  let n := difficultyBlocks bc.currentVersion
  if bc.cacheUsable then bc.slideCache n else bc.fillCache n

/-- The record of a call on `bc` that returns `result`. -/
def difficultyCall (bc : Blockchain) (result : Nat) : DifficultyCall :=
  { chain := bc.db.chain
    version := bc.currentVersion
    cached := bc.cacheUsable
    cachedCount := bc.timestamps.length
    timestamps := bc.refreshCache.timestamps
    difficulties := bc.refreshCache.difficulties
    result := result }

def getDifficultyForNextBlock (env : Env) (bc : Blockchain) : Nat × Blockchain :=
  let result := nextDifficulty env.lwmaV4 bc.currentVersion bc.refreshCache.timestamps
    bc.refreshCache.difficulties
  (result,
    { bc.refreshCache with
      difficultyCalls := bc.difficultyCalls ++ [bc.difficultyCall result] })

/-- `m_timestamps_and_difficulties_height = 0`. -/
def dropCache (bc : Blockchain) : Blockchain := { bc with cachedHeight := 0 }

/-! ### Timestamps -/

/-- `blockchain_timestamp_check_window`. -/
def timestampCheckWindow (version : Nat) : Nat := if version < 5 then 60 else 11

/-- `CRYPTONOTE_BLOCK_FUTURE_TIME_LIMIT`. -/
def blockFutureTimeLimit : Nat := 500

/-- `check_block_timestamp(timestamps, b)`. The median has sorted the vector by
the time `timestamps.back()` is read; on an empty vector that read is
undefined: `none`. -/
def checkTimestamps (version : Nat) (timestamps : List Nat) (b : BlockHeader) : Option Bool :=
  match (sortU64 timestamps).getLast? with
  | none => none
  | some topBlockTimestamp =>
    if 5 ≤ version ∧ b.timestamp < subU64 topBlockTimestamp blockFutureTimeLimit then some false
    else if b.timestamp < median timestamps then some false
    else some true

/-- `check_block_timestamp(b)` without the comparison with the clock. -/
def checkTimestampOnChain (version : Nat) (chain : List StoredBlock) (b : BlockHeader) :
    Option Bool :=
  if chain.length < timestampCheckWindow version then some true
  else
    checkTimestamps version ((chain.rtake (timestampCheckWindow version)).map (·.timestamp)) b

/-- `check_block_timestamp(b)`. -/
def checkBlockTimestamp (bc : Blockchain) (now : Nat) (b : BlockHeader) : Bool :=
  if now + blockFutureTimeLimit < b.timestamp then false
  else (checkTimestampOnChain bc.currentVersion bc.db.chain b).getD false

/-! ### Miner transactions -/

/-- `CRYPTONOTE_MINED_MONEY_UNLOCK_WINDOW`. -/
def minedMoneyUnlockWindow : Nat := 60

def prevalidateMinerTransaction (b : Block) (height : Nat) : Bool :=
  match b.minerTx.vin with
  | [.gen h] =>
    h = height && b.minerTx.unlockTime = height + minedMoneyUnlockWindow &&
      b.minerTx.checkOutsOverflow
  | _ => false

def plainTable : ForkTable :=
  ⟨[⟨1, 0, 1, 0⟩], by decide, by decide, by decide, by decide⟩

/-- A block for examples, known by its number: it names its parent's, and its
miner transaction claims the given height. -/
def sampleBlock (version nonce parent height timestamp : Nat) : Block :=
  { Block.ofHeader
      { majorVersion := version
        minorVersion := version
        timestamp := timestamp
        prevId := if height = 0 then nullHash else numberedHash parent
        nonce := nonce } with
    minerTx :=
      { Transaction.null with
        vin := [.gen height], unlockTime := height + minedMoneyUnlockWindow } }

/-- `get_last_n_blocks_sizes(sz, CRYPTONOTE_REWARD_BLOCKS_WINDOW)`. -/
def lastBlocksSizes (chain : List StoredBlock) : List Nat := (chain.rtake 100).map (·.size)

/-- `validate_miner_transaction`: the coins the block generates, and whether
it takes less than it could. -/
def validateMinerTransaction (chain : List StoredBlock) (b : Block)
    (cumulativeBlockSize fee alreadyGeneratedCoins version : Nat) : Option (Nat × Bool) :=
  let moneyInUse := b.minerTx.getOutsMoneyAmount
  match getBlockReward (median (lastBlocksSizes chain)) cumulativeBlockSize alreadyGeneratedCoins
      version with
  | none => none
  | some baseReward =>
    if u64 (baseReward + fee) < moneyInUse then none
    else if baseReward < subU64 moneyInUse fee then none
    else some (subU64 moneyInUse fee, u64 (baseReward + fee) ≠ moneyInUse)

/-! ### Proof of work and checkpoints -/

/-- The ids of the two blocks accepted without a proof-of-work test. -/
def powExceptions : List Hash :=
  [ ⟨[0x62, 0xae, 0xbe, 0x7a, 0x29, 0xa3, 0xe8, 0x8b, 0x54, 0x7e, 0x41, 0x7c, 0xa1, 0x62, 0xc4,
      0x36, 0xa6, 0xaa, 0x60, 0x14, 0xba, 0xfe, 0xdc, 0xb8, 0x46, 0xef, 0x76, 0x2e, 0x8b, 0x98,
      0xdf, 0xf0], rfl⟩,
    ⟨[0xa7, 0x80, 0x16, 0x71, 0xed, 0x1f, 0xd9, 0x87, 0x2b, 0xbf, 0x33, 0x0f, 0xd0, 0xfa, 0xa2,
      0xb5, 0xb6, 0xf5, 0xe6, 0x78, 0x30, 0x8f, 0x4a, 0xc8, 0xad, 0xdb, 0xc9, 0xe0, 0x3e, 0xdf,
      0xfe, 0xcb], rfl⟩ ]

/-- `fast_check`: the height lies in the compiled-in hash area. -/
def fastCheck (env : Env) (bc : Blockchain) : Bool := bc.db.height < env.blocksHashCheck.length

/-- The proof-of-work step of `handle_block_to_main_chain`. -/
def powStep (env : Env) (bc : Blockchain) (bl : Block) (id : Hash) (difficulty : Nat) : Bool :=
  if bc.fastCheck env then env.blocksHashCheck[bc.db.height]? = some (env.blockHash bl)
  else if id ∈ powExceptions then true
  else
    match bc.blocksLonghashTable.lookup id with
    | none => env.checkProofOfWork bl difficulty bc.db.height
    | some proofOfWork => checkHash proofOfWork difficulty

/-- The checkpoint step of `handle_block_to_main_chain`. -/
def checkpointStep (bc : Blockchain) (id : Hash) : Bool :=
  if bc.checkpoints.isInCheckpointZone bc.db.height then
    (bc.checkpoints.checkBlock bc.db.height id).1
  else true

/-! ### The transactions of a block -/

structure TxLoop where
  pool : TxPool
  txs : List Transaction
  feeSummary : Nat
  cumulativeBlockSize : Nat
  txIndex : Nat

/-- The inputs check of the loop; in the compiled-in hash area only the id is
compared. -/
def inputsOk (env : Env) (now : Nat) (bc : Blockchain) (txIndex : Nat) (txId : Hash)
    (tx : Transaction) : Bool :=
  if bc.fastCheck env then bc.blocksTxsCheck[txIndex]? = some txId
  else env.checkTxInputs bc.db bc.currentVersion now tx

/-- The loop over `bl.tx_hashes`. An error carries the loop variables reached,
and whether the block is to be kept as invalid. -/
def takeTxs (env : Env) (now : Nat) (bc : Blockchain) : List Hash → TxLoop →
    Except (Bool × TxLoop) TxLoop
  | [], s => .ok s
  | txId :: rest, s =>
    if env.txExists bc.db txId then .error (false, s)
    else
      match s.pool.takeTx txId with
      | none => .error (false, s)
      | some (ptx, pool) =>
        let s := { s with pool := pool, txs := s.txs ++ [ptx.tx] }
        if bc.inputsOk env now s.txIndex txId ptx.tx then
          takeTxs env now bc rest
            { s with
              feeSummary := u64 (s.feeSummary + ptx.fee)
              cumulativeBlockSize := u64 (s.cumulativeBlockSize + ptx.blobSize)
              txIndex := s.txIndex + 1 }
        else .error (true, s)

def returnTxToPool (env : Env) (now : Nat) (bc : Blockchain) (txs : List Transaction)
    (pool : TxPool) : Blockchain :=
  { bc with txPool := pool.returnTxs env bc.db bc.currentVersion now txs }

/-- `add_block_as_invalid`; an entry that exists already stays. -/
def addBlockAsInvalid (bc : Blockchain) (bei : BlockExtendedInfo) (id : Hash) : Blockchain :=
  if id ∈ bc.invalidBlocks then bc
  else { bc with invalidBlocks := bc.invalidBlocks.insert id bei }

/-! ### One block on top of the main chain -/

/-- `BlockchainDB::add_block` when it does not throw: the rows of the block,
then `m_hardfork->add`, whose return value is ignored. -/
def storeBlock (bc : Blockchain) (b : StoredBlock) : Blockchain :=
  match bc.hardfork.add (bc.db.push b) b.blk.toBlockHeader bc.db.height with
  | some (hf, db) => { bc with hardfork := hf, db := db }
  | none => { bc with db := bc.db.push b }

/-- `already_generated_coins` after the block, capped at `MONEY_SUPPLY`. -/
def coinsAfter (alreadyGeneratedCoins baseReward : Nat) : Nat :=
  if baseReward < subU64 moneySupply alreadyGeneratedCoins then
    u64 (alreadyGeneratedCoins + baseReward)
  else moneySupply

/-- `already_generated_coins` of the top block, 0 on an empty chain. -/
def topCoins (db : BlockchainDb) : Nat := (db.chain.getLast?.map (·.coins)).getD 0

def topCumulativeDifficulty (db : BlockchainDb) : Nat :=
  (db.chain.getLast?.map (·.cumulativeDifficulty)).getD 0

/-- The end of `handle_block_to_main_chain`, after the transaction loop. -/
def storeStep (env : Env) (now : Nat) (bc : Blockchain) (bl : Block) (currentDiffic : Nat)
    (s : TxLoop) : Outcome × Blockchain :=
  let bc := { bc with blocksTxsCheck := [] }
  match validateMinerTransaction bc.db.chain bl s.cumulativeBlockSize s.feeSummary
      (topCoins bc.db) bc.currentVersion with
  | none => (.fail, bc.returnTxToPool env now s.txs s.pool)
  | some (baseReward, partialBlockReward) =>
    match env.addBlockError bc.db bl s.txs with
    | some .keyImageExists =>
      ({ ret := false, bvc := { verifivationFailed := true, partialBlockReward } },
        bc.returnTxToPool env now s.txs s.pool)
    | some .other =>
      ({ ret := false, bvc := { partialBlockReward } },
        bc.returnTxToPool env now s.txs s.pool)
    | none =>
      ({ ret := true, bvc := { addedToMainChain := true, partialBlockReward } },
        { bc with txPool := s.pool }.storeBlock
          { blk := bl
            hash := env.blockHash bl
            size := s.cumulativeBlockSize
            cumulativeDifficulty := u64 (currentDiffic + topCumulativeDifficulty bc.db)
            coins := coinsAfter (topCoins bc.db) baseReward
            txs := s.txs })

/-- The transaction loop and what follows it. -/
def connectBlock (env : Env) (now : Nat) (bc : Blockchain) (bl : Block) (id : Hash)
    (currentDiffic : Nat) : Outcome × Blockchain :=
  match bc.takeTxs env now bl.txHashes ⟨bc.txPool, [], 0, env.blobSize bl.minerTx, 0⟩ with
  | .error (asInvalid, s) =>
    let bc := if asInvalid then bc.addBlockAsInvalid ⟨bl, 0, 0⟩ id else bc
    (.fail, bc.returnTxToPool env now s.txs s.pool)
  | .ok s => bc.storeStep env now bl currentDiffic s

def handleBlockToMainChain (env : Env) (now : Nat) (bc : Blockchain) (bl : Block) (id : Hash) :
    Outcome × Blockchain :=
  if bl.prevId ≠ bc.db.topBlockHash then (.reject, bc)
  else if bc.hardfork.check bl.toBlockHeader = false then (.fail, bc)
  else if bc.checkBlockTimestamp now bl.toBlockHeader = false then (.fail, bc)
  else
    let (currentDiffic, bc) := bc.getDifficultyForNextBlock env
    if currentDiffic = 0 then (.reject, bc)
    else if bc.powStep env bl id currentDiffic = false then (.fail, bc)
    else if bc.checkpointStep id = false then (.fail, bc)
    else if prevalidateMinerTransaction bl bc.db.height = false then (.fail, bc)
    else bc.connectBlock env now bl id currentDiffic

/-! ### One block off the main chain -/

/-- `pop_block_from_blockchain`; popping from an empty chain throws. The
storage hands the transactions back in reverse order. The hard-fork object is
not touched. -/
def popBlockFromBlockchain (env : Env) (now : Nat) (bc : Blockchain) :
    Option (Block × Blockchain) :=
  match bc.db.chain.getLast? with
  | none => none
  | some b =>
    let bc := { bc.dropCache with db := bc.db.pop }
    let txs := b.txs.reverse.filter fun tx => !tx.isCoinbase
    some (b.blk, bc.returnTxToPool env now txs bc.txPool)

end Blockchain

end Lethean
