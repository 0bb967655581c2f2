import Lethean.CryptonoteBasic.Types

/-!
# Lethean.BlockchainDb.Lmdb

`BlockchainDB::add_block` and its LMDB implementation, on the tables. A table
whose rows have increasing integer keys is the list of its rows; one that is
searched by a hash is a finite map. Counters of the source (`height`,
`num_outputs`, `get_tx_count`) are the numbers of rows.

Rows are written into a write transaction. Either it belongs to one call of
`add_block`, or a batch is open and its transaction takes the rows of many
calls. An exception leaves the rows that were written before it; only
`block_txn_abort` can take them back. Failures of LMDB itself (I/O, map full)
are left out, and all calls come from one thread.
-/

namespace Lethean

/-- The exceptions of `blockchain_db.h`. -/
inductive DbException
  | blockExists
  | blockDne
  | blockParentDne
  | txExists
  | txDne
  | outputDne
  | keyImageExists
  | txnStart
  | dbError
  deriving DecidableEq, Repr

/-! ### The tables -/

structure MdbBlockInfo where
  biHeight : Nat
  biTimestamp : Nat
  biCoins : Nat
  biSize : Nat
  biDiff : Nat
  biHash : Hash
  deriving DecidableEq

/-- The data of a `txindex`. -/
structure TxData where
  txId : Nat
  unlockTime : Nat
  blockId : Nat
  deriving DecidableEq

structure OutTx where
  outputId : Nat
  txHash : Hash
  localIndex : Nat
  deriving DecidableEq

/-- `outkey`, or `pre_rct_outkey` when there is no commitment. -/
structure OutKey where
  amountIndex : Nat
  outputId : Nat
  pubkey : PublicKey
  unlockTime : Nat
  height : Nat
  commitment : Option RctKey
  deriving DecidableEq

/-- The tables that `add_block` writes. A block or a transaction stands for its blob. -/
structure Tables where
  blocks : List (Nat × Block)
  blockInfo : List MdbBlockInfo
  blockHeights : Finmap fun _ : Hash => Nat
  txs : List (Nat × Transaction)
  txIndices : Finmap fun _ : Hash => TxData
  txOutputs : List (Nat × List Nat)
  outputTxs : List OutTx
  outputAmounts : Finmap fun _ : Nat => List OutKey
  spentKeys : Finset KeyImage
  deriving DecidableEq

namespace Tables

def empty : Tables := ⟨[], [], ∅, [], ∅, [], [], ∅, ∅⟩

/-- An operation on the tables, which keeps its rows when it throws. -/
abbrev Op (α : Type) := EStateM DbException Tables α

/-- `mdb_cursor_put` with `MDB_APPEND`: the key must be above all others. -/
def append {α : Type} (key : α → Nat) (rows : List α) (row : α) : Option (List α) :=
  if rows.getLast?.any (fun last => key row ≤ key last) then none else some (rows ++ [row])

/-- The rows of a put, or a `DB_ERROR` when it has failed. -/
def orDbError {α : Type} : Option α → Op α
  | none => throw .dbError
  | some rows => pure rows

/-! ### Transactions -/

/-- How the loop over the inputs ends: all key images are stored, the
transaction is skipped for an unsupported input, or a key image was there. -/
inductive InputLoop
  | done (minerTx : Bool)
  | skipped
  | keyImageExists
  deriving DecidableEq

/-- The loop over the inputs in `add_transaction`, on the table `spent_keys`.
An unsupported input removes the key images of all inputs again, those of later
inputs included. -/
def spendInputs (vin : List TxIn) : List TxIn → Bool → Finset KeyImage →
    InputLoop × Finset KeyImage
  | [], minerTx, spent => (.done minerTx, spent)
  | .toKey _ _ kImage :: rest, minerTx, spent =>
    if kImage ∈ spent then (.keyImageExists, spent)
    else spendInputs vin rest minerTx (insert kImage spent)
  | .gen _ :: rest, _, spent => spendInputs vin rest true spent
  | _ :: _, _, spent => (.skipped, spent \ (vin.filterMap TxIn.keyImage?).toFinset)

/-- The tables with another content of `spent_keys`. -/
def withSpent (t : Tables) (spent : Finset KeyImage) : Tables := { t with spentKeys := spent }

def addTransactionData (tx : Transaction) (txHash : Hash) : Op Nat := do
  let t ← get
  let txId := t.txs.length
  if txHash ∈ t.txIndices then throw .txExists
  modify fun t =>
    { t with txIndices := t.txIndices.insert txHash ⟨txId, tx.unlockTime, t.blocks.length⟩ }
  let txs ← orDbError (append Prod.fst t.txs (txId, tx))
  modify fun t => { t with txs := txs }
  pure txId

/-- The row of `output_amounts` for an output. -/
def outKey (t : Tables) (key : PublicKey) (amount unlockTime : Nat) (commitment : Option RctKey) :
    OutKey :=
  { amountIndex := ((t.outputAmounts.lookup amount).getD []).length
    outputId := t.outputTxs.length
    pubkey := key
    unlockTime := unlockTime
    height := t.blocks.length
    commitment := if amount = 0 then commitment else none }

def addOutput (txHash : Hash) (output : TxOut) (localIndex unlockTime : Nat)
    (commitment : Option RctKey) : Op Nat := do
  let t ← get
  match output.target with
  | .toKey key =>
    if output.amount = 0 ∧ commitment = none then throw .dbError
    let outputTxs ← orDbError
      (append OutTx.outputId t.outputTxs ⟨t.outputTxs.length, txHash, localIndex⟩)
    modify fun t => { t with outputTxs := outputTxs }
    let row := t.outKey key output.amount unlockTime commitment
    let rows ← orDbError
      (append OutKey.amountIndex ((t.outputAmounts.lookup output.amount).getD []) row)
    modify fun t => { t with outputAmounts := t.outputAmounts.insert output.amount rows }
    pure row.amountIndex
  | _ => throw .dbError

/-- The output and the commitment that `add_transaction` passes on for output
`i`. Version 2 miner outputs are stored as RingCT outputs of amount 0. Reading
past the end of `outPk` is undefined; the callers have checked the sizes. -/
def outputOf (zeroCommit : Nat → RctKey) (tx : Transaction) (minerTx : Bool) (i : Nat)
    (output : TxOut) : TxOut × Option RctKey :=
  if minerTx ∧ tx.version = 2 then ({ output with amount := 0 }, some (zeroCommit output.amount))
  else
    (output, if 1 < tx.version then some (tx.rctSignatures.outPk.getD i (nullBlob 32)) else none)

/-- The loop over the outputs; returns the indices by amount. -/
def addOutputs (zeroCommit : Nat → RctKey) (tx : Transaction) (txHash : Hash) (minerTx : Bool) :
    List (TxOut × Nat) → Op (List Nat)
  | [] => pure []
  | (output, i) :: rest => do
    let (output, commitment) := outputOf zeroCommit tx minerTx i output
    let index ← addOutput txHash output i tx.unlockTime commitment
    let indices ← addOutputs zeroCommit tx txHash minerTx rest
    pure (index :: indices)

def addTxAmountOutputIndices (txId : Nat) (indices : List Nat) : Op Unit := do
  let t ← get
  let txOutputs ← orDbError (append Prod.fst t.txOutputs (txId, indices))
  modify fun t => { t with txOutputs := txOutputs }

/-- The rows of a transaction whose inputs are spent. -/
def addTransactionRows (zeroCommit : Nat → RctKey) (tx : Transaction) (txHash : Hash)
    (minerTx : Bool) : Op Unit := do
  let txId ← addTransactionData tx txHash
  let indices ← addOutputs zeroCommit tx txHash minerTx tx.vout.zipIdx
  addTxAmountOutputIndices txId indices

def addTransaction (zeroCommit : Nat → RctKey) (tx : Transaction) (txHash : Hash) : Op Unit := do
  let t ← get
  let (loop, spent) := spendInputs tx.vin tx.vin false t.spentKeys
  modify fun t => t.withSpent spent
  match loop with
  | .keyImageExists => throw .keyImageExists
  | .skipped => pure ()
  | .done minerTx => addTransactionRows zeroCommit tx txHash minerTx

def addTransactions (zeroCommit : Nat → RctKey) : List (Transaction × Hash) → Op Unit
  | [] => pure ()
  | (tx, txHash) :: rest => do
    addTransaction zeroCommit tx txHash
    addTransactions zeroCommit rest

/-! ### Blocks -/

/-- What `add_block` throws before it writes the block's rows, if it does. -/
def blockRefused (t : Tables) (blk : Block) (blkHash : Hash) : Option DbException :=
  if blkHash ∈ t.blockHeights then some .blockExists
  else if t.blocks.length = 0 then none
  else
    match t.blockHeights.lookup blk.prevId with
    | none => some .dbError
    | some height => if height ≠ t.blocks.length - 1 then some .blockParentDne else none

/-- `BlockchainLMDB::add_block(blk, block_size, cumulative_difficulty,
coins_generated, blk_hash)`. -/
def addBlockRows (blk : Block) (blockSize cumulativeDifficulty coinsGenerated : Nat)
    (blkHash : Hash) : Op Unit := do
  let t ← get
  let height := t.blocks.length
  match t.blockRefused blk blkHash with
  | some e => throw e
  | none => do
    let blocks ← orDbError (append Prod.fst t.blocks (height, blk))
    modify fun t => { t with blocks := blocks }
    let blockInfo ← orDbError (append MdbBlockInfo.biHeight t.blockInfo
      ⟨height, blk.timestamp, coinsGenerated, blockSize, cumulativeDifficulty, blkHash⟩)
    modify fun t => { t with blockInfo := blockInfo }
    modify fun t => { t with blockHeights := t.blockHeights.insert blkHash height }

/-- A block as `add_block` gets it. -/
structure NewBlock where
  blk : Block
  blkHash : Hash
  minerTxHash : Hash
  blockSize : Nat
  cumulativeDifficulty : Nat
  coinsGenerated : Nat
  txs : List Transaction

/-- The transactions with the hashes they are stored under: the miner
transaction, then the others under the hashes the block lists. -/
def NewBlock.transactions (b : NewBlock) : List (Transaction × Hash) :=
  (b.blk.minerTx, b.minerTxHash) ::
    b.txs.zipIdx.map fun (tx, i) => (tx, b.blk.txHashes.getD i nullHash)

/-- The rows of `BlockchainDB::add_block`. -/
def addBlock (zeroCommit : Nat → RctKey) (b : NewBlock) : Op Unit := do
  addTransactions zeroCommit b.transactions
  addBlockRows b.blk b.blockSize b.cumulativeDifficulty b.coinsGenerated b.blkHash

end Tables

/-! ### Write transactions -/

/-- The environment: the committed tables, and the content of the write
transaction if one is open. While a batch is active, one is. -/
structure Lmdb where
  committed : Tables
  writeTxn : Option Tables
  batchActive : Bool
  batch_open : batchActive = true → writeTxn.isSome

namespace Lmdb

def visible (db : Lmdb) : Tables := db.writeTxn.getD db.committed

/-- `block_txn_start(false)`: the tables to write to. -/
def blockTxnStart (db : Lmdb) : Except DbException Tables :=
  if db.batchActive then .ok db.visible
  else if db.writeTxn.isSome then .error .txnStart
  else .ok db.committed

/-- `block_txn_stop`: commit, unless a batch is active. -/
def blockTxnStop (db : Lmdb) (t : Tables) : Lmdb :=
  if h : db.batchActive then { db with writeTxn := some t, batch_open := fun _ => rfl }
  else { db with committed := t, writeTxn := none, batch_open := fun h' => absurd h' h }

/-- `block_txn_abort`: drop the rows, unless a batch is active. -/
def blockTxnAbort (db : Lmdb) (t : Tables) : Lmdb :=
  if h : db.batchActive then { db with writeTxn := some t, batch_open := fun _ => rfl }
  else { db with writeTxn := none, batch_open := fun h' => absurd h' h }

/-- `BlockchainLMDB::add_block`: what it throws, if it does, and the
environment afterwards. -/
def addBlock (zeroCommit : Nat → RctKey) (db : Lmdb) (b : Tables.NewBlock) :
    Option DbException × Lmdb :=
  match db.blockTxnStart with
  | .error e => (some e, db)
  | .ok t =>
    match Tables.addBlock zeroCommit b t with
    | .ok _ t => (none, db.blockTxnStop t)
    | .error e t => (some e, db.blockTxnAbort t)

end Lmdb

end Lethean
