import Lethean.Wallet.ScanSteps

/-!
# Lethean.Wallet.Refresh

How a wallet follows the chain: `process_blocks` goes through the blocks a daemon
sends, skips those it has, and detaches its own blocks where they differ from the
daemon's. Detaching takes back what was received and spent in these blocks, by the
heights noted in the transfers.

The loop is the one without threads. With threads the blocks of a round are parsed
before the first of them is processed, and the rest is the same.
-/

namespace Lethean

open Frame

/-! ### Detaching -/

/-- `set_unspent`. -/
def TransferDetails.unspent (td : TransferDetails) : TransferDetails :=
  { td with spent := false, spentHeight := 0 }

/-- The spent status of a transfer when the blocks from a height on are detached. -/
def TransferDetails.resetSpent (height : Nat) (td : TransferDetails) : TransferDetails :=
  if td.spent ∧ height ≤ td.spentHeight then td.unspent else td

@[simp] theorem TransferDetails.keyImage_resetSpent (td : TransferDetails) (height : Nat) :
    (td.resetSpent height).keyImage = td.keyImage := by
  unfold resetSpent
  split <;> rfl

@[simp] theorem TransferDetails.getPublicKey_resetSpent (td : TransferDetails) (height : Nat) :
    (td.resetSpent height).getPublicKey = td.getPublicKey := by
  unfold resetSpent
  split <;> rfl

@[simp] theorem TransferDetails.blockHeight_resetSpent (td : TransferDetails) (height : Nat) :
    (td.resetSpent height).blockHeight = td.blockHeight := by
  unfold resetSpent
  split <;> rfl

def eraseKeyImages : List TransferDetails → WalletM PUnit
  | [] => pure ⟨⟩
  | td :: tds => do
    let w ← get
    if w.keyImages td.keyImage = none then
      throw (.error .keyImageNotFound)
    modify fun w => w.withKeyImages (Function.update w.keyImages td.keyImage none)
    eraseKeyImages tds

def erasePubKeys : List TransferDetails → WalletM PUnit
  | [] => pure ⟨⟩
  | td :: tds =>
    match td.getPublicKey with
    | none => throw .undefined
    | some pub => do
      let w ← get
      if w.pubKeys pub = none then
        throw (.error .publicKeyNotFound)
      modify fun w => w.withPubKeys (Function.update w.pubKeys pub none)
      erasePubKeys tds

def Wallet2.firstFrom (w : Wallet2) (height : Nat) : Nat :=
  w.transfers.findIdx fun td => height ≤ td.blockHeight

/-- The wallet without what it has noted for the blocks from a height on, apart from
the transfers. -/
def Wallet2.truncate (w : Wallet2) (height : Nat) : Wallet2 :=
  { w with
    blockchain := w.blockchain.take height
    localBcHeight := subU64 w.localBcHeight (u64 (w.blockchain.length - height))
    payments := w.payments.filter fun p => p.2.blockHeight < height
    confirmedTxs := fun txid => (w.confirmedTxs txid).filter fun c => c.blockHeight < height }

/-- `detach_blockchain`. Erasing from behind the end of `m_blockchain` is undefined. -/
def detachBlockchain (height : Nat) : WalletM PUnit := do
  modify fun w => w.withTransfers (w.transfers.map (·.resetSpent height))
  let w ← get
  let iStart := w.firstFrom height
  eraseKeyImages (w.transfers.drop iStart)
  erasePubKeys (w.transfers.drop iStart)
  modify fun w => w.withTransfers (w.transfers.take iStart)
  if w.blockchain.length < height then
    throw .undefined
  modify fun w => w.truncate height

/-! ### Blocks -/

/-- `block_complete_entry` with its output indices, parsed: a transaction that cannot
be parsed is `none`. The two lists that `process_blocks` gets are one list here, so
that their sizes cannot differ. -/
structure BlockEntry where
  block : Block
  /-- `get_block_hash(bl)` -/
  id : Hash
  /-- `get_transaction_hash(b.miner_tx)` -/
  minerTxid : Hash
  txs : List (Option Transaction)
  oIndices : List (List Nat)

def processTxs (env : WalletEnv) (height ts : Nat) :
    List (Option Transaction) → List Hash → List (List Nat) → WalletM PUnit
  | [], _, _ => pure ⟨⟩
  | none :: _, _, _ => throw (.error .parse)
  | some tx :: txs, txHashes, oIndices => do
    processNewTransaction env
      { txid := txHashes.headD nullHash, tx, oIndices := oIndices.headD [], height, ts
        minerTx := false, pool := false }
    processTxs env height ts txs txHashes.tail oIndices.tail

def Wallet2.pushBlock (w : Wallet2) (id : Hash) : Wallet2 :=
  { w with blockchain := w.blockchain ++ [id], localBcHeight := u64 (w.localBcHeight + 1) }

def processNewBlockchainEntry (env : WalletEnv) (entry : BlockEntry) (height : Nat) :
    WalletM PUnit := do
  if entry.txs.length + 1 ≠ entry.oIndices.length then
    throw (.error (.blockTransactions entry.txs.length entry.oIndices.length))
  if env.createtime < u64 (entry.block.timestamp + 60 * 60 * 24) ∧
      env.refreshFromBlockHeight ≤ height then
    processNewTransaction env
      { txid := entry.minerTxid, tx := entry.block.minerTx, oIndices := entry.oIndices.headD []
        height, ts := entry.block.timestamp, minerTx := true, pool := false }
    if entry.txs.length ≠ entry.block.txHashes.length then
      throw (.error .blockTxHashes)
    processTxs env height entry.block.timestamp entry.txs entry.block.txHashes entry.oIndices.tail
  modify fun w => w.pushBlock entry.id

/-- The body of the loop of `process_blocks`: is the block counted in `blocks_added`?
A block that cannot be parsed is `none`. -/
def processBlock (env : WalletEnv) (startHeight currentIndex : Nat) (entry : Option BlockEntry) :
    WalletM Bool :=
  match entry with
  | none => throw (.error .parse)
  | some entry => do
    let w ← get
    match w.blockchain[currentIndex]? with
    | none => do
      processNewBlockchainEntry env entry currentIndex
      return true
    | some id =>
      if entry.id = id then pure false
      else if currentIndex = startHeight then
        throw (.error (.splitAtFirst entry.id startHeight))
      else do
        detachBlockchain currentIndex
        processNewBlockchainEntry env entry currentIndex
        return false

/-- The loop of `process_blocks` from an index on, with `blocks_added`. -/
def processBlocksFrom (env : WalletEnv) (startHeight : Nat) :
    Nat → List (Option BlockEntry) → Nat → WalletM Nat
  | _, [], blocksAdded => pure blocksAdded
  | currentIndex, entry :: entries, blocksAdded => do
    let added ← processBlock env startHeight currentIndex entry
    processBlocksFrom env startHeight (currentIndex + 1) entries
      (if added then blocksAdded + 1 else blocksAdded)

/-- `process_blocks`: the number of blocks added. -/
def processBlocks (env : WalletEnv) (startHeight : Nat) (entries : List (Option BlockEntry)) :
    WalletM Nat :=
  processBlocksFrom env startHeight startHeight entries 0

end Lethean
