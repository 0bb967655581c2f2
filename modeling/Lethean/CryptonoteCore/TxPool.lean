import Lethean.BlockchainDb.Interface
import Lethean.CryptonoteBasic.BasicImpl
import Lethean.Lib.Inverted

/-!
# Lethean.CryptonoteCore.TxPool

What the core rests on, and `tx_memory_pool`: how transactions enter the pool
and leave it, and how it is rebuilt from the database when the node starts.

`Env` collects the functions whose code is not embedded here. Hashing and
proof of work have their own module; the input checks (ring signatures against
the outputs of the chain) and the storage exceptions are arbitrary functions of
the state they read. Nothing in this development depends on which they are.

The pool keeps one transaction in three places: the table in the database, the
container sorted by fee, and the sets of pool transactions by key image. The
source can leave them out of step, so they stay separate here. The table stores
the serialized transaction; here it stores the transaction. The order in which
the rows of the table are met, and that in which a hash set of ids is walked, are
arguments.
-/

namespace Lethean

/-- Exceptions of `BlockchainDB::add_block` that `handle_block_to_main_chain`
tells apart. -/
inductive DbError
  | keyImageExists
  | other
  deriving DecidableEq

structure Env where
  /-- `get_block_hash` -/
  blockHash : Block → Hash
  /-- `get_transaction_hash` -/
  transactionHash : Transaction → Hash
  /-- `get_object_blobsize` -/
  blobSize : Transaction → Nat
  /-- `check_proof_of_work(block, difficulty, height)` -/
  checkProofOfWork : Block → Nat → Nat → Bool
  /-- The version 4 rule of `next_difficulty` -/
  lwmaV4 : List Nat → List Nat → Nat
  /-- `crypto::check_key` -/
  checkKey : PublicKey → Bool
  /-- `check_tx_inputs`: on a database, at a hard-fork version and a clock value -/
  checkTxInputs : BlockchainDb → Nat → Nat → Transaction → Bool
  /-- `check_fee`: on a database, at a hard-fork version, of a blob size and a fee -/
  checkFee : BlockchainDb → Nat → Nat → Nat → Bool
  /-- What `add_block` throws, if it does -/
  addBlockError : BlockchainDb → Block → List Transaction → Option DbError
  /-- `m_blocks_hash_check`: the compiled-in ids -/
  blocksHashCheck : List Hash

/-- An environment for examples: blocks are identified by their nonce, and
every check that is a parameter passes. -/
def Env.permissive : Env :=
  { blockHash := fun b => numberedHash b.nonce
    transactionHash := fun _ => nullHash
    blobSize := fun _ => 0
    checkProofOfWork := fun _ _ _ => true
    lwmaV4 := fun _ _ => 1
    checkKey := fun _ => true
    checkTxInputs := fun _ _ _ _ => true
    checkFee := fun _ _ _ _ => true
    addBlockError := fun _ _ _ => none
    blocksHashCheck := [] }

def Env.txExists (env : Env) (db : BlockchainDb) (id : Hash) : Bool :=
  db.chain.any fun b => id ∈ b.blk.txHashes ∨ env.transactionHash b.blk.minerTx = id

/-- `check_tx_outputs`, at the current hard-fork version. -/
def Env.checkTxOutputs (env : Env) (version : Nat) (tx : Transaction) : Bool :=
  version < 4 ||
    ((tx.version < 2 || tx.vout.all fun o => o.amount = 0) &&
      tx.vout.all fun o =>
        match o.target with
        | .toKey key => env.checkKey key
        | _ => true)

/-- A row of the pool table: the transaction and the fields of `txpool_tx_meta_t`
that are read here. -/
structure PoolTx where
  tx : Transaction
  blobSize : Nat
  fee : Nat
  keptByBlock : Bool
  relayed : Bool
  doNotRelay : Bool
  receiveTime : Nat
  deriving DecidableEq

/-- An entry of `m_txs_by_fee_and_receive_time`. The order of the container is
that of a quotient of doubles; no function here depends on it. -/
structure SortedEntry where
  fee : Nat
  blobSize : Nat
  receiveTime : Nat
  id : Hash
  deriving DecidableEq

/-- `class tx_memory_pool`. -/
structure TxPool where
  /-- `txpool_meta` and `txpool_blob` -/
  table : Finmap fun _ : Hash => PoolTx
  /-- `m_txs_by_fee_and_receive_time` -/
  sorted : List SortedEntry
  /-- `m_spent_key_images` -/
  spentKeyImages : Finmap fun _ : KeyImage => Finset Hash
  /-- `m_timed_out_transactions` -/
  timedOut : Finset Hash := ∅

/-- What `add_tx` is told about a transaction. -/
structure AddTxArgs where
  blobSize : Nat
  keptByBlock : Bool
  relayed : Bool
  doNotRelay : Bool

namespace TxPool

def empty : TxPool := ⟨∅, [], ∅, ∅⟩

/-! ### The containers -/

/-- `find_tx_in_sorted_container` finds an entry. -/
def inSorted (pool : TxPool) (id : Hash) : Bool := pool.sorted.any (·.id = id)

/-- The entry `find_tx_in_sorted_container` finds, if any, is erased. -/
def eraseSorted (pool : TxPool) (id : Hash) : TxPool :=
  { pool with sorted := pool.sorted.eraseP (·.id = id) }

/-- The set `m_spent_key_images[k]`. -/
def idsOf (pool : TxPool) (k : KeyImage) : Finset Hash := Inverted.ids pool.spentKeyImages k

/-- `have_tx_keyimges_as_spent`: an image counts as spent when the map has an
entry for it. -/
def haveTxKeyimgesAsSpent (pool : TxPool) (tx : Transaction) : Bool :=
  tx.vin.any fun i => i.keyImage?.all (· ∈ pool.spentKeyImages)

/-- `insert_key_images`: stops at the first image under which the id is already
registered or, unless `kept_by_block`, under which there is any id. -/
def insertKeyImages (keptByBlock : Bool) (id : Hash) : List TxIn → TxPool → Bool × TxPool
  | [], pool => (true, pool)
  | i :: rest, pool =>
    match i.keyImage? with
    | none => (false, pool)
    | some k =>
      if keptByBlock = false ∧ pool.idsOf k ≠ ∅ then (false, pool)
      else if id ∈ pool.idsOf k then (false, pool)
      else insertKeyImages keptByBlock id rest
        { pool with spentKeyImages := Inverted.add pool.spentKeyImages k id }

/-- `remove_transaction_keyimages`: returns early on the first image that is
not registered for the id. -/
def removeTransactionKeyimages (id : Hash) : List TxIn → TxPool → Bool × TxPool
  | [], pool => (true, pool)
  | i :: rest, pool =>
    match i.keyImage? with
    | none => (false, pool)
    | some k =>
      if id ∈ pool.idsOf k then
        removeTransactionKeyimages id rest
          { pool with spentKeyImages := Inverted.remove pool.spentKeyImages k id }
      else (false, pool)

/-- `remove_txpool_tx` and `remove_transaction_keyimages`, as every removal
calls them. -/
def removeRow (pool : TxPool) (id : Hash) (ptx : PoolTx) : TxPool :=
  (removeTransactionKeyimages id ptx.tx.vin { pool with table := pool.table.erase id }).2

/-! ### Taking a transaction out -/

def takeTx (pool : TxPool) (id : Hash) : Option (PoolTx × TxPool) :=
  if pool.inSorted id then
    match pool.table.lookup id with
    | none => none
    | some ptx => some (ptx, (pool.removeRow id ptx).eraseSorted id)
  else none

/-! ### Adding a transaction -/

/-- The fee `add_tx` computes; `none` when a version 1 transaction has a wrong
input or spends more than it has. -/
def feeOf (tx : Transaction) : Option Nat :=
  if tx.version = 1 then
    match tx.getInputsMoneyAmount with
    | none => none
    | some inputs =>
      if inputs < tx.getOutsMoneyAmount then none
      else some (inputs - tx.getOutsMoneyAmount)
  else some tx.rctSignatures.txnFee

/-- `add_txpool_tx` and what `add_tx` does after it: the table row, the key
images, and the sorted container if all images were new. The table is not opened
for duplicates, where `MDB_NODUPDATA` means nothing to LMDB: a row of the same id
is overwritten. -/
def insertTx (pool : TxPool) (id : Hash) (ptx : PoolTx) : Bool × TxPool :=
  match insertKeyImages ptx.keptByBlock id ptx.tx.vin
      { pool with table := pool.table.insert id ptx } with
  | (false, pool) => (false, pool)
  | (true, pool) =>
    (true,
      { pool with sorted := pool.sorted.insert ⟨ptx.fee, ptx.blobSize, ptx.receiveTime, id⟩ })

def getTransactionSizeLimit (version : Nat) : Nat := getMinBlockSize version * 125 / 100 - 600

/-- `check_tx_inputs` as `add_tx` calls it: a transaction of a block in the
compiled-in hash area passes. -/
def inputsPass (env : Env) (db : BlockchainDb) (version now : Nat) (keptByBlock : Bool)
    (tx : Transaction) : Bool :=
  (db.height < env.blocksHashCheck.length && keptByBlock) || env.checkTxInputs db version now tx

/-- `add_tx(tx, id, blob_size, tvc, kept_by_block, relayed, do_not_relay, version)`,
with the id of the transaction and the version of the chain. -/
def addTxWith (env : Env) (db : BlockchainDb) (version now : Nat) (args : AddTxArgs)
    (pool : TxPool) (tx : Transaction) : Bool × TxPool :=
  let id := env.transactionHash tx
  if tx.version = 0 then (false, pool)
  else if args.keptByBlock = false ∧ id ∈ pool.timedOut then (false, pool)
  else if tx.checkInputsTypesSupported = false then (false, pool)
  else
    match feeOf tx with
    | none => (false, pool)
    | some fee =>
      if args.keptByBlock = false ∧ env.checkFee db version args.blobSize fee = false then
        (false, pool)
      else if args.keptByBlock = false ∧ getTransactionSizeLimit version ≤ args.blobSize then
        (false, pool)
      else if args.keptByBlock = false ∧ pool.haveTxKeyimgesAsSpent tx then (false, pool)
      else if env.checkTxOutputs version tx = false then (false, pool)
      else
        let ptx : PoolTx :=
          ⟨tx, args.blobSize, fee, args.keptByBlock, args.relayed, args.doNotRelay, now⟩
        if inputsPass env db version now args.keptByBlock tx then
          insertTx { pool with table := pool.table.erase id } id ptx
        -- a transaction that was in a block may become valid again
        else if args.keptByBlock then insertTx pool id ptx
        else (false, pool)

/-- `add_tx(tx, tvc, true, true, false, version)`, the call of `Blockchain`. -/
def addTx (env : Env) (db : BlockchainDb) (version now : Nat) (pool : TxPool) (tx : Transaction) :
    Bool × TxPool :=
  addTxWith env db version now ⟨env.blobSize tx, true, true, false⟩ pool tx

/-- `return_tx_to_pool`, and the loop of `pop_block_from_blockchain`. -/
def returnTxs (env : Env) (db : BlockchainDb) (version now : Nat) (txs : List Transaction)
    (pool : TxPool) : TxPool :=
  txs.foldl (fun pool tx => (pool.addTx env db version now tx).2) pool

/-! ### Clearing out -/

/-- `CRYPTONOTE_MEMPOOL_TX_LIVETIME`. -/
def mempoolTxLivetime : Nat := 86400
/-- `CRYPTONOTE_MEMPOOL_TX_FROM_ALT_BLOCK_LIVETIME`. -/
def mempoolTxFromAltBlockLivetime : Nat := 604800

/-- The rows `remove_stuck_transactions` looks for. -/
def stuck (now : Nat) (ptx : PoolTx) : Bool :=
  let txAge := subU64 now ptx.receiveTime
  (mempoolTxLivetime < txAge && !ptx.keptByBlock) ||
    (mempoolTxFromAltBlockLivetime < txAge && ptx.keptByBlock)

/-- The rows `validate` looks for: too big, or in the chain. -/
def invalid (env : Env) (db : BlockchainDb) (version : Nat) (id : Hash) (ptx : PoolTx) : Bool :=
  getTransactionSizeLimit version ≤ ptx.blobSize || env.txExists db id

/-- The ids of the rows with a property, as `for_all_txpool_txes` meets them. -/
def select (pool : TxPool) (order : List Hash) (p : Hash → PoolTx → Bool) : List Hash :=
  order.filter fun id => (pool.table.lookup id).any (p id)

def removeId (pool : TxPool) (id : Hash) : TxPool :=
  match pool.table.lookup id with
  | none => pool
  | some ptx => pool.removeRow id ptx

/-- `remove_stuck_transactions`: the first loop erases from the sorted container
the ids it collects, the second goes through the hash set of them. -/
def removeStuckTransactions (now : Nat) (order : List Hash) (walk : List Hash → List Hash)
    (pool : TxPool) : TxPool :=
  let remove := pool.select order fun _ => stuck now
  let pool := remove.foldl
    (fun pool id => { pool.eraseSorted id with timedOut := insert id pool.timedOut }) pool
  (walk remove).foldl removeId pool

/-- `validate`: how many rows were removed, and the pool without them. -/
def validate (env : Env) (db : BlockchainDb) (version : Nat) (order : List Hash)
    (walk : List Hash → List Hash) (pool : TxPool) : Nat × TxPool :=
  (walk (pool.select order (invalid env db version))).foldl
    (fun s id => if id ∈ s.2.table then (s.1 + 1, (s.2.removeId id).eraseSorted id) else s)
    (0, pool)

/-! ### Starting -/

/-- The loop of `init`, over the rows not met yet. -/
def initLoop (env : Env) (pool : TxPool) : List Hash → TxPool → Bool × TxPool
  | [], loaded => (true, loaded)
  | id :: rest, loaded =>
    match pool.table.lookup id with
    | none => initLoop env pool rest loaded
    | some ptx =>
      match insertKeyImages ptx.keptByBlock (env.transactionHash ptx.tx) ptx.tx.vin loaded with
      | (false, loaded) => (false, loaded)
      | (true, loaded) =>
        initLoop env pool rest
          { loaded with
            sorted := loaded.sorted.insert ⟨ptx.fee, ptx.blobSize, ptx.receiveTime, id⟩ }

/-- `init`, on the rows in the order `for_all_txpool_txes` meets them. -/
def init (env : Env) (order : List Hash) (pool : TxPool) : Bool × TxPool :=
  initLoop env pool order { pool with sorted := [], spentKeyImages := ∅ }

/-! ### The order of the sorted container -/

/-- `tx_by_fee_and_receive_time_entry`. Finite doubles are ordered linearly. -/
structure FeeTimeEntry (Rate : Type) where
  rate : Rate
  receiveTime : Int
  id : Hash
  deriving DecidableEq

variable {Rate : Type} [LinearOrder Rate]

def txCompare (a b : FeeTimeEntry Rate) : Bool :=
  if b.rate < a.rate then true
  else if a.rate < b.rate then false
  else if a.receiveTime < b.receiveTime then true
  else if b.receiveTime < a.receiveTime then false
  else a.id ≠ b.id

/-- What `std::set` asks of the order of its elements, and what follows: there is only one
way to list the elements. -/
structure LegalOrder {α : Type} (lt : α → α → Bool) (S : Set α) : Prop where
  irrefl : ∀ a ∈ S, lt a a = false
  asymm : ∀ a ∈ S, ∀ b ∈ S, lt a b = true → lt b a = false
  trans : ∀ a ∈ S, ∀ b ∈ S, ∀ c ∈ S, lt a b = true → lt b c = true → lt a c = true
  eq_of_incomparable : ∀ a ∈ S, ∀ b ∈ S, lt a b = false → lt b a = false → a = b
  listed_once : ∀ l l' : List α, (∀ a ∈ l, a ∈ S) → l.Perm l' → l.Pairwise (lt · · = true) →
    l'.Pairwise (lt · · = true) → l = l'

theorem txCompare_iff {a b : FeeTimeEntry Rate} : txCompare a b = true ↔ b.rate < a.rate ∨
    a.rate = b.rate ∧
      (a.receiveTime < b.receiveTime ∨ a.receiveTime = b.receiveTime ∧ a.id ≠ b.id) := by
  unfold txCompare
  grind

/-- **The pool order is legal** exactly for entries of which no two have the same rate and
time. -/
theorem pool_order_legal_iff (S : Set (FeeTimeEntry Rate)) :
    LegalOrder txCompare S ↔
      ∀ a ∈ S, ∀ b ∈ S, a.rate = b.rate → a.receiveTime = b.receiveTime → a = b := by
  constructor
  · intro h a ha b hb hrate htime
    by_contra hne
    have hid : a.id ≠ b.id := fun hid => hne (by cases a; cases b; simp_all)
    have hab : txCompare a b = true := txCompare_iff.mpr (.inr ⟨hrate, .inr ⟨htime, hid⟩⟩)
    have hba : txCompare b a = true :=
      txCompare_iff.mpr (.inr ⟨hrate.symm, .inr ⟨htime.symm, hid.symm⟩⟩)
    rw [h.asymm a ha b hb hab] at hba
    cases hba
  · intro h
    have hlt : ∀ a ∈ S, ∀ b ∈ S, txCompare a b = true ↔ b.rate < a.rate ∨
        a.rate = b.rate ∧ a.receiveTime < b.receiveTime := by
      intro a ha b hb
      have := h a ha b hb
      rw [txCompare_iff]
      grind
    have hasymm : ∀ a ∈ S, ∀ b ∈ S, txCompare a b = true → txCompare b a = false := by
      intro a ha b hb hab
      rw [hlt a ha b hb] at hab
      rw [← Bool.not_eq_true, hlt b hb a ha]
      grind
    refine ⟨fun a ha => ?_, hasymm, fun a ha b hb c hc hab hbc => ?_, fun a ha b hb hab hba => ?_,
      fun l l' hS hperm hl hl' => ?_⟩
    · rw [← Bool.not_eq_true, hlt a ha a ha]
      grind
    · rw [hlt a ha b hb] at hab
      rw [hlt b hb c hc] at hbc
      rw [hlt a ha c hc]
      grind
    · rw [← Bool.not_eq_true, hlt a ha b hb] at hab
      rw [← Bool.not_eq_true, hlt b hb a ha] at hba
      exact h a ha b hb (by grind) (by grind)
    · refine hperm.eq_of_pairwise (fun a b ha hb hab hba => ?_) hl hl'
      rw [hasymm a (hS a ha) b (hS b (hperm.mem_iff.mpr hb)) hab] at hba
      cases hba

/-- Two transactions of one rate that arrive in the same second are each before the other. -/
theorem txCompare_both_ways :
    txCompare (⟨1, 0, numberedHash 1⟩ : FeeTimeEntry ℚ) ⟨1, 0, numberedHash 2⟩ = true ∧
      txCompare (⟨1, 0, numberedHash 2⟩ : FeeTimeEntry ℚ) ⟨1, 0, numberedHash 1⟩ = true := by
  constructor <;> exact txCompare_iff.mpr (by decide)

end TxPool

end Lethean
