import Lethean.CryptonoteCore.MainChain
import Lethean.CryptonoteCore.PoolIndex

/-!
# Lethean.CryptonoteCore.RejectedBlock

What a block that `handle_block_to_main_chain` refuses leaves behind in the pool.
The transactions it names are taken out one by one. When a check fails they are
put back by `return_tx_to_pool`, which does not know the rows they came from: it
calls `add_tx` with fixed flags, and the clock goes on. A row comes back as it
was only if these are the values it had.
-/

namespace Lethean

variable {env : Env} {now : Nat}

/-! ### One transaction put back -/

namespace TxPool

/-- The row `add_tx(tx, tvc, true, true, false, version)` writes. -/
def rowPutBack (env : Env) (version now : Nat) (tx : Transaction) : Option PoolTx :=
  if tx.version ≠ 0 ∧ tx.checkInputsTypesSupported = true ∧
      env.checkTxOutputs version tx = true then
    (feeOf tx).map fun fee => ⟨tx, env.blobSize tx, fee, true, true, false, now⟩
  else none

/-- A row that comes back as it was: `add_tx` accepts the transaction, and the
row has the values that `return_tx_to_pool` gives it. -/
structure Returnable (env : Env) (version now : Nat) (ptx : PoolTx) : Prop where
  version_ne : ptx.tx.version ≠ 0
  supported : ptx.tx.checkInputsTypesSupported = true
  outputs : env.checkTxOutputs version ptx.tx = true
  fee : feeOf ptx.tx = some ptx.fee
  blobSize : ptx.blobSize = env.blobSize ptx.tx
  keptByBlock : ptx.keptByBlock = true
  relayed : ptx.relayed = true
  doNotRelay : ptx.doNotRelay = false
  receiveTime : ptx.receiveTime = now

theorem rowPutBack_eq_some_iff {version : Nat} {ptx : PoolTx} :
    rowPutBack env version now ptx.tx = some ptx ↔ Returnable env version now ptx := by
  rw [rowPutBack]
  constructor
  · intro h
    split_ifs at h with hpass
    obtain ⟨fee, hfee, hptx⟩ := Option.map_eq_some_iff.mp h
    rw [← hptx] at hfee ⊢
    exact ⟨hpass.1, hpass.2.1, hpass.2.2, hfee, rfl, rfl, rfl, rfl, rfl⟩
  · rintro ⟨hversion, hsupported, houtputs, hfee, hblob, hkept, hrelayed, hrelay, htime⟩
    rw [if_pos ⟨hversion, hsupported, houtputs⟩, hfee, ← hblob]
    cases ptx
    dsimp only at hkept hrelayed hrelay htime
    rw [hkept, hrelayed, hrelay, htime]
    rfl

/-- What putting a transaction back does to the table does not depend on the
chain: with `kept_by_block` the inputs check decides nothing. -/
theorem addTx_table (env : Env) (db : BlockchainDb) (version now : Nat) (pool : TxPool)
    (tx : Transaction) :
    (pool.addTx env db version now tx).2.table =
      match rowPutBack env version now tx with
      | none => pool.table
      | some ptx => pool.table.insert (env.transactionHash tx) ptx := by
  have hinsert : ∀ ptx, ((if inputsPass env db version now true tx = true then
        insertTx { pool with table := pool.table.erase (env.transactionHash tx) }
          (env.transactionHash tx) ptx
      else insertTx pool (env.transactionHash tx) ptx) : Bool × TxPool).2.table =
        pool.table.insert (env.transactionHash tx) ptx := by
    intro ptx
    split
    · rw [insertTx_table, insert_erase_table]
    · rw [insertTx_table]
  unfold addTx addTxWith rowPutBack
  by_cases hversion : tx.version = 0
  · simp [hversion]
  by_cases hsupported : tx.checkInputsTypesSupported = true
  · cases hfee : feeOf tx with
    | none => simp [hversion, hsupported]
    | some fee =>
      by_cases houtputs : env.checkTxOutputs version tx = true
      · simpa [hversion, hsupported, houtputs] using hinsert _
      · simp [hversion, hsupported, houtputs]
  · simp [hversion, hsupported]

theorem addTx_lookup_self (db : BlockchainDb) (version : Nat) {pool : TxPool} {tx : Transaction}
    (hgone : pool.table.lookup (env.transactionHash tx) = none) :
    (pool.addTx env db version now tx).2.table.lookup (env.transactionHash tx) =
      rowPutBack env version now tx := by
  rw [addTx_table]
  cases rowPutBack env version now tx with
  | none => exact hgone
  | some ptx => exact Finmap.lookup_insert _

theorem addTx_lookup_of_ne (db : BlockchainDb) (version : Nat) (pool : TxPool) {tx : Transaction}
    {i : Hash} (hne : i ≠ env.transactionHash tx) :
    (pool.addTx env db version now tx).2.table.lookup i = pool.table.lookup i := by
  rw [addTx_table]
  cases rowPutBack env version now tx with
  | none => rfl
  | some ptx => exact Finmap.lookup_insert_of_ne _ hne

/-- The transactions of some rows are put back: each row is then the one `add_tx`
writes, and no other row is touched. -/
theorem returnTxs_lookup (env : Env) (db : BlockchainDb) (version now : Nat)
    {rows : List (Hash × PoolTx)} (hfiled : ∀ r ∈ rows, env.transactionHash r.2.tx = r.1)
    (hnodup : (rows.map Prod.fst).Nodup) {pool : TxPool}
    (hgone : ∀ r ∈ rows, pool.table.lookup r.1 = none) :
    (∀ r ∈ rows, (pool.returnTxs env db version now (rows.map (·.2.tx))).table.lookup r.1 =
        rowPutBack env version now r.2.tx) ∧
      ∀ i, i ∉ rows.map Prod.fst →
        (pool.returnTxs env db version now (rows.map (·.2.tx))).table.lookup i =
          pool.table.lookup i := by
  induction rows generalizing pool with
  | nil => exact ⟨by simp, fun _ _ => rfl⟩
  | cons r rows ih =>
    obtain ⟨hhead, htail⟩ := List.nodup_cons.mp hnodup
    obtain ⟨hr, hfiled⟩ := List.forall_mem_cons.mp hfiled
    obtain ⟨hrgone, hgone⟩ := List.forall_mem_cons.mp hgone
    -- the first transaction leaves the rows of the others alone
    have hother : ∀ i, i ≠ r.1 → (pool.addTx env db version now r.2.tx).2.table.lookup i =
        pool.table.lookup i := by
      intro i hne
      rw [← hr] at hne
      exact addTx_lookup_of_ne db version pool hne
    have hgone' : ∀ r' ∈ rows,
        (pool.addTx env db version now r.2.tx).2.table.lookup r'.1 = none := by
      intro r' hr'
      rw [hother r'.1 fun heq => hhead (List.mem_map.mpr ⟨r', hr', heq⟩)]
      exact hgone r' hr'
    obtain ⟨hback, hrest⟩ := ih hfiled htail hgone'
    constructor
    · rw [List.forall_mem_cons]
      refine ⟨?_, hback⟩
      rw [List.map_cons, returnTxs, List.foldl_cons]
      refine (hrest r.1 hhead).trans ?_
      rw [← hr] at hrgone ⊢
      exact addTx_lookup_self db version hrgone
    · intro i hi
      rw [List.map_cons, List.mem_cons, not_or] at hi
      exact (hrest i hi.2).trans (hother i hi.1)

end TxPool

/-! ### The transactions a block takes out -/

namespace Blockchain

variable {bc : Blockchain} {bl : Block} {id : Hash}

/-- The checks before the transaction loop. -/
structure HeaderPasses (env : Env) (now : Nat) (bc : Blockchain) (bl : Block) (id : Hash) :
    Prop where
  prev : bl.prevId = bc.db.topBlockHash
  version : bc.hardfork.check bl.toBlockHeader = true
  timestamp : bc.checkBlockTimestamp now bl.toBlockHeader = true
  difficulty : (bc.getDifficultyForNextBlock env).1 ≠ 0
  pow : bc.powStep env bl id (bc.getDifficultyForNextBlock env).1 = true
  checkpoint : bc.checkpointStep id = true
  miner : prevalidateMinerTransaction bl bc.db.height = true

/-- The rows the ids of a block lead to, after the ids `seen`: up to the first id
that is in the chain, not in the pool or repeated, and not beyond the first
transaction with wrong inputs. -/
def takenRows (env : Env) (now : Nat) (bc : Blockchain) :
    List Hash → List Hash → Nat → List (Hash × PoolTx)
  | _, [], _ => []
  | seen, txId :: rest, txIndex =>
    if env.txExists bc.db txId ∨ txId ∈ seen ∨ bc.txPool.inSorted txId = false then []
    else
      match bc.txPool.table.lookup txId with
      | none => []
      | some ptx =>
        (txId, ptx) ::
          if bc.inputsOk env now txIndex txId ptx.tx then
            takenRows env now bc (txId :: seen) rest (txIndex + 1)
          else []

def loopEnd : Except (Bool × TxLoop) TxLoop → TxLoop
  | .ok s => s
  | .error (_, s) => s

/-- The pool in the loop: without the rows `seen`. -/
structure Without (pool : TxPool) (seen : List Hash) (pool' : TxPool) : Prop where
  gone : ∀ i ∈ seen, pool'.table.lookup i = none
  table : ∀ i ∉ seen, pool'.table.lookup i = pool.table.lookup i
  sorted : ∀ i ∉ seen, pool'.inSorted i = pool.inSorted i

theorem inSorted_eraseSorted {pool : TxPool} {i txId : Hash} (hne : i ≠ txId) :
    (pool.eraseSorted txId).inSorted i = pool.inSorted i := by
  unfold TxPool.inSorted TxPool.eraseSorted
  rw [Bool.eq_iff_iff]
  simp only [List.any_eq_true, decide_eq_true_eq]
  constructor
  · rintro ⟨e, he, rfl⟩
    exact ⟨e, List.mem_of_mem_eraseP he, rfl⟩
  · rintro ⟨e, he, rfl⟩
    exact ⟨e, (List.mem_eraseP_of_neg (by simpa using hne)).mpr he, rfl⟩

theorem Without.take {pool pool' pool'' : TxPool} {seen : List Hash} {txId : Hash} {ptx : PoolTx}
    (h : Without pool seen pool') (htake : pool'.takeTx txId = some (ptx, pool'')) :
    Without pool (txId :: seen) pool'' := by
  obtain ⟨-, rfl⟩ := TxPool.takeTx_eq htake
  obtain ⟨m, hm⟩ := TxPool.removeRow_frame pool' txId ptx
  rw [hm]
  refine ⟨?_, ?_, ?_⟩
  · intro i hi
    by_cases heq : i = txId
    · rw [heq]
      exact Finmap.lookup_erase _ _
    · refine (Finmap.lookup_erase_ne heq).trans ?_
      exact h.gone i ((List.mem_cons.mp hi).resolve_left heq)
  · intro i hi
    obtain ⟨hne, hi⟩ := not_or.mp (List.mem_cons.not.mp hi)
    exact (Finmap.lookup_erase_ne hne).trans (h.table i hi)
  · intro i hi
    obtain ⟨hne, hi⟩ := not_or.mp (List.mem_cons.not.mp hi)
    exact (inSorted_eraseSorted hne).trans (h.sorted i hi)

theorem Without.takeTx_none_iff {pool pool' : TxPool} {seen : List Hash} {txId : Hash}
    (h : Without pool seen pool') : pool'.takeTx txId = none ↔
      txId ∈ seen ∨ pool.inSorted txId = false ∨ pool.table.lookup txId = none := by
  unfold TxPool.takeTx
  by_cases hseen : txId ∈ seen
  · rw [h.gone txId hseen]
    simp [hseen]
  · rw [h.table txId hseen, h.sorted txId hseen]
    cases pool.inSorted txId with
    | false => simp
    | true => cases pool.table.lookup txId <;> simp [hseen]

/-- From `s` on, with the rows `seen` gone already, the loop has taken out `rows`
and come to `s'`. -/
structure Taken (bc : Blockchain) (seen : List Hash) (rows : List (Hash × PoolTx))
    (s s' : TxLoop) : Prop where
  txs : s'.txs = s.txs ++ rows.map (·.2.tx)
  nodup : (rows.map Prod.fst).Nodup
  fresh : ∀ r ∈ rows, r.1 ∉ seen
  lookup : ∀ r ∈ rows, bc.txPool.table.lookup r.1 = some r.2
  gone : ∀ i, i ∈ rows.map Prod.fst ∨ i ∈ seen → s'.pool.table.lookup i = none
  others : ∀ i, i ∉ rows.map Prod.fst → i ∉ seen →
    s'.pool.table.lookup i = bc.txPool.table.lookup i

theorem Without.taken_nil {seen : List Hash} {s : TxLoop} (h : Without bc.txPool seen s.pool) :
    Taken bc seen [] s s where
  txs := by simp
  nodup := List.nodup_nil
  fresh := by simp
  lookup := by simp
  gone := by simpa using h.gone
  others := by simpa using h.table

theorem Taken.cons {seen : List Hash} {txId : Hash} {ptx : PoolTx} {rows : List (Hash × PoolTx)}
    {s s1 s' : TxLoop} (h : Taken bc (txId :: seen) rows s1 s')
    (htxs : s1.txs = s.txs ++ [ptx.tx]) (hfresh : txId ∉ seen)
    (hrow : bc.txPool.table.lookup txId = some ptx) :
    Taken bc seen ((txId, ptx) :: rows) s s' where
  txs := by rw [h.txs, htxs, List.map_cons, List.append_assoc, List.singleton_append]
  nodup := by
    refine List.nodup_cons.mpr ⟨fun hmem => ?_, h.nodup⟩
    obtain ⟨r, hr, heq⟩ := List.mem_map.mp hmem
    exact h.fresh r hr (heq ▸ List.mem_cons_self)
  fresh := List.forall_mem_cons.mpr
    ⟨hfresh, fun r hr hmem => h.fresh r hr (List.mem_cons_of_mem _ hmem)⟩
  lookup := List.forall_mem_cons.mpr ⟨hrow, h.lookup⟩
  gone i hi := by
    apply h.gone
    rw [List.map_cons, List.mem_cons] at hi
    rw [List.mem_cons]
    tauto
  others i hi hseen := by
    rw [List.map_cons, List.mem_cons, not_or] at hi
    exact h.others i hi.2 fun hmem => (List.mem_cons.mp hmem).elim hi.1 hseen

/-- The loop takes out what `takenRows` says, whichever way it is left. -/
theorem takeTxs_taken (env : Env) (now : Nat) (bc : Blockchain) (ids : List Hash)
    (seen : List Hash) (s : TxLoop) (h : Without bc.txPool seen s.pool) :
    Taken bc seen (bc.takenRows env now seen ids s.txIndex) s
      (loopEnd (bc.takeTxs env now ids s)) := by
  induction ids generalizing seen s with
  | nil => exact h.taken_nil
  | cons txId rest ih =>
    rw [takeTxs, takenRows]
    by_cases hexists : env.txExists bc.db txId = true
    · rw [if_pos hexists, if_pos (.inl hexists)]
      exact h.taken_nil
    rw [if_neg hexists]
    cases htake : s.pool.takeTx txId with
    | none =>
      -- repeated, or not in the pool
      have hrows : bc.takenRows env now seen (txId :: rest) s.txIndex = [] := by
        rw [takenRows]
        rcases h.takeTx_none_iff.mp htake with hseen | hsorted | hnone
        · rw [if_pos (.inr (.inl hseen))]
        · rw [if_pos (.inr (.inr hsorted))]
        · rw [hnone, ite_self]
      rw [takenRows] at hrows
      rw [hrows]
      exact h.taken_nil
    | some taken =>
      obtain ⟨ptx, pool⟩ := taken
      have hsome : ¬(txId ∈ seen ∨ bc.txPool.inSorted txId = false ∨
          bc.txPool.table.lookup txId = none) := by
        rw [← h.takeTx_none_iff, htake]
        exact Option.some_ne_none _
      obtain ⟨hseen, hsorted, -⟩ : txId ∉ seen ∧ _ ∧ _ := by
        rwa [not_or, not_or] at hsome
      have hrow : bc.txPool.table.lookup txId = some ptx := by
        rw [← h.table txId hseen]
        exact (TxPool.takeTx_eq htake).1
      have hwithout := h.take htake
      rw [if_neg (not_or.mpr ⟨hexists, not_or.mpr ⟨hseen, hsorted⟩⟩), hrow]
      dsimp only
      by_cases hinputs : bc.inputsOk env now s.txIndex txId ptx.tx = true
      · rw [if_pos hinputs, if_pos hinputs]
        exact (ih (txId :: seen) ⟨pool, s.txs ++ [ptx.tx], _, _, s.txIndex + 1⟩
          hwithout).cons rfl hseen hrow
      · rw [if_neg hinputs, if_neg hinputs]
        exact (Without.taken_nil (s := ⟨pool, s.txs ++ [ptx.tx], _, _, s.txIndex⟩)
          hwithout).cons rfl hseen hrow

/-! ### The block -/

theorem storeStep_rejected {d : Nat} {s : TxLoop}
    (h : (bc.storeStep env now bl d s).1.ret = false) :
    (bc.storeStep env now bl d s).2.txPool =
      s.pool.returnTxs env bc.db bc.currentVersion now s.txs := by
  unfold storeStep at h ⊢
  dsimp only at h ⊢
  split at h
  · rfl
  · split at h
    · rfl
    · rfl
    · cases h

/-- A block refused in or after the loop: what was taken out is put back. -/
theorem connectBlock_rejected {d : Nat} (h : (bc.connectBlock env now bl id d).1.ret = false) :
    (bc.connectBlock env now bl id d).2.txPool =
      (loopEnd (bc.takeTxs env now bl.txHashes
        ⟨bc.txPool, [], 0, env.blobSize bl.minerTx, 0⟩)).pool.returnTxs env bc.db
        bc.currentVersion now
        (loopEnd (bc.takeTxs env now bl.txHashes
          ⟨bc.txPool, [], 0, env.blobSize bl.minerTx, 0⟩)).txs := by
  unfold connectBlock at h ⊢
  cases hloop : bc.takeTxs env now bl.txHashes ⟨bc.txPool, [], 0, env.blobSize bl.minerTx, 0⟩ with
  | ok s =>
    rw [hloop] at h
    exact storeStep_rejected h
  | error e =>
    obtain ⟨asInvalid, s⟩ := e
    have hsame : SameChain bc (if asInvalid then bc.addBlockAsInvalid ⟨bl, 0, 0⟩ id else bc) := by
      split
      · exact addInvalid_sameChain _ _ _
      · exact .refl bc
    show s.pool.returnTxs env _ _ now s.txs = s.pool.returnTxs env _ _ now s.txs
    rw [hsame.db, hsame.currentVersion]

/-- A block whose header passes goes on to its transactions; any other leaves the
pool alone. -/
theorem mainChain_header (env : Env) (now : Nat) (bc : Blockchain) (bl : Block) (id : Hash) :
    (HeaderPasses env now bc bl id ∧ bc.handleBlockToMainChain env now bl id =
      (bc.getDifficultyForNextBlock env).2.connectBlock env now bl id
        (bc.getDifficultyForNextBlock env).1) ∨
    (¬HeaderPasses env now bc bl id ∧
      (bc.handleBlockToMainChain env now bl id).2.txPool = bc.txPool) := by
  have hsame := askDifficulty_sameChain env bc
  have hpool := askDifficulty_txPool env bc
  unfold handleBlockToMainChain
  dsimp only
  rw [hsame.powStep, hsame.checkpointStep, hsame.db]
  by_cases h : HeaderPasses env now bc bl id
  · refine .inl ⟨h, ?_⟩
    rw [if_neg (not_not.mpr h.prev), if_neg (by simp [h.version]), if_neg (by simp [h.timestamp]),
      if_neg h.difficulty, if_neg (by simp [h.pow]), if_neg (by simp [h.checkpoint]),
      if_neg (by simp [h.miner])]
  · refine .inr ⟨h, ?_⟩
    split_ifs with hprev hversion htimestamp hdifficulty hpow hcheckpoint hminer
    any_goals first | rfl | exact hpool
    rw [Bool.not_eq_false] at hversion htimestamp hpow hcheckpoint hminer
    exact absurd ⟨not_not.mp hprev, hversion, htimestamp, hdifficulty, hpow, hcheckpoint, hminer⟩ h

/-- The pool after the rows of a block were taken out and put back. -/
theorem Taken.returnTxs_eq_iff {rows : List (Hash × PoolTx)} {s s' : TxLoop}
    (h : Taken bc [] rows s s') (htxs : s.txs = []) (hfiled : bc.txPool.Filed env)
    (db : BlockchainDb) (version : Nat) :
    (s'.pool.returnTxs env db version now s'.txs).table = bc.txPool.table ↔
      ∀ r ∈ rows, TxPool.Returnable env version now r.2 := by
  have hgone : ∀ r ∈ rows, s'.pool.table.lookup r.1 = none :=
    fun r hr => h.gone r.1 (.inl (List.mem_map_of_mem hr))
  obtain ⟨hback, hothers⟩ := TxPool.returnTxs_lookup env db version now
    (fun r hr => hfiled r.1 r.2 (h.lookup r hr)) h.nodup hgone
  rw [h.txs, htxs, List.nil_append]
  constructor
  · intro htable r hr
    rw [← TxPool.rowPutBack_eq_some_iff, ← hback r hr, htable, h.lookup r hr]
  · intro hreturn
    apply Finmap.ext_lookup
    intro i
    by_cases hi : i ∈ rows.map Prod.fst
    · obtain ⟨r, hr, rfl⟩ := List.mem_map.mp hi
      rw [hback r hr, h.lookup r hr, TxPool.rowPutBack_eq_some_iff.mpr (hreturn r hr)]
    · rw [hothers i hi, h.others i hi List.not_mem_nil]

theorem takenRows_congr {bc' : Blockchain} (hdb : bc'.db = bc.db) (hpool : bc'.txPool = bc.txPool)
    (hinputs : bc'.inputsOk env now = bc.inputsOk env now) :
    ∀ seen ids txIndex, bc'.takenRows env now seen ids txIndex =
      bc.takenRows env now seen ids txIndex := by
  intro seen ids
  induction ids generalizing seen with
  | nil => exact fun _ => rfl
  | cons txId rest ih =>
    intro txIndex
    simp only [takenRows, hdb, hpool, hinputs, ih]

/-- **A refused block leaves the pool table as it was**, exactly when every row it
took out had the values that putting it back gives it. -/
theorem rejected_block_keeps_pool_iff {env : Env} {now : Nat} {bc : Blockchain} {bl : Block}
    {id : Hash} (hfiled : bc.txPool.Filed env)
    (hrejected : (bc.handleBlockToMainChain env now bl id).1.ret = false) :
    (bc.handleBlockToMainChain env now bl id).2.txPool.table = bc.txPool.table ↔
      (HeaderPasses env now bc bl id →
        ∀ r ∈ bc.takenRows env now [] bl.txHashes 0,
          TxPool.Returnable env bc.currentVersion now r.2) := by
  rcases mainChain_header env now bc bl id with ⟨hheader, heq⟩ | ⟨hheader, hpool⟩
  · have hsame := askDifficulty_sameChain env bc
    have hpool := askDifficulty_txPool env bc
    have hinputs : (bc.getDifficultyForNextBlock env).2.inputsOk env now =
        bc.inputsOk env now := by
      funext txIndex txId tx
      unfold inputsOk fastCheck
      rw [hsame.db, hsame.currentVersion, askDifficulty_blocksTxsCheck]
    rw [heq] at hrejected ⊢
    have htaken := takeTxs_taken env now (bc.getDifficultyForNextBlock env).2 bl.txHashes
      [] ⟨_, [], 0, env.blobSize bl.minerTx, 0⟩ ⟨by simp, fun _ _ => rfl, fun _ _ => rfl⟩
    rw [connectBlock_rejected hrejected, ← hpool,
      htaken.returnTxs_eq_iff rfl (by rwa [hpool]), takenRows_congr hsame.db hpool hinputs,
      hsame.currentVersion]
    exact ⟨fun h _ => h, fun h => h hheader⟩
  · rw [hpool]
    exact iff_of_true rfl fun h => absurd h hheader

def nodeWithTx (receiveTime : Nat) (keptByBlock : Bool) : Blockchain :=
  { startEmpty plainTable with
    txPool :=
      (TxPool.sampleAdd receiveTime keptByBlock (TxPool.sampleTx 1 [nullBlob 32]) .empty).2 }

def halfKnownBlock : Block :=
  { sampleBlock 1 0 0 0 0 with txHashes := [numberedHash 1, numberedHash 2] }

theorem filed_nodeWithTx (receiveTime : Nat) (keptByBlock : Bool) :
    (nodeWithTx receiveTime keptByBlock).txPool.Filed TxPool.sampleEnv :=
  (TxPool.Reachable.empty.sampleAdd receiveTime keptByBlock (TxPool.sampleTx 1 [nullBlob 32])
    ⟨List.cons_ne_nil _ _, List.nodup_singleton _⟩
    (TxPool.sameInputs_empty _) : TxPool.Reachable _ TxPool.Spendable _ _).filed

/-- A transaction that came from a block this very second is put back as it was. -/
theorem rejected_block_keeps_recent_tx :
    ((nodeWithTx 100 true).handleBlockToMainChain TxPool.sampleEnv 100 halfKnownBlock
      (numberedHash 7)).2.txPool.table = (nodeWithTx 100 true).txPool.table := by
  refine (rejected_block_keeps_pool_iff (filed_nodeWithTx 100 true) (by decide +kernel)).mpr
    fun _ r hr => ?_
  have hrows : (nodeWithTx 100 true).takenRows TxPool.sampleEnv 100 [] halfKnownBlock.txHashes 0 =
      [(numberedHash 1, ⟨TxPool.sampleTx 1 [nullBlob 32], 0, 0, true, true, false, 100⟩)] := by
    decide +kernel
  rw [hrows, List.mem_singleton] at hr
  subst hr
  exact ⟨by decide, by decide, by decide, by decide, rfl, rfl, rfl, rfl, rfl⟩

/-- A transaction received at time 5 from the network is in the pool as one that
came from a block at time 100. -/
theorem rejected_block_changes_row :
    ((nodeWithTx 5 false).handleBlockToMainChain TxPool.sampleEnv 100 halfKnownBlock
        (numberedHash 7)).1.ret = false ∧
      (nodeWithTx 5 false).txPool.table.lookup (numberedHash 1) =
        some ⟨TxPool.sampleTx 1 [nullBlob 32], 0, 0, false, true, false, 5⟩ ∧
      ((nodeWithTx 5 false).handleBlockToMainChain TxPool.sampleEnv 100 halfKnownBlock
        (numberedHash 7)).2.txPool.table.lookup (numberedHash 1) =
          some ⟨TxPool.sampleTx 1 [nullBlob 32], 0, 0, true, true, false, 100⟩ := by
  decide +kernel

end Blockchain

end Lethean
