import Lethean.CryptonoteCore.Reorganize

/-!
# Lethean.CryptonoteCore.MainChain

What `handle_block_to_main_chain` and `pop_block_from_blockchain` do, said once:
a block is either refused, and then the chain, the hard-fork object and the
alternative blocks stay as they were (`SameChain`), or it passes every check
(`Accepted`) and is stored on top. Later modules use these lemmas and never
unfold the handlers.
-/

namespace Lethean

namespace Blockchain

variable {env : Env} {now : Nat} {bc bc' : Blockchain} {bl : Block} {id : Hash}

/-! ### Refused blocks -/

/-- Everything but the cache, the pool and the invalid blocks is the same, and
no invalid block was forgotten. -/
structure SameChain (bc bc' : Blockchain) : Prop where
  db : bc'.db = bc.db
  hardfork : bc'.hardfork = bc.hardfork
  alternativeChains : bc'.alternativeChains = bc.alternativeChains
  checkpoints : bc'.checkpoints = bc.checkpoints
  blocksLonghashTable : bc'.blocksLonghashTable = bc.blocksLonghashTable
  invalidBlocks : ∀ i, i ∈ bc.invalidBlocks → i ∈ bc'.invalidBlocks

theorem SameChain.refl (bc : Blockchain) : SameChain bc bc :=
  ⟨rfl, rfl, rfl, rfl, rfl, fun _ h => h⟩

theorem SameChain.trans {bc1 bc2 bc3 : Blockchain} (h : SameChain bc1 bc2)
    (h' : SameChain bc2 bc3) : SameChain bc1 bc3 :=
  ⟨h'.db.trans h.db, h'.hardfork.trans h.hardfork,
    h'.alternativeChains.trans h.alternativeChains, h'.checkpoints.trans h.checkpoints,
    h'.blocksLonghashTable.trans h.blocksLonghashTable,
    fun i hi => h'.invalidBlocks i (h.invalidBlocks i hi)⟩

theorem refreshCache_sameChain (bc : Blockchain) : SameChain bc bc.refreshCache := by
  unfold refreshCache
  split <;> exact ⟨rfl, rfl, rfl, rfl, rfl, fun _ h => h⟩

theorem askDifficulty_sameChain (env : Env) (bc : Blockchain) :
    SameChain bc (bc.getDifficultyForNextBlock env).2 :=
  (refreshCache_sameChain bc).trans ⟨rfl, rfl, rfl, rfl, rfl, fun _ h => h⟩

theorem askDifficulty_txPool (env : Env) (bc : Blockchain) :
    (bc.getDifficultyForNextBlock env).2.txPool = bc.txPool := by
  unfold getDifficultyForNextBlock refreshCache
  split <;> rfl

theorem askDifficulty_blocksTxsCheck (env : Env) (bc : Blockchain) :
    (bc.getDifficultyForNextBlock env).2.blocksTxsCheck = bc.blocksTxsCheck := by
  unfold getDifficultyForNextBlock refreshCache
  split <;> rfl

theorem addInvalid_sameChain (bc : Blockchain) (bei : BlockExtendedInfo) (id : Hash) :
    SameChain bc (bc.addBlockAsInvalid bei id) := by
  unfold addBlockAsInvalid
  split
  · exact .refl bc
  · exact ⟨rfl, rfl, rfl, rfl, rfl, fun i hi => Finmap.mem_insert.mpr (Or.inr hi)⟩

theorem returnTx_sameChain (bc : Blockchain) (txs : List Transaction) (pool : TxPool) :
    SameChain bc (bc.returnTxToPool env now txs pool) :=
  ⟨rfl, rfl, rfl, rfl, rfl, fun _ h => h⟩

/-! ### Accepted blocks -/

/-- The transaction loop depends on the state only through the storage, the
version and the compiled-in ids. -/
theorem takeTxs_congr (hdb : bc'.db = bc.db) (hv : bc'.currentVersion = bc.currentVersion)
    (htx : bc'.blocksTxsCheck = bc.blocksTxsCheck) :
    ∀ (ids : List Hash) (s : TxLoop), bc'.takeTxs env now ids s = bc.takeTxs env now ids s
  | [], _ => rfl
  | txId :: rest, s => by
    have hin : bc'.inputsOk env now = bc.inputsOk env now := by
      funext i txId tx
      unfold inputsOk fastCheck
      rw [hdb, hv, htx]
    simp only [takeTxs, hdb, hin, takeTxs_congr hdb hv htx rest]

theorem SameChain.currentVersion (h : SameChain bc bc') : bc'.currentVersion = bc.currentVersion := by
  rw [Blockchain.currentVersion, h.hardfork]
  rfl

theorem SameChain.powStep (h : SameChain bc bc') (env : Env) (bl : Block) (id : Hash) (d : Nat) :
    bc'.powStep env bl id d = bc.powStep env bl id d := by
  unfold Blockchain.powStep fastCheck
  rw [h.db, h.blocksLonghashTable]

theorem SameChain.checkpointStep (h : SameChain bc bc') (id : Hash) :
    bc'.checkpointStep id = bc.checkpointStep id := by
  unfold Blockchain.checkpointStep
  rw [h.db, h.checkpoints]

def recordOf (env : Env) (db : BlockchainDb) (bl : Block) (difficulty baseReward : Nat)
    (s : TxLoop) : StoredBlock :=
  { blk := bl
    hash := env.blockHash bl
    size := s.cumulativeBlockSize
    cumulativeDifficulty := u64 (difficulty + topCumulativeDifficulty db)
    coins := coinsAfter (topCoins db) baseReward
    txs := s.txs }

/-- A block that passes every check of `handle_block_to_main_chain`: what the
transaction loop ends with, and the record that is stored. -/
structure Accepted (env : Env) (now : Nat) (bc : Blockchain) (bl : Block) (id : Hash)
    (s : TxLoop) (record : StoredBlock) : Prop where
  prev : bl.prevId = bc.db.topBlockHash
  version : bc.hardfork.check bl.toBlockHeader = true
  timestamp : bc.checkBlockTimestamp now bl.toBlockHeader = true
  difficulty : (bc.getDifficultyForNextBlock env).1 ≠ 0
  pow : bc.powStep env bl id (bc.getDifficultyForNextBlock env).1 = true
  checkpoint : bc.checkpointStep id = true
  miner : prevalidateMinerTransaction bl bc.db.height = true
  txs : bc.takeTxs env now bl.txHashes ⟨bc.txPool, [], 0, env.blobSize bl.minerTx, 0⟩ = .ok s
  stored : env.addBlockError bc.db bl s.txs = none
  record_eq : ∃ baseReward partialReward,
    validateMinerTransaction bc.db.chain bl s.cumulativeBlockSize s.feeSummary (topCoins bc.db)
      bc.currentVersion = some (baseReward, partialReward) ∧
    record = recordOf env bc.db bl (bc.getDifficultyForNextBlock env).1 baseReward s

def afterBlock (env : Env) (bc : Blockchain) (s : TxLoop) (record : StoredBlock) : Blockchain :=
  ({ (bc.getDifficultyForNextBlock env).2 with
    blocksTxsCheck := [], txPool := s.pool } : Blockchain).storeBlock record

theorem storeStep_inv (env : Env) (now : Nat) (bc : Blockchain) (bl : Block) (d : Nat)
    (s : TxLoop) :
    ((bc.storeStep env now bl d s).1.ret = false ∧
      (bc.storeStep env now bl d s).1.bvc.addedToMainChain = false ∧
      SameChain bc (bc.storeStep env now bl d s).2) ∨
    ((bc.storeStep env now bl d s).1.ret = true ∧
      (bc.storeStep env now bl d s).1.bvc.addedToMainChain = true ∧
      env.addBlockError bc.db bl s.txs = none ∧ ∃ baseReward partialReward,
        validateMinerTransaction bc.db.chain bl s.cumulativeBlockSize s.feeSummary
          (topCoins bc.db) bc.currentVersion = some (baseReward, partialReward) ∧
        (bc.storeStep env now bl d s).2 =
          ({ bc with blocksTxsCheck := [], txPool := s.pool } : Blockchain).storeBlock
            (recordOf env bc.db bl d baseReward s)) := by
  have hclear : SameChain bc { bc with blocksTxsCheck := [] } :=
    ⟨rfl, rfl, rfl, rfl, rfl, fun _ h => h⟩
  unfold storeStep
  dsimp only
  split
  · exact .inl ⟨rfl, rfl, hclear.trans (returnTx_sameChain _ _ _)⟩
  rename_i baseReward partialReward hreward
  split
  · exact .inl ⟨rfl, rfl, hclear.trans (returnTx_sameChain _ _ _)⟩
  · exact .inl ⟨rfl, rfl, hclear.trans (returnTx_sameChain _ _ _)⟩
  · rename_i herr
    exact .inr ⟨rfl, rfl, herr, baseReward, partialReward, hreward, rfl⟩

/-- **One block on the main chain.** Refused without a trace in the chain, or
accepted and stored. -/
theorem mainChain_inv (env : Env) (now : Nat) (bc : Blockchain) (bl : Block) (id : Hash) :
    ((bc.handleBlockToMainChain env now bl id).1.ret = false ∧
      (bc.handleBlockToMainChain env now bl id).1.bvc.addedToMainChain = false ∧
      SameChain bc (bc.handleBlockToMainChain env now bl id).2) ∨
    ((bc.handleBlockToMainChain env now bl id).1.ret = true ∧
      (bc.handleBlockToMainChain env now bl id).1.bvc.addedToMainChain = true ∧
      ∃ s record, Accepted env now bc bl id s record ∧
        (bc.handleBlockToMainChain env now bl id).2 = bc.afterBlock env s record) := by
  have hsame := askDifficulty_sameChain env bc
  unfold handleBlockToMainChain
  dsimp only
  rw [hsame.powStep, hsame.checkpointStep, hsame.db]
  split
  · exact .inl ⟨rfl, rfl, .refl bc⟩
  rename_i hprev
  split
  · exact .inl ⟨rfl, rfl, .refl bc⟩
  rename_i hver
  split
  · exact .inl ⟨rfl, rfl, .refl bc⟩
  rename_i hts
  split
  · exact .inl ⟨rfl, rfl, hsame⟩
  rename_i hdiff
  split
  · exact .inl ⟨rfl, rfl, hsame⟩
  rename_i hpow
  split
  · exact .inl ⟨rfl, rfl, hsame⟩
  rename_i hcp
  split
  · exact .inl ⟨rfl, rfl, hsame⟩
  rename_i hminer
  have hloop : ∀ ids s, (bc.getDifficultyForNextBlock env).2.takeTxs env now ids s =
      bc.takeTxs env now ids s :=
    takeTxs_congr hsame.db hsame.currentVersion (askDifficulty_blocksTxsCheck env bc)
  unfold connectBlock
  rw [hloop, askDifficulty_txPool]
  split
  · refine .inl ⟨rfl, rfl, ?_⟩
    split
    · exact (hsame.trans (addInvalid_sameChain _ _ _)).trans (returnTx_sameChain _ _ _)
    · exact hsame.trans (returnTx_sameChain _ _ _)
  · rename_i s hs
    rcases storeStep_inv env now (bc.getDifficultyForNextBlock env).2 bl
      (bc.getDifficultyForNextBlock env).1 s with
      ⟨h1, h2, h3⟩ | ⟨h1, h2, herr, baseReward, partialReward, hreward, h3⟩
    · exact .inl ⟨h1, h2, hsame.trans h3⟩
    rw [hsame.db] at herr
    rw [hsame.db, hsame.currentVersion] at hreward
    refine .inr ⟨h1, h2, s, recordOf env (bc.getDifficultyForNextBlock env).2.db bl
      (bc.getDifficultyForNextBlock env).1 baseReward s, ?_, h3⟩
    exact
      { prev := not_not.mp hprev
        version := Bool.eq_true_of_not_eq_false hver
        timestamp := Bool.eq_true_of_not_eq_false hts
        difficulty := hdiff
        pow := Bool.eq_true_of_not_eq_false hpow
        checkpoint := Bool.eq_true_of_not_eq_false hcp
        miner := Bool.eq_true_of_not_eq_false hminer
        txs := hs
        stored := herr
        record_eq := ⟨baseReward, partialReward, hreward, by rw [hsame.db]⟩ }

variable {s : TxLoop} {record : StoredBlock} {c : List StoredBlock}

section

variable (h : Accepted env now bc bl id s record)
include h

/-- An accepted block is the new top: one more record, and the hard-fork
object has added it. -/
theorem Accepted.afterBlock :
    bc.hardfork.add (bc.db.push record) bl.toBlockHeader bc.db.height =
      some ((bc.afterBlock env s record).hardfork, (bc.afterBlock env s record).db) := by
  have hsame := askDifficulty_sameChain env bc
  obtain ⟨baseReward, partialReward, -, hrec⟩ := h.record_eq
  have hblk : record.blk = bl := by rw [hrec]; rfl
  obtain ⟨hf, hadd⟩ := HardFork.add_of_check h.version (bc.db.push record) bc.db.height
  have hadd' : (bc.getDifficultyForNextBlock env).2.hardfork.add
      ((bc.getDifficultyForNextBlock env).2.db.push record) record.blk.toBlockHeader
      (bc.getDifficultyForNextBlock env).2.db.height =
        some (hf, (bc.db.push record).setHardForkVersion bc.db.height
          bc.hardfork.getCurrentVersion) := by
    rw [hsame.hardfork, hsame.db, hblk, hadd]
  rw [hadd]
  unfold Blockchain.afterBlock storeBlock
  rw [hadd']

end

theorem Accepted.chain_eq (hacc : Accepted env now bc bl id s record) :
    (bc.afterBlock env s record).db.chain = bc.db.chain ++ [record] ∧
      record.blk = bl ∧ record.hash = env.blockHash bl := by
  obtain ⟨baseReward, partialReward, -, hrec⟩ := hacc.record_eq
  refine ⟨?_, by rw [hrec]; rfl, by rw [hrec]; rfl⟩
  rw [HardFork.add_chain hacc.afterBlock, BlockchainDb.push_chain]

/-- Nothing else changes with an accepted block, except the cache and the pool. -/
theorem afterBlock_rest (env : Env) (bc : Blockchain) (s : TxLoop) (record : StoredBlock) :
    (bc.afterBlock env s record).alternativeChains = bc.alternativeChains ∧
    (bc.afterBlock env s record).invalidBlocks = bc.invalidBlocks ∧
    (bc.afterBlock env s record).checkpoints = bc.checkpoints ∧
    (bc.afterBlock env s record).blocksLonghashTable = bc.blocksLonghashTable ∧
    (bc.afterBlock env s record).txPool = s.pool := by
  have hinv : (bc.getDifficultyForNextBlock env).2.invalidBlocks = bc.invalidBlocks := by
    unfold getDifficultyForNextBlock refreshCache
    split <;> rfl
  have hsame := askDifficulty_sameChain env bc
  unfold Blockchain.afterBlock storeBlock
  split
  · exact ⟨hsame.alternativeChains, hinv, hsame.checkpoints, hsame.blocksLonghashTable, rfl⟩
  · exact ⟨hsame.alternativeChains, hinv, hsame.checkpoints, hsame.blocksLonghashTable, rfl⟩

/-! ### Popped blocks -/

/-- Pops touch the storage, the cache and the pool only. -/
structure SameNode (bc bc' : Blockchain) : Prop where
  hfVersions : bc'.db.hfVersions = bc.db.hfVersions
  hardfork : bc'.hardfork = bc.hardfork
  alternativeChains : bc'.alternativeChains = bc.alternativeChains
  invalidBlocks : bc'.invalidBlocks = bc.invalidBlocks
  checkpoints : bc'.checkpoints = bc.checkpoints
  blocksLonghashTable : bc'.blocksLonghashTable = bc.blocksLonghashTable

theorem SameNode.refl (bc : Blockchain) : SameNode bc bc := ⟨rfl, rfl, rfl, rfl, rfl, rfl⟩

theorem SameNode.trans {bc1 bc2 bc3 : Blockchain} (h : SameNode bc1 bc2)
    (h' : SameNode bc2 bc3) : SameNode bc1 bc3 :=
  ⟨h'.hfVersions.trans h.hfVersions, h'.hardfork.trans h.hardfork,
    h'.alternativeChains.trans h.alternativeChains, h'.invalidBlocks.trans h.invalidBlocks,
    h'.checkpoints.trans h.checkpoints, h'.blocksLonghashTable.trans h.blocksLonghashTable⟩

/-- The state after the top block `record` was popped. -/
def afterPop (env : Env) (now : Nat) (bc : Blockchain) (record : StoredBlock) : Blockchain :=
  ({ bc.dropCache with db := bc.db.pop } : Blockchain).returnTxToPool env now
    (record.txs.reverse.filter fun tx => !tx.isCoinbase) bc.txPool

theorem afterPop_sameNode (env : Env) (now : Nat) (bc : Blockchain) (record : StoredBlock) :
    SameNode bc (bc.afterPop env now record) :=
  ⟨rfl, rfl, rfl, rfl, rfl, rfl⟩

theorem popFromChain_concat (h : bc.db.chain = c ++ [record]) :
    bc.popBlockFromBlockchain env now = some (record.blk, bc.afterPop env now record) := by
  unfold popBlockFromBlockchain
  rw [h, List.getLast?_concat]
  rfl

theorem afterPop_chain (h : bc.db.chain = c ++ [record]) :
    (bc.afterPop env now record).db.chain = c := by
  change bc.db.chain.dropLast = c
  rw [h, List.dropLast_concat]

theorem topBlockHash_concat {db : BlockchainDb} (h : db.chain = c ++ [record]) :
    db.topBlockHash = record.hash := by
  rw [BlockchainDb.topBlockHash, h, List.getLast?_concat]
  rfl

theorem popUntil_sameNode {n : Nat} {popped : List Block}
    (h : popUntil env now id n bc = some (popped, bc')) : SameNode bc bc' := by
  refine popUntil_keeps (fun bc1 b bc2 h1 hsame => ?_) h (.refl bc)
  unfold popBlockFromBlockchain at h1
  split at h1
  · cases h1
  · cases h1
    exact hsame.trans (afterPop_sameNode env now _ _)

/-- The loop ends at the block with that id, if no block above has the same one. -/
theorem popUntil_of_chain {p : StoredBlock} (hid : p.hash = id) :
    ∀ {n : Nat} {bc : Blockchain} {pre removed : List StoredBlock},
      bc.db.chain = (pre ++ [p]) ++ removed → (∀ b ∈ removed, b.hash ≠ id) → removed.length < n →
      ∃ bc', popUntil env now id n bc = some (removed.map (·.blk), bc') ∧
        bc'.db.chain = pre ++ [p]
  | 0, _, _, _, _, _, hn => absurd hn (Nat.not_lt_zero _)
  | n + 1, bc, pre, removed, hchain, hne, hn => by
    unfold popUntil
    rcases List.eq_nil_or_concat' removed with rfl | ⟨rest, top, rfl⟩
    · rw [List.append_nil] at hchain
      rw [if_pos ((topBlockHash_concat hchain).trans hid)]
      exact ⟨bc, rfl, hchain⟩
    rw [← List.append_assoc] at hchain
    rw [if_neg (by rw [topBlockHash_concat hchain]; exact hne top (by simp)),
      popFromChain_concat hchain]
    have hrest : (bc.afterPop env now top).db.chain = (pre ++ [p]) ++ rest :=
      afterPop_chain hchain
    obtain ⟨bc', hpop, hc⟩ := popUntil_of_chain hid hrest
      (fun b hb => hne b (by simp [hb])) (by simpa using hn)
    exact ⟨bc', by simp [hpop], hc⟩

/-! ### Several blocks on top -/

theorem connectBlocks_cons (env : Env) (now : Nat) (bc : Blockchain) (b : Block)
    (rest : List Block) :
    (∃ s record, Accepted env now bc b (env.blockHash b) s record ∧
      bc.connectBlocks env now (b :: rest) =
        (bc.afterBlock env s record).connectBlocks env now rest) ∨
    ∃ bc', SameChain bc bc' ∧ bc.connectBlocks env now (b :: rest) = (b :: rest, bc') := by
  rcases mainChain_inv env now bc b (env.blockHash b) with
    ⟨hret, -, hsame⟩ | ⟨hret, hadd, s, record, hacc, hafter⟩
  · exact .inr ⟨_, hsame, by simp [connectBlocks, hret]⟩
  · refine .inl ⟨s, record, hacc, ?_⟩
    rw [connectBlocks]
    simp only [hret, hadd, hafter, Bool.and_self, if_true]

theorem connectBlocks_nil {b : Block} {rest : List Block}
    (h : bc.connectBlocks env now (b :: rest) = ([], bc')) :
    ∃ s record, Accepted env now bc b (env.blockHash b) s record ∧
      (bc.afterBlock env s record).connectBlocks env now rest = ([], bc') := by
  rcases connectBlocks_cons env now bc b rest with ⟨s, record, hacc, heq⟩ | ⟨bc1, -, heq⟩
  · exact ⟨s, record, hacc, heq ▸ h⟩
  · rw [heq] at h
    cases h

/-! ### New blocks -/

theorem haveBlock_eq_false {id : Hash} : bc.haveBlock id = false ↔
    bc.db.blockExists id = false ∧ id ∉ bc.alternativeChains ∧ id ∉ bc.invalidBlocks := by
  rw [haveBlock, Bool.or_eq_false_iff, Bool.or_eq_false_iff, decide_eq_false_iff_not,
    decide_eq_false_iff_not, and_assoc]

end Blockchain

end Lethean
