import Lethean.CryptonoteCore.MainChain
import Lethean.CryptonoteCore.PoolIndex

/-!
# Lethean.CryptonoteCore.Emission

How many coins exist. `handle_block_to_main_chain` stores with every block a
running total, capped at `MONEY_SUPPLY`; the reward of the next block is
computed from it in unsigned arithmetic. Over whole runs the total is what the
blocks paid out minus the fees they collected, counted in the integers, and no
subtraction on the way wraps.

`get_block_reward` asserts that the sizes of a penalised block fit in 32 bits
and divides by the low word of the median all the same. Builds without asserts
go on, with a reward that can be anything; so the asserts are a condition on
the blocks of a run, next to the one on the sum of the fees.
-/

namespace Lethean

/-! ### The reward that is granted -/

/-- The total below which the next block may claim the premine. -/
def premineThreshold : Nat := 14992413379483553

def premineReward : Nat := 14992222743513202

/-- The emission curve: a share of the coins still to come, but no less than
the final subsidy. Before version 8 the premine is taken out of the total. -/
def emissionCurve (coins version : Nat) : Nat :=
  max (subU64 moneySupply
      (if version < 8 ∧ premineThreshold ≤ coins then subU64 coins 14992032107906461 else coins) /
    2 ^ (emissionSpeedFactorPerMinute - (2 - 1))) (finalSubsidyPerMinute * 2)

/-- What `get_block_reward` computes before it looks at the size. -/
def baseRewardOf (coins version : Nat) : Nat :=
  if 0 < coins ∧ coins < premineThreshold then premineReward else emissionCurve coins version

theorem getBlockReward_eq (m c coins version : Nat) :
    getBlockReward m c coins version =
      if c ≤ max m (getMinBlockSize version) then some (baseRewardOf coins version)
      else if 2 * max m (getMinBlockSize version) < c then none
      else
        some (u64 (baseRewardOf coins version *
            u64 ((2 * max m (getMinBlockSize version) - c) * c) /
          (max m (getMinBlockSize version) % 2 ^ 32) /
          (max m (getMinBlockSize version) % 2 ^ 32))) :=
  rfl

/-- The asserts of `get_block_reward` on the sizes, which are reached by a block
that is penalised. -/
def RewardAsserts (medianSize currentBlockSize version : Nat) : Prop :=
  max medianSize (getMinBlockSize version) < currentBlockSize →
    max medianSize (getMinBlockSize version) < 2 ^ 32 - 1 ∧ currentBlockSize < 2 ^ 32 - 1

theorem emissionCurve_lt (coins version : Nat) : emissionCurve coins version < premineReward := by
  unfold emissionCurve
  generalize (if version < 8 ∧ premineThreshold ≤ coins then _ else _) = taken
  have hleft := subU64_lt moneySupply taken
  simp only [emissionSpeedFactorPerMinute, finalSubsidyPerMinute, premineReward]
  omega

theorem baseRewardOf_le (coins version : Nat) : baseRewardOf coins version ≤ premineReward := by
  unfold baseRewardOf
  split
  · exact le_rfl
  · exact (emissionCurve_lt coins version).le

theorem penalty_factor_le {m c : Nat} (hc : c ≤ 2 * m) : (2 * m - c) * c ≤ m * m := by
  obtain ⟨d, hd⟩ := Nat.exists_eq_add_of_le hc
  rw [show 2 * m - c = d by omega]
  nlinarith [sq_nonneg ((d : ℤ) - c)]

/-- The words of the penalty hold its exact value for medians below `2 ^ 32`. -/
theorem reward_of_penalised {m c coins version : Nat}
    (hm : max m (getMinBlockSize version) < 2 ^ 32)
    (hlt : max m (getMinBlockSize version) < c) (hle : c ≤ 2 * max m (getMinBlockSize version)) :
    getBlockReward m c coins version =
      some (baseRewardOf coins version * ((2 * max m (getMinBlockSize version) - c) * c) /
        (max m (getMinBlockSize version) * max m (getMinBlockSize version))) := by
  rw [getBlockReward_eq]
  generalize max m (getMinBlockSize version) = M at hlt hle hm
  have hfactor := penalty_factor_le hle
  have hsquare : M * M < 2 ^ 64 := (Nat.mul_lt_mul'' hm hm).trans_eq (by norm_num)
  have hbase := baseRewardOf_le coins version
  have hreward : baseRewardOf coins version * ((2 * M - c) * c) / (M * M) < 2 ^ 64 := by
    refine lt_of_le_of_lt (Nat.div_le_of_le_mul ?_) (hbase.trans_lt (by decide))
    rw [Nat.mul_comm (M * M)]
    gcongr
  rw [if_neg (by omega), if_neg (by omega), u64_of_lt (hfactor.trans_lt hsquare),
    Nat.mod_eq_of_lt (by omega), Nat.div_div_eq_div_mul, u64_of_lt hreward]

/-- A penalty lowers the reward, so none exceeds the premine. -/
theorem getBlockReward_le {m c coins version reward : Nat} (hassert : RewardAsserts m c version)
    (h : getBlockReward m c coins version = some reward) : reward ≤ premineReward := by
  have hbase := baseRewardOf_le coins version
  rcases Nat.lt_or_ge (max m (getMinBlockSize version)) c with hlt | hge
  · rcases Nat.lt_or_ge (2 * max m (getMinBlockSize version)) c with hlarge | hle
    · rw [getBlockReward_eq, if_neg (not_le.mpr hlt), if_pos hlarge] at h
      cases h
    · rw [reward_of_penalised ((hassert hlt).1.trans (by decide)) hlt hle] at h
      cases h
      refine (Nat.div_le_of_le_mul ?_).trans hbase
      rw [Nat.mul_comm (_ * _)]
      exact Nat.mul_le_mul_left _ (penalty_factor_le hle)
  · rw [getBlockReward_eq, if_pos hge] at h
    cases h
    exact hbase

/-- A block of at most 1.3 times the median keeps some reward. -/
theorem getBlockReward_pos {m c coins version reward : Nat}
    (hm : max m (getMinBlockSize version) < 2 ^ 32)
    (hc : 100 * c ≤ 130 * max m (getMinBlockSize version))
    (h : getBlockReward m c coins version = some reward) : 0 < reward := by
  have hbase : 2 ≤ baseRewardOf coins version := by
    unfold baseRewardOf emissionCurve
    split
    · decide
    · exact le_max_of_le_right (by decide)
  rcases Nat.lt_or_ge (max m (getMinBlockSize version)) c with hlt | hge
  · rw [reward_of_penalised hm hlt (by omega)] at h
    cases h
    generalize max m (getMinBlockSize version) = M at hc hlt
    have hfactor : M * M ≤ 2 * ((2 * M - c) * c) := by
      obtain ⟨d, rfl⟩ := Nat.exists_eq_add_of_le hlt.le
      obtain ⟨e, rfl⟩ : ∃ e, M = d + e := Nat.exists_eq_add_of_le (by omega)
      rw [show 2 * (d + e) - (d + e + d) = e by omega]
      nlinarith
    refine Nat.div_pos (hfactor.trans ?_) (Nat.mul_pos (by omega) (by omega))
    exact Nat.mul_le_mul_right _ hbase
  · rw [getBlockReward_eq, if_pos hge] at h
    cases h
    omega

/-! ### The coins of a miner transaction -/

def Transaction.outputSum (tx : Transaction) : Nat := (tx.vout.map (·.amount)).sum

/-- `check_outs_overflow` makes `get_outs_money_amount` exact. -/
theorem Transaction.getOutsMoneyAmount_eq {tx : Transaction}
    (hamounts : ∀ o ∈ tx.vout, o.amount < 2 ^ 64) (h : tx.checkOutsOverflow = true) :
    tx.getOutsMoneyAmount = tx.outputSum ∧ tx.outputSum < 2 ^ 64 := by
  have hfold : tx.vout.foldlM (fun money o => some (u64 (money + o.amount))) 0 =
      some tx.getOutsMoneyAmount := List.foldlM_pure
  have hexact := @foldlM_amounts TxOut (fun o => some o.amount) tx.vout 0
    (by simpa using hamounts) (by decide) h
  simpa [hfold, outputSum] using hexact

/-! ### Fees -/

/-- The fee `add_tx` computes for a transaction. -/
def Transaction.fee (tx : Transaction) : Nat := (TxPool.feeOf tx).getD 0

def feeSum (txs : List Transaction) : Nat := (txs.map (·.fee)).sum

namespace TxPool

/-- Every row of the pool records the fee of its transaction. -/
def FeesRecorded (pool : TxPool) : Prop :=
  ∀ id ptx, pool.table.lookup id = some ptx → ptx.fee = ptx.tx.fee

theorem feesRecorded_empty : empty.FeesRecorded := by
  intro id ptx h
  simp [empty] at h

variable {env : Env} {pool pool' : TxPool}

theorem FeesRecorded.erase (h : pool.FeesRecorded) (id : Hash)
    (htable : pool'.table = pool.table.erase id) : pool'.FeesRecorded := by
  intro i ptx hi
  rw [htable] at hi
  by_cases heq : i = id
  · rw [heq, Finmap.lookup_erase] at hi
    cases hi
  · rw [Finmap.lookup_erase_ne heq] at hi
    exact h i ptx hi

theorem FeesRecorded.insertTx (h : pool.FeesRecorded) (id : Hash) {ptx : PoolTx}
    (hptx : ptx.fee = ptx.tx.fee) : (pool.insertTx id ptx).2.FeesRecorded := by
  rw [FeesRecorded, insertTx_table]
  exact Inverted.forall_lookup_insert h hptx

theorem FeesRecorded.addTx (h : pool.FeesRecorded) (db : BlockchainDb) (version now : Nat)
    (tx : Transaction) : (pool.addTx env db version now tx).2.FeesRecorded := by
  rcases addTxWith_cases env db version now ⟨env.blobSize tx, true, true, false⟩ pool tx with
    hsame | ⟨fee, hadded, heq⟩
  · rwa [TxPool.addTx, hsame]
  · rw [TxPool.addTx, heq]
    refine h.insertTx _ ?_
    rw [Transaction.fee, hadded.fee, Option.getD_some]

theorem FeesRecorded.returnTxs (db : BlockchainDb) (version now : Nat) (txs : List Transaction)
    (h : pool.FeesRecorded) : (pool.returnTxs env db version now txs).FeesRecorded := by
  induction txs generalizing pool with
  | nil => exact h
  | cons tx txs ih => exact ih (h.addTx db version now tx)

end TxPool

namespace Blockchain

variable {env : Env} {now : Nat} {bc : Blockchain} {bl : Block} {id : Hash} {s : TxLoop}
  {record : StoredBlock}

/-- The transaction loop keeps the pool in order and adds up the fees, modulo
`2 ^ 64`. -/
theorem takeTxs_fees (env : Env) (now : Nat) (bc : Blockchain) (ids : List Hash) (s : TxLoop)
    (hpool : s.pool.FeesRecorded) (hfee : s.feeSummary < 2 ^ 64) :
    (∀ asInvalid s', bc.takeTxs env now ids s = .error (asInvalid, s') →
      s'.pool.FeesRecorded) ∧
    ∀ s', bc.takeTxs env now ids s = .ok s' → s'.pool.FeesRecorded ∧
      ∃ txs, s'.txs = s.txs ++ txs ∧ s'.feeSummary = u64 (s.feeSummary + feeSum txs) := by
  induction ids generalizing s with
  | nil =>
    refine ⟨by rintro _ _ ⟨⟩, ?_⟩
    rintro s' ⟨⟩
    exact ⟨hpool, [], (List.append_nil _).symm, (u64_of_lt hfee).symm⟩
  | cons txId rest ih =>
    unfold takeTxs
    split
    · refine ⟨?_, by rintro _ ⟨⟩⟩
      rintro _ _ ⟨⟩
      exact hpool
    cases htake : s.pool.takeTx txId with
    | none =>
      refine ⟨?_, by rintro _ ⟨⟩⟩
      rintro _ _ ⟨⟩
      exact hpool
    | some taken =>
      obtain ⟨ptx, pool⟩ := taken
      obtain ⟨hrow, htable⟩ := TxPool.takeTx_table htake
      have hpool' : pool.FeesRecorded := hpool.erase txId htable
      dsimp only
      split
      · obtain ⟨herr, hok⟩ := ih ⟨pool, s.txs ++ [ptx.tx], u64 (s.feeSummary + ptx.fee),
          u64 (s.cumulativeBlockSize + ptx.blobSize), s.txIndex + 1⟩ hpool' (u64_lt _)
        refine ⟨herr, fun s' h => ?_⟩
        obtain ⟨hp, txs, htxs, hsum⟩ := hok s' h
        refine ⟨hp, ptx.tx :: txs, by simp [htxs], ?_⟩
        rw [hsum, hpool txId ptx hrow]
        simp only [u64, feeSum, List.map_cons, List.sum_cons, Nat.mod_add_mod, Nat.add_assoc]
      · refine ⟨?_, by rintro _ ⟨⟩⟩
        rintro _ _ ⟨⟩
        exact hpool'

theorem storeStep_feesRecorded (d : Nat) (hpool : s.pool.FeesRecorded) :
    (bc.storeStep env now bl d s).2.txPool.FeesRecorded := by
  unfold storeStep
  dsimp only
  split
  · exact hpool.returnTxs _ _ _ _
  · split
    · exact hpool.returnTxs _ _ _ _
    · exact hpool.returnTxs _ _ _ _
    · unfold storeBlock
      split <;> exact hpool

/-- The pool is in order after every call of `handle_block_to_main_chain`. -/
theorem mainChain_feesRecorded (hpool : bc.txPool.FeesRecorded) :
    (bc.handleBlockToMainChain env now bl id).2.txPool.FeesRecorded := by
  have hdiff : (bc.getDifficultyForNextBlock env).2.txPool.FeesRecorded := by
    rwa [askDifficulty_txPool]
  unfold handleBlockToMainChain
  dsimp only
  repeat' split
  all_goals first | exact hpool | exact hdiff | skip
  unfold connectBlock
  obtain ⟨herr, hok⟩ := takeTxs_fees env now (bc.getDifficultyForNextBlock env).2 bl.txHashes
    ⟨(bc.getDifficultyForNextBlock env).2.txPool, [], 0, env.blobSize bl.minerTx, 0⟩ hdiff
    (Nat.two_pow_pos 64)
  split
  · rename_i asInvalid s hloop
    exact (herr asInvalid s hloop).returnTxs _ _ _ _
  · rename_i s hloop
    exact storeStep_feesRecorded _ (hok s hloop).1

/-! ### The running total -/

/-- The coins a stored block brought into circulation. -/
def netEmission (r : StoredBlock) : ℤ := r.blk.minerTx.outputSum - feeSum r.txs

def minted (chain : List StoredBlock) : ℤ := (chain.map netEmission).sum

@[simp] theorem minted_concat (c : List StoredBlock) (r : StoredBlock) :
    minted (c ++ [r]) = minted c + netEmission r := by
  simp [minted]

/-- The stored totals are the coins minted so far, up to the cap, and no block
takes coins out of circulation. -/
structure Ledger (chain : List StoredBlock) : Prop where
  coins : ∀ n r, chain[n]? = some r →
    (r.coins : ℤ) = min (moneySupply : ℤ) (minted (chain.take (n + 1)))
  nonneg : ∀ r ∈ chain, 0 ≤ netEmission r

namespace Ledger

variable {c chain : List StoredBlock} {r : StoredBlock}

theorem nil : Ledger [] := ⟨fun _ _ h => by simp at h, fun _ h => by simp at h⟩

theorem of_prefix (h : Ledger chain) (hc : c <+: chain) : Ledger c := by
  obtain ⟨rest, rfl⟩ := hc
  refine ⟨fun n r hr => ?_, fun r hr => h.nonneg r (List.mem_append_left _ hr)⟩
  obtain ⟨hn, -⟩ := List.getElem?_eq_some_iff.mp hr
  have := h.coins n r (by rw [List.getElem?_append_left hn, hr])
  rwa [List.take_append_of_le_length (by omega)] at this

theorem concat (h : Ledger c) (hr : 0 ≤ netEmission r)
    (hcoins : (r.coins : ℤ) = min (moneySupply : ℤ) (minted (c ++ [r]))) :
    Ledger (c ++ [r]) := by
  refine ⟨fun n r' hr' => ?_, forall_mem_concat.mpr ⟨h.nonneg, hr⟩⟩
  rcases lt_trichotomy n c.length with hn | rfl | hn
  · rw [List.getElem?_append_left hn] at hr'
    rw [List.take_append_of_le_length (by omega)]
    exact h.coins n r' hr'
  · rw [List.getElem?_concat_length] at hr'
    cases hr'
    rwa [List.take_of_length_le (by simp)]
  · rw [List.getElem?_eq_none (by simp; omega)] at hr'
    cases hr'

theorem minted_mono (h : Ledger chain) (hc : c <+: chain) : minted c ≤ minted chain := by
  obtain ⟨rest, rfl⟩ := hc
  have hrest : 0 ≤ minted rest := List.sum_nonneg fun x hx => by
    obtain ⟨r, hr, rfl⟩ := List.mem_map.mp hx
    exact h.nonneg r (List.mem_append_right _ hr)
  simp only [minted, List.map_append, List.sum_append] at hrest ⊢
  omega

theorem mono (h : Ledger chain) {m n : Nat} {r r' : StoredBlock} (hmn : m ≤ n)
    (hr : chain[m]? = some r) (hr' : chain[n]? = some r') : r.coins ≤ r'.coins := by
  have hm := h.coins m r hr
  have hn := h.coins n r' hr'
  have hle := (h.of_prefix (List.take_prefix (n + 1) chain)).minted_mono
    (List.take_prefix_take_left (l := chain) (show m + 1 ≤ n + 1 by omega))
  omega

theorem topCoins {db : BlockchainDb} (h : Ledger db.chain) :
    (topCoins db : ℤ) = min (moneySupply : ℤ) (minted db.chain) := by
  rcases List.eq_nil_or_concat' db.chain with hnil | ⟨c, r, hc⟩
  · simp [Blockchain.topCoins, hnil, minted]
  · have := h.coins c.length r (by rw [hc, List.getElem?_concat_length])
    rw [List.take_of_length_le (by simp [hc])] at this
    rw [Blockchain.topCoins, hc, List.getLast?_concat, ← hc]
    exact this

end Ledger

/-! ### What an accepted block mints -/

/-- The amounts of the miner transaction are 64-bit values, and the fees of
the block sum up to less than `2 ^ 63`. -/
structure FeesFit (bl : Block) (s : TxLoop) : Prop where
  amounts : ∀ o ∈ bl.minerTx.vout, o.amount < 2 ^ 64
  fees : feeSum s.txs < 2 ^ 63

/-- The asserts of `get_block_reward` hold when the block is validated. -/
def SizesFit (bc : Blockchain) (s : TxLoop) : Prop :=
  RewardAsserts (median (lastBlocksSizes bc.db.chain)) s.cumulativeBlockSize bc.currentVersion

theorem coinsAfter_eq {coins net : Nat} (hcoins : coins ≤ moneySupply) :
    coinsAfter coins net = min moneySupply (coins + net) := by
  unfold coinsAfter
  rw [subU64_of_le hcoins (by decide)]
  split
  · rw [u64_of_lt (by simp only [moneySupply] at *; omega)]
    omega
  · omega

/-- What validation establishes: the block takes at most the granted reward
and its fees. -/
theorem validateMiner_inv {chain : List StoredBlock} {b : Block}
    {size fee coins version net : Nat} {partialReward : Bool}
    (h : validateMinerTransaction chain b size fee coins version = some (net, partialReward)) :
    ∃ reward, getBlockReward (median (lastBlocksSizes chain)) size coins version = some reward ∧
      net = subU64 b.minerTx.getOutsMoneyAmount fee ∧ net ≤ reward := by
  unfold validateMinerTransaction at h
  dsimp only at h
  split at h
  · cases h
  rename_i reward hreward
  split at h
  · cases h
  · split at h
    · cases h
    · cases h
      exact ⟨reward, hreward, rfl, by omega⟩

section

variable (hacc : Accepted env now bc bl id s record)
include hacc

theorem Accepted.feeSummary_eq (hpool : bc.txPool.FeesRecorded) :
    s.feeSummary = u64 (feeSum s.txs) := by
  obtain ⟨-, txs, htxs, hsum⟩ := (takeTxs_fees env now bc bl.txHashes _ hpool
    (Nat.two_pow_pos 64)).2 s hacc.txs
  rw [List.nil_append] at htxs
  rw [hsum, ← htxs, Nat.zero_add]

theorem Accepted.getOutsMoneyAmount_eq (hamounts : ∀ o ∈ bl.minerTx.vout, o.amount < 2 ^ 64) :
    bl.minerTx.getOutsMoneyAmount = bl.minerTx.outputSum ∧ bl.minerTx.outputSum < 2 ^ 64 := by
  refine Transaction.getOutsMoneyAmount_eq hamounts ?_
  have hminer := hacc.miner
  unfold prevalidateMinerTransaction at hminer
  split at hminer
  · exact (Bool.and_eq_true_iff.mp hminer).2
  · cases hminer

/-- An accepted block: the fees are exact and covered by the outputs, the rest
of the outputs is at most the reward, and the new total is the old one plus
that rest. -/
theorem Accepted.mints (hledger : Ledger bc.db.chain) (hpool : bc.txPool.FeesRecorded)
    (hfit : FeesFit bl s) (hsizes : SizesFit bc s) :
    s.feeSummary = feeSum s.txs ∧ s.feeSummary ≤ bl.minerTx.getOutsMoneyAmount ∧
    0 ≤ netEmission record ∧
    (record.coins : ℤ) = min (moneySupply : ℤ) (topCoins bc.db + netEmission record) ∧
    ∃ reward, getBlockReward (median (lastBlocksSizes bc.db.chain)) s.cumulativeBlockSize
        (topCoins bc.db) bc.currentVersion = some reward ∧ netEmission record ≤ reward := by
  obtain ⟨net, partialReward, hvalid, rfl⟩ := hacc.record_eq
  obtain ⟨reward, hreward, hnet, hle⟩ := validateMiner_inv hvalid
  have htop : topCoins bc.db ≤ moneySupply := by
    have := hledger.topCoins
    omega
  have hsmall : reward ≤ premineReward := getBlockReward_le hsizes hreward
  have hfees : s.feeSummary = feeSum s.txs := by
    rw [hacc.feeSummary_eq hpool, u64_of_lt (by have := hfit.fees; omega)]
  obtain ⟨houts, hrange⟩ := hacc.getOutsMoneyAmount_eq hfit.amounts
  -- a difference that wraps would exceed every reward
  have hcovered : s.feeSummary ≤ bl.minerTx.getOutsMoneyAmount := by
    by_contra hlt
    have := hfit.fees
    simp only [premineReward] at hsmall
    rw [hnet, subU64] at hle
    omega
  have hnet' : (net : ℤ) = bl.minerTx.outputSum - feeSum s.txs := by
    rw [hnet, subU64_of_le hcovered (by omega)]
    omega
  have hemission : netEmission (recordOf env bc.db bl (bc.getDifficultyForNextBlock env).1 net s) =
      net := hnet'.symm
  have hcoins : (recordOf env bc.db bl (bc.getDifficultyForNextBlock env).1 net s).coins =
      min moneySupply (topCoins bc.db + net) := coinsAfter_eq htop
  rw [hemission, hcoins]
  exact ⟨hfees, hcovered, by omega, by omega, reward, hreward, by omega⟩

theorem Accepted.ledger (hledger : Ledger bc.db.chain) (hpool : bc.txPool.FeesRecorded)
    (hfit : FeesFit bl s) (hsizes : SizesFit bc s) : Ledger (bc.db.chain ++ [record]) := by
  obtain ⟨-, -, hnonneg, hcoins, -⟩ := hacc.mints hledger hpool hfit hsizes
  refine hledger.concat hnonneg ?_
  rw [hcoins, hledger.topCoins, minted_concat]
  omega

end

/-! ### Runs -/

/-- Runs from `bc₀` that add and pop blocks. In between anything but the chain
may change, as long as the pool rows keep recording fees. The blocks that are
accepted satisfy `ok`. -/
inductive MintRun (env : Env) (ok : Blockchain → Block → TxLoop → Prop) (bc₀ : Blockchain) :
    Blockchain → Prop
  | refl : MintRun env ok bc₀ bc₀
  | other {bc bc' : Blockchain} : MintRun env ok bc₀ bc → bc'.db.chain = bc.db.chain →
      bc'.txPool.FeesRecorded → MintRun env ok bc₀ bc'
  | handle {bc : Blockchain} {bl : Block} (now : Nat) : MintRun env ok bc₀ bc →
      (∀ s record, Accepted env now bc bl (env.blockHash bl) s record → ok bc bl s) →
      MintRun env ok bc₀ (bc.handleBlockToMainChain env now bl (env.blockHash bl)).2
  | pop {bc bc' : Blockchain} {b : Block} (now : Nat) : MintRun env ok bc₀ bc →
      bc.popBlockFromBlockchain env now = some (b, bc') → MintRun env ok bc₀ bc'

variable {ok : Blockchain → Block → TxLoop → Prop} {bc₀ : Blockchain}

/-- The condition of the two sections above. -/
def MintOk (bc : Blockchain) (bl : Block) (s : TxLoop) : Prop := FeesFit bl s ∧ SizesFit bc s

/-- A property of chains that every prefix keeps and every accepted block
preserves holds over a run. -/
theorem MintRun.chain_induction {P : List StoredBlock → Prop} (hshorter : ∀ c r, P (c ++ [r]) → P c)
    (hstep : ∀ now bc bl s record, P bc.db.chain → bc.txPool.FeesRecorded →
      Accepted env now bc bl (env.blockHash bl) s record → ok bc bl s →
      P (bc.db.chain ++ [record])) (hstart : P bc₀.db.chain) (hpool : bc₀.txPool.FeesRecorded)
    (hrun : MintRun env ok bc₀ bc) : P bc.db.chain ∧ bc.txPool.FeesRecorded := by
  induction hrun with
  | refl => exact ⟨hstart, hpool⟩
  | other _ hchain hpool ih => exact ⟨by rw [hchain]; exact ih.1, hpool⟩
  | @handle bc bl now _ hok ih =>
    refine ⟨?_, mainChain_feesRecorded ih.2⟩
    rcases mainChain_inv env now bc bl (env.blockHash bl) with
      ⟨-, -, hsame⟩ | ⟨-, -, s, record, hacc, hafter⟩
    · rw [hsame.db]
      exact ih.1
    · rw [hafter, hacc.chain_eq.1]
      exact hstep now bc bl s record ih.1 ih.2 hacc (hok s record hacc)
  | @pop bc bc' b now _ hpop ih =>
    rcases List.eq_nil_or_concat' bc.db.chain with hnil | ⟨c, record, hc⟩
    · rw [popBlockFromBlockchain, hnil] at hpop
      cases hpop
    · rw [popFromChain_concat hc] at hpop
      cases hpop
      refine ⟨?_, ih.2.returnTxs _ _ _ _⟩
      rw [afterPop_chain hc]
      exact hshorter c record (hc ▸ ih.1)

/-- **The ledger over a run.** -/
theorem MintRun.ledger (hledger : Ledger bc₀.db.chain) (hpool : bc₀.txPool.FeesRecorded)
    (hrun : MintRun env MintOk bc₀ bc) : Ledger bc.db.chain ∧ bc.txPool.FeesRecorded := by
  refine hrun.chain_induction (fun c r h => h.of_prefix ⟨[r], rfl⟩) ?_ hledger hpool
  intro now bc bl s record hledger hpool hacc hok
  exact hacc.ledger hledger hpool hok.1 hok.2

def mintingBlock (height amount : Nat) : Block :=
  let b := sampleBlock 1 height (height - 1) height (120 * height)
  { b with minerTx := { b.minerTx with vout := [⟨amount, .toKey (nullBlob 32)⟩] } }

def mint (bc : Blockchain) (amount : Nat) : Blockchain :=
  (bc.handleBlockToMainChain .permissive 10000 (mintingBlock bc.db.height amount)
    (Env.permissive.blockHash (mintingBlock bc.db.height amount))).2

def mintingNode (amounts : List Nat) : Blockchain :=
  amounts.foldl mint (startEmpty plainTable)

theorem mintingNode_concat (amounts : List Nat) (a : Nat) :
    mintingNode (amounts ++ [a]) = (mintingNode amounts).mint a := by
  simp [mintingNode]

theorem mint_mintRun {amount : Nat} (hamount : amount < 2 ^ 64)
    (hrun : MintRun .permissive MintOk bc₀ bc) :
    MintRun .permissive MintOk bc₀ (bc.mint amount) := by
  refine hrun.handle 10000 fun s record hacc => ?_
  have hloop := hacc.txs
  cases hloop
  refine ⟨⟨fun o ho => ?_, by simp [feeSum]⟩, fun hsize => absurd hsize (Nat.not_lt_zero _)⟩
  obtain rfl : o = ⟨amount, .toKey (nullBlob 32)⟩ := List.mem_singleton.mp ho
  exact hamount

theorem mintingNode_mintRun (amounts more : List Nat) (hmore : ∀ a ∈ more, a < 2 ^ 64) :
    MintRun .permissive MintOk (mintingNode amounts) (mintingNode (amounts ++ more)) := by
  induction more using List.reverseRecOn with
  | nil => rw [List.append_nil]; exact .refl
  | append_singleton more a ih =>
    rw [← List.append_assoc, mintingNode_concat]
    exact mint_mintRun (hmore a (by simp)) (ih fun b hb => hmore b (by simp [hb]))

end Blockchain

end Lethean
