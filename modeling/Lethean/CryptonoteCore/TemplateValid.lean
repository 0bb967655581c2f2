import Lethean.CryptonoteCore.AltTimestamps
import Lethean.CryptonoteCore.BlockTemplate

/-!
# Lethean.CryptonoteCore.TemplateValid

Does a node accept its own template? `create_block_template` and the validation
compute timestamp, reward and size separately.

* The timestamp. When the clock is too early, the template falls back to the
  median, or to 500 seconds before the top block. `check_block_timestamp` compares
  with the latest block of the window, because the median has sorted the vector
  whose last entry it takes for the top block, and with the clock once more.
* The reward. From version 4 on the template rounds reward plus fees down; the
  validation takes the fees off the rounded sum, and fails if they are not in it.
  Before version 6 the template may use a smaller median than the validation,
  which never raises the reward.

Both conditions are exact.
-/

namespace Lethean

/-! ### Rewards for two medians -/

theorem penalty_mono {m m' c : Nat} (hm : m ≤ m') (hc : m' ≤ c) (hc2 : c ≤ 2 * m) :
    (2 * m - c) * c * (m' * m') ≤ (2 * m' - c) * c * (m * m) := by
  obtain ⟨e, rfl⟩ := Nat.exists_eq_add_of_le hm
  obtain ⟨f, rfl⟩ := Nat.exists_eq_add_of_le hc
  obtain ⟨d, hd⟩ := Nat.exists_eq_add_of_le hc2
  obtain rfl : m = e + f + d := by omega
  rw [show 2 * (e + f + d) - (e + f + d + e + f) = d by omega,
    show 2 * (e + f + d + e) - (e + f + d + e + f) = d + 2 * e by omega]
  have hfactor : d * ((e + f + d + e) * (e + f + d + e)) ≤
      (d + 2 * e) * ((e + f + d) * (e + f + d)) := by
    nlinarith [Nat.zero_le (e * e * e), Nat.zero_le (e * e * f), Nat.zero_le (e * e * d),
      Nat.zero_le (e * f * d), Nat.zero_le (e * f * f)]
  nlinarith [Nat.zero_le (e + f + d + e + f)]

theorem div_le_div_of_mul_le {a b a' b' : Nat} (hb : 0 < b) (hb' : 0 < b')
    (h : a * b' ≤ a' * b) : a / b ≤ a' / b' := by
  rw [Nat.le_div_iff_mul_le hb']
  have hfloor : a / b * b ≤ a := Nat.div_mul_le_self a b
  have hscaled : a / b * b' * b ≤ a' * b := by
    calc a / b * b' * b = a / b * b * b' := by ring
      _ ≤ a * b' := Nat.mul_le_mul_right b' hfloor
      _ ≤ a' * b := h
  exact Nat.le_of_mul_le_mul_right hscaled hb

/-- A larger median allows the same blocks and gives no less for them. -/
theorem getBlockReward_mono {m m' c coins version reward : Nat}
    (hm : max m (getMinBlockSize version) ≤ max m' (getMinBlockSize version))
    (hsize : max m (getMinBlockSize version) < c → max m (getMinBlockSize version) < 2 ^ 32)
    (hsize' : max m' (getMinBlockSize version) < c → max m' (getMinBlockSize version) < 2 ^ 32)
    (h : getBlockReward m c coins version = some reward) :
    ∃ reward', getBlockReward m' c coins version = some reward' ∧ reward ≤ reward' := by
  by_cases hfree' : c ≤ max m' (getMinBlockSize version)
  · -- no penalty for the larger median, and never more than the base reward
    refine ⟨baseRewardOf coins version, by rw [getBlockReward_eq, if_pos hfree'], ?_⟩
    by_cases hfree : c ≤ max m (getMinBlockSize version)
    · rw [getBlockReward_eq, if_pos hfree] at h
      exact (Option.some.inj h).ge
    by_cases hbig : 2 * max m (getMinBlockSize version) < c
    · rw [getBlockReward_eq, if_neg hfree, if_pos hbig] at h
      cases h
    rw [reward_of_penalised (hsize (by omega)) (by omega) (by omega)] at h
    rw [← Option.some.inj h]
    refine Nat.div_le_of_le_mul ?_
    rw [Nat.mul_comm (max m _ * max m _)]
    exact Nat.mul_le_mul_left _ (penalty_factor_le (by omega))
  · have hfree : ¬ c ≤ max m (getMinBlockSize version) := by omega
    by_cases hbig : 2 * max m (getMinBlockSize version) < c
    · rw [getBlockReward_eq, if_neg hfree, if_pos hbig] at h
      cases h
    rw [reward_of_penalised (hsize (by omega)) (by omega) (by omega)] at h
    refine ⟨_, reward_of_penalised (hsize' (by omega)) (by omega) (by omega), ?_⟩
    rw [← Option.some.inj h]
    have hpos : 0 < max m (getMinBlockSize version) := by omega
    refine div_le_div_of_mul_le (Nat.mul_pos hpos hpos)
      (Nat.mul_pos (hpos.trans_le hm) (hpos.trans_le hm)) ?_
    rw [Nat.mul_assoc (baseRewardOf coins version), Nat.mul_assoc (baseRewardOf coins version)]
    exact Nat.mul_le_mul_left _ (penalty_mono hm (by omega) (by omega))

/-- When the validation accepts what the template claims. The rewards are that of
the template and that of the validation. -/
theorem claimedReward_fits_iff {version reward reward' fee : Nat} (hle : reward ≤ reward')
    (hreward : reward' ≤ premineReward) (hfee : fee < 2 ^ 64) :
    (claimedReward version reward fee ≤ u64 (reward' + fee) ∧
        subU64 (claimedReward version reward fee) fee ≤ reward') ↔
      (reward + fee < 2 ^ 64 → reward' + fee < 2 ^ 64) ∧
        (4 ≤ version → u64 (reward + fee) % baseRewardClampThreshold ≤ reward) := by
  simp only [claimedReward, u64, subU64, baseRewardClampThreshold, premineReward] at hreward ⊢
  by_cases hversion : 4 ≤ version
  · simp only [hversion, if_true, true_implies]
    omega
  · simp only [hversion, if_false, false_implies, and_true]
    omega

namespace Blockchain

variable {env : Env} {bc : Blockchain} {args : TemplateArgs} {exNonce : List UInt8}
  {t : BlockTemplate}

/-! ### The two conditions -/

theorem blockTimestamp_iff (now : Nat) (b : BlockHeader) :
    bc.checkBlockTimestamp now b = true ↔ b.timestamp ≤ now + blockFutureTimeLimit ∧
      mainTimestampBound bc.currentVersion bc.db.chain ≤ b.timestamp := by
  unfold checkBlockTimestamp
  rw [checkTimestampOnChain_eq]
  by_cases hclock : now + blockFutureTimeLimit < b.timestamp
  · simp [hclock]
  · simp [hclock, Nat.le_of_not_lt hclock]

/-- A template has a timestamp that passes: the clock reaches the bound that the
chain sets, or the fallback does and is not too far ahead of the clock. -/
def TimestampFits (bc : Blockchain) (now : Nat) : Prop :=
  mainTimestampBound bc.currentVersion bc.db.chain ≤ now ∨
    mainTimestampBound bc.currentVersion bc.db.chain ≤ bc.fallbackTimestamp ∧
      bc.fallbackTimestamp ≤ now + blockFutureTimeLimit

/-- A block of the given size and fees can claim what a template claims. Of the two
rewards the first is that for the median of the template. They do not lie on
different sides of the largest integer once the fees are added, and from version
4 on the coins lost by rounding are at most the reward. -/
def RewardFits (bc : Blockchain) (cumulSzLimit size fee : Nat) : Prop :=
  ∀ reward ∈ getBlockReward (bc.templateMedian cumulSzLimit) size (topCoins bc.db)
    bc.currentVersion,
  ∀ reward' ∈ getBlockReward (median (lastBlocksSizes bc.db.chain)) size (topCoins bc.db)
    bc.currentVersion,
    (reward + fee < 2 ^ 64 → reward' + fee < 2 ^ 64) ∧
      (4 ≤ bc.currentVersion → u64 (reward + fee) % baseRewardClampThreshold ≤ reward)

/-- The clock when it passes, and else the fallback. -/
theorem blockTimestamp_template_iff (now : Nat) {b : BlockHeader}
    (hb : b.timestamp = bc.templateTimestamp now) :
    bc.checkBlockTimestamp now b = true ↔ bc.TimestampFits now := by
  rw [blockTimestamp_iff, hb]
  unfold templateTimestamp TimestampFits
  cases hnow : bc.checkBlockTimestamp now (bc.templateBase now).toBlockHeader with
  | true =>
    rw [blockTimestamp_iff, templateBase_timestamp] at hnow
    rw [if_pos rfl]
    exact iff_of_true hnow (.inl hnow.2)
  | false =>
    have hlow : ¬ mainTimestampBound bc.currentVersion bc.db.chain ≤ now := by
      intro hle
      rw [(blockTimestamp_iff now _).mpr ⟨by simp, by simpa using hle⟩] at hnow
      cases hnow
    rw [if_neg (by simp)]
    exact ⟨fun h => .inr ⟨h.2, h.1⟩, fun h => (h.resolve_left hlow).symm⟩

theorem max_templateMedian_le (cumulSzLimit : Nat) :
    max (bc.templateMedian cumulSzLimit) (getMinBlockSize bc.currentVersion) ≤
      max (median (lastBlocksSizes bc.db.chain)) (getMinBlockSize bc.currentVersion) := by
  unfold templateMedian
  dsimp only
  split <;> omega

theorem validateMiner_isSome_iff {chain : List StoredBlock} {b : Block}
    {size fee coins version reward : Nat}
    (h : getBlockReward (median (lastBlocksSizes chain)) size coins version = some reward) :
    (validateMinerTransaction chain b size fee coins version).isSome = true ↔
      b.minerTx.getOutsMoneyAmount ≤ u64 (reward + fee) ∧
        subU64 b.minerTx.getOutsMoneyAmount fee ≤ reward := by
  unfold validateMinerTransaction
  rw [h]
  dsimp only
  split
  · exact iff_of_false (by simp) fun h => by omega
  rename_i hmoney
  split
  · exact iff_of_false (by simp) fun h => by omega
  · rename_i hnet
    exact iff_of_true rfl ⟨Nat.le_of_not_lt hmoney, Nat.le_of_not_lt hnet⟩

/-! ### Templates -/

namespace IsTemplate

variable {b : Block} {key : PublicKey} {delta reward : Nat}

theorem prevalidate (h : IsTemplate env bc args exNonce b key delta reward) :
    prevalidateMinerTransaction b bc.db.height = true := by
  have hclaimed : claimedReward bc.currentVersion reward (templateFee bc.txPool b) < 2 ^ 64 := by
    have hsum := u64_lt (reward + templateFee bc.txPool b)
    unfold claimedReward
    split <;> omega
  have hoverflow := Transaction.checkOutsOverflow_of_sum_lt (h.pays.sum_le.trans_lt hclaimed)
  simp [prevalidateMinerTransaction, h.pays.vin, h.pays.unlockTime, hoverflow]

/-- The second check compares the claim with the reward for the larger median. -/
theorem validate_iff (h : IsTemplate env bc args exNonce b key delta reward)
    (hassert : RewardAsserts (bc.templateMedian args.cumulSzLimit)
      (templateSize env bc.txPool b) bc.currentVersion)
    (hassert' : RewardAsserts (median (lastBlocksSizes bc.db.chain))
      (templateSize env bc.txPool b) bc.currentVersion) :
    (validateMinerTransaction bc.db.chain b (templateSize env bc.txPool b)
        (templateFee bc.txPool b) (topCoins bc.db) bc.currentVersion).isSome = true ↔
      bc.RewardFits args.cumulSzLimit (templateSize env bc.txPool b) (templateFee bc.txPool b) := by
  obtain ⟨reward', hreward', hle⟩ :=
    getBlockReward_mono (max_templateMedian_le args.cumulSzLimit)
      (fun hlt => (hassert hlt).1.trans (by decide)) (fun hlt => (hassert' hlt).1.trans (by decide))
      h.reward_eq
  have hfee : templateFee bc.txPool b < 2 ^ 64 := u64_lt _
  rw [validateMiner_isSome_iff hreward', h.pays.money,
    claimedReward_fits_iff hle (getBlockReward_le hassert' hreward') hfee]
  unfold RewardFits
  rw [h.reward_eq, hreward']
  simp

end IsTemplate

/-- **A template is valid exactly if its timestamp and its reward fit.** The sizes
are such that the asserts of `get_block_reward` hold. -/
theorem template_valid_iff (h : (bc.createBlockTemplate env args exNonce).1 = some t)
    (hassert : RewardAsserts (bc.templateMedian args.cumulSzLimit)
      (templateSize env bc.txPool t.block) bc.currentVersion)
    (hassert' : RewardAsserts (median (lastBlocksSizes bc.db.chain))
      (templateSize env bc.txPool t.block) bc.currentVersion) :
    (bc.checkBlockTimestamp args.now t.block.toBlockHeader = true ∧
      prevalidateMinerTransaction t.block bc.db.height = true ∧
      (validateMinerTransaction bc.db.chain t.block (templateSize env bc.txPool t.block)
        (templateFee bc.txPool t.block) (topCoins bc.db) bc.currentVersion).isSome = true) ↔
      bc.TimestampFits args.now ∧
        bc.RewardFits args.cumulSzLimit (templateSize env bc.txPool t.block)
          (templateFee bc.txPool t.block) := by
  obtain ⟨key, delta, reward, htemplate⟩ := template_spec h
  rw [blockTimestamp_template_iff args.now htemplate.timestamp,
    htemplate.validate_iff hassert hassert']
  exact ⟨fun hvalid => ⟨hvalid.1, hvalid.2.2⟩,
    fun hfits => ⟨hfits.1, htemplate.prevalidate, hfits.2⟩⟩

def version5Table : ForkTable :=
  ⟨[⟨5, 0, 0, 0⟩], by decide, by decide, by decide, by decide⟩

def aheadChain : Blockchain :=
  let record (timestamp : Nat) :=
    StoredBlock.ofHeader ⟨5, 5, timestamp, nullHash, 0⟩ nullHash
  start (HardFork.new version5Table HardFork.defaultWindowSize HardFork.defaultWindowSize_pos)
    ⟨List.replicate 5 (record 1000) ++ [record 1800] ++ List.replicate 5 (record 1000),
      fun _ => none⟩ .empty

def aheadArgs (now : Nat) : TemplateArgs :=
  { now := now
    cumulSzLimit := aheadChain.updateNextCumulativeSizeLimit
    walk := []
    readyToGo := fun _ _ => true
    keys := fun _ => ⟨nullBlob 32, fun _ => some (nullBlob 32)⟩ }

theorem aheadChain_template {now : Nat} (hnow : now = 1000 ∨ now = 1400) :
    ∃ t, (aheadChain.createBlockTemplate .permissive (aheadArgs now) []).1 = some t := by
  rw [← Option.isSome_iff_exists]
  rcases hnow with rfl | rfl <;> decide +kernel

theorem aheadChain_size (b : Block) : templateSize .permissive aheadChain.txPool b = 0 := by
  have hsizes : aheadChain.txPool.blobSizes b.txHashes = 0 := by
    simp [aheadChain, start, TxPool.empty, TxPool.blobSizes]
  rw [templateSize, hsizes]
  rfl

/-- At 1400 the clock passes, and so does the template. -/
theorem template_valid_at_1400 :
    ∃ t, (aheadChain.createBlockTemplate .permissive (aheadArgs 1400) []).1 = some t ∧
      aheadChain.checkBlockTimestamp 1400 t.block.toBlockHeader = true ∧
      prevalidateMinerTransaction t.block aheadChain.db.height = true ∧
      (validateMinerTransaction aheadChain.db.chain t.block
        (templateSize .permissive aheadChain.txPool t.block)
        (templateFee aheadChain.txPool t.block) (topCoins aheadChain.db)
        aheadChain.currentVersion).isSome = true := by
  obtain ⟨t, ht⟩ := aheadChain_template (.inr rfl)
  have hasserts : ∀ m, RewardAsserts m (templateSize .permissive aheadChain.txPool t.block)
      aheadChain.currentVersion := by
    intro m hlt
    rw [aheadChain_size] at hlt
    omega
  refine ⟨t, ht, (template_valid_iff ht (hasserts _) (hasserts _)).mpr ⟨.inl (by decide +kernel), ?_⟩⟩
  intro reward _ reward' hreward'
  have hfee : templateFee aheadChain.txPool t.block = 0 := by
    simp [aheadChain, start, TxPool.empty, templateFee, TxPool.fees, u64]
  have hbound := getBlockReward_le (hasserts _) hreward'
  rw [hfee]
  refine ⟨fun _ => hbound.trans_lt (by decide), fun _ => ?_⟩
  exact (Nat.mod_le _ _).trans (u64_le _)

/-- At 1000 the clock and the fallback are more than 500 seconds behind the sixth
block. The timestamps from 1300 to 1500 would pass. -/
theorem template_timestamp_too_early :
    (∃ t, (aheadChain.createBlockTemplate .permissive (aheadArgs 1000) []).1 = some t ∧
      aheadChain.checkBlockTimestamp 1000 t.block.toBlockHeader = false) ∧
      ∀ timestamp, 1300 ≤ timestamp → timestamp ≤ 1500 →
        aheadChain.checkBlockTimestamp 1000 ⟨5, 5, timestamp, nullHash, 0⟩ = true := by
  have hbound : mainTimestampBound aheadChain.currentVersion aheadChain.db.chain = 1300 := by
    decide +kernel
  constructor
  · obtain ⟨t, ht⟩ := aheadChain_template (.inl rfl)
    obtain ⟨key, delta, reward, htemplate⟩ := template_spec ht
    have hfallback : aheadChain.fallbackTimestamp = 1000 := by decide +kernel
    refine ⟨t, ht, Bool.eq_false_iff.mpr fun hpass => ?_⟩
    have hfits := (blockTimestamp_template_iff 1000 htemplate.timestamp).mp hpass
    rw [TimestampFits, hbound, hfallback] at hfits
    omega
  · intro timestamp hlow hhigh
    rw [blockTimestamp_iff, hbound]
    exact ⟨hhigh, hlow⟩

/-! ### The timestamp of the top block -/

def lastTimestamps (bc : Blockchain) : List Nat := (bc.db.chain.rtake 11).map (·.timestamp)

def latestTimestamp (bc : Blockchain) : Nat := (sortU64 bc.lastTimestamps).getLast?.getD 0

def topTimestamp (bc : Blockchain) : Nat := bc.db.chain.getLast?.elim 0 (·.timestamp)

/-- The rule from version 5 on: not too far ahead of the clock, and once there are eleven
blocks, neither before their median nor more than 500 seconds before the top block. -/
def TimestampRule (bc : Blockchain) (now timestamp : Nat) : Prop :=
  timestamp ≤ now + 500 ∧ (11 ≤ bc.db.chain.length →
    median bc.lastTimestamps ≤ timestamp ∧ (bc.topTimestamp : Int) - 500 ≤ timestamp)

theorem le_latestTimestamp {timestamp : Nat} (h : timestamp ∈ bc.lastTimestamps) :
    timestamp ≤ bc.latestTimestamp := by
  have hmem : timestamp ∈ sortU64 bc.lastTimestamps := (List.perm_insertionSort _ _).mem_iff.mpr h
  rw [latestTimestamp, List.getLast?_eq_getLast_of_ne_nil (List.ne_nil_of_mem hmem)]
  exact (List.pairwise_insertionSort _ _).rel_getLast hmem

theorem latestTimestamp_lt (h64 : ∀ record ∈ bc.db.chain, record.timestamp < 2 ^ 64) :
    bc.latestTimestamp < 2 ^ 64 := by
  unfold latestTimestamp
  cases hlast : (sortU64 bc.lastTimestamps).getLast? with
  | none => simp
  | some latest =>
    have hmem : latest ∈ bc.lastTimestamps :=
      (List.perm_insertionSort _ _).mem_iff.mp (List.mem_of_getLast? hlast)
    obtain ⟨record, hrecord, rfl⟩ := List.mem_map.mp hmem
    exact h64 record (List.mem_of_mem_drop hrecord)

theorem topTimestamp_le (h : 11 ≤ bc.db.chain.length) :
    bc.topTimestamp ≤ bc.latestTimestamp := by
  rcases List.eq_nil_or_concat' bc.db.chain with hnil | ⟨c, record, hchain⟩
  · simp [hnil] at h
  · refine le_latestTimestamp ?_
    rw [topTimestamp, lastTimestamps, hchain, Window.rtake_append_of_ge _ _ (by simp)]
    simp

/-- **Timestamps follow the rule**: for a clock and a block, unless the rule allows the block and
it is more than 500 seconds (in 64 bits) before the latest one in the window. For all clocks and
blocks, exactly on chains that are too short, or whose latest block in the window is not before
500, and not after the top block and 500 seconds after the median. -/
theorem timestamp_rule_iff (hversion : 5 ≤ bc.currentVersion)
    (h64 : ∀ record ∈ bc.db.chain, record.timestamp < 2 ^ 64) :
    (∀ (now : Nat) (b : BlockHeader),
      (bc.checkBlockTimestamp now b = true ↔ bc.TimestampRule now b.timestamp) ↔
        (bc.TimestampRule now b.timestamp →
          bc.db.chain.length < 11 ∨ subU64 bc.latestTimestamp 500 ≤ b.timestamp)) ∧
    ((∀ (now : Nat) (b : BlockHeader),
        bc.checkBlockTimestamp now b = true ↔ bc.TimestampRule now b.timestamp) ↔
      bc.db.chain.length < 11 ∨ 500 ≤ bc.latestTimestamp ∧
        bc.latestTimestamp ≤ max (median bc.lastTimestamps + 500) bc.topTimestamp) := by
  have hwindow : timestampCheckWindow bc.currentVersion = 11 := if_neg (by omega)
  have hbound : mainTimestampBound bc.currentVersion bc.db.chain =
      if bc.db.chain.length < 11 then 0
      else max (median bc.lastTimestamps) (subU64 bc.latestTimestamp 500) := by
    simp only [mainTimestampBound, hwindow, timestampBound, if_pos hversion]
    rfl
  simp only [blockTimestamp_iff, hbound, TimestampRule, blockFutureTimeLimit]
  by_cases hlen : bc.db.chain.length < 11
  · simp [hlen, Nat.not_le.mpr hlen]
  have htop := topTimestamp_le (Nat.le_of_not_lt hlen)
  have hmedian : median bc.lastTimestamps ≤ bc.latestTimestamp :=
    median_le fun _ => le_latestTimestamp
  have hlatest := latestTimestamp_lt h64
  simp only [hlen, if_false, Nat.le_of_not_lt hlen, true_implies, false_or, subU64]
  refine ⟨fun now b => by omega, ?_, ?_⟩
  · intro h
    -- a block with the least timestamp that the rule allows
    have hleast := h (max (median bc.lastTimestamps) (bc.topTimestamp - 500))
      ⟨5, 5, max (median bc.lastTimestamps) (bc.topTimestamp - 500), nullHash, 0⟩
    dsimp only at hleast
    omega
  · intro h now b
    omega

def evenChain : Blockchain :=
  { aheadChain with
    db := ⟨aheadChain.db.chain.take 1 ++ aheadChain.db.chain.eraseIdx 5, fun _ => none⟩ }

theorem timestamp_rule_even :
    11 ≤ evenChain.db.chain.length ∧ ∀ (now : Nat) (b : BlockHeader),
      evenChain.checkBlockTimestamp now b = true ↔ evenChain.TimestampRule now b.timestamp :=
  ⟨by decide +kernel, (timestamp_rule_iff (by decide +kernel) (by decide +kernel)).2.mpr
    (.inr (by decide +kernel))⟩

/-- A block 100 seconds after the top block is refused for the sixth block. -/
theorem timestamp_after_top_refused :
    aheadChain.checkBlockTimestamp 1000 ⟨5, 5, 1100, nullHash, 0⟩ = false ∧
      aheadChain.TimestampRule 1000 1100 := by
  have hmedian : median aheadChain.lastTimestamps = 1000 := by decide +kernel
  have htop : aheadChain.topTimestamp = 1000 := by decide +kernel
  refine ⟨by decide +kernel, by decide, fun _ => ?_⟩
  rw [hmedian, htop]
  decide

end Blockchain

end Lethean
