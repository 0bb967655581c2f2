import Lethean.Lib.SignificantBits
import Lethean.CryptonoteCore.BlockTemplate
import Lethean.CryptonoteCore.Emission

/-!
# Lethean.CryptonoteCore.DynamicFee

The fee per kB from version 4 on (`blockchain.cpp`): what a wallet is quoted
(`get_dynamic_per_kb_fee_estimate`) and what a transaction has to pay
(`check_fee`). Both take the fee from the same function of a median block size,
and it falls as the median grows. The quote uses the median of the last blocks,
padded with blocks of the minimal size; the check uses half of the size limit
that is kept in a member variable, and that limit grows with the height alone in
the versions up to 8.
-/

namespace Lethean

/-! ### The fee per kB -/

def hfVersionDynamicFee : Nat := 4
def legacyMinimumFee : Nat := 100000
/-- `FEE_PER_KB`. -/
def defaultFeePerKb : Nat := 100000
def dynamicFeePerKbBaseFee : Nat := 200000
def dynamicFeePerKbBaseBlockReward : Nat := 100000000000
def blockRewardOverestimate : Nat := 10 * 100000000
/-- `CRYPTONOTE_REWARD_BLOCKS_WINDOW`. -/
def rewardBlocksWindow : Nat := 100

/-- `get_fee_quantization_mask`: a power of ten for every decimal of
`CRYPTONOTE_DISPLAY_DECIMAL_POINT` after `PER_KB_FEE_QUANTIZATION_DECIMALS`. -/
def getFeeQuantizationMask : Nat := 10 ^ (8 - 8)

/-- `get_dynamic_per_kb_fee`. The product is divided with 128 bits, in two steps;
the low word of the quotient is rounded up to a multiple of the mask. -/
def getDynamicPerKbFee (blockReward medianBlockSize version : Nat) : Nat :=
  let minBlockSize := getMinBlockSize version
  let medianBlockSize := if medianBlockSize < minBlockSize then minBlockSize else medianBlockSize
  let unscaledFeePerKb := u64 (dynamicFeePerKbBaseFee * minBlockSize) / medianBlockSize
  let lo := u64 (unscaledFeePerKb * blockReward / (dynamicFeePerKbBaseBlockReward / 1000000) /
    1000000)
  let mask := getFeeQuantizationMask
  u64 (subU64 (u64 (lo + mask)) 1 / mask * mask)

/-- The fee per kB as a function of the median, which is at least the minimal
block size: a share of the reward, smaller for larger blocks. -/
def feeAtMedian (reward median : Nat) : Nat := 200000000000 / median * reward / 100000000000

theorem feeAtMedian_anti (reward : Nat) {m m' : Nat} (hpos : 0 < m) (h : m ≤ m') :
    feeAtMedian reward m' ≤ feeAtMedian reward m :=
  Nat.div_le_div_right (Nat.mul_le_mul_right _ (Nat.div_le_div_left h hpos))

theorem minBlockSize_of_dynamicFee {version : Nat} (h : hfVersionDynamicFee ≤ version) :
    getMinBlockSize version = 1000000 := by
  have hversion : 4 ≤ version := h
  unfold getMinBlockSize
  rw [if_neg (by omega)]
  split <;> rfl

/-- No step of `get_dynamic_per_kb_fee` wraps: the fee of a reward below `2 ^ 54`
is far below `2 ^ 64`. -/
theorem getDynamicPerKbFee_eq {reward version : Nat} (hversion : hfVersionDynamicFee ≤ version)
    (hreward : reward < 2 ^ 54) (m : Nat) :
    getDynamicPerKbFee reward m version = feeAtMedian reward (max m 1000000) := by
  have hmedian : (if m < 1000000 then 1000000 else m) = max m 1000000 := by
    split <;> omega
  have hbase : u64 (dynamicFeePerKbBaseFee * 1000000) = 200000000000 := by decide
  have hquot : 200000000000 / max m 1000000 ≤ 200000 := by
    refine (Nat.div_le_div_left (le_max_right m 1000000) (by decide)).trans ?_
    decide
  have hfee : feeAtMedian reward (max m 1000000) < 2 ^ 63 := by
    refine Nat.div_lt_of_lt_mul ?_
    calc
      200000000000 / max m 1000000 * reward ≤ 200000 * 2 ^ 54 := Nat.mul_le_mul hquot hreward.le
      _ < 100000000000 * 2 ^ 63 := by decide
  have hsteps : 200000000000 / max m 1000000 * reward / (100000000000 / 1000000) / 1000000 =
      feeAtMedian reward (max m 1000000) := by
    rw [Nat.div_div_eq_div_mul, feeAtMedian]
  have hmask : getFeeQuantizationMask = 1 := rfl
  simp only [getDynamicPerKbFee, minBlockSize_of_dynamicFee hversion, hmedian, hbase,
    dynamicFeePerKbBaseBlockReward, hsteps, hmask, Nat.div_one, Nat.mul_one]
  rw [u64_of_lt (n := feeAtMedian _ _) (by omega), u64_of_lt (n := feeAtMedian _ _ + 1) (by omega),
    subU64_of_le (by omega) (by omega), Nat.add_sub_cancel, u64_of_lt (by omega)]

/-! ### The reward of a small block -/

theorem baseRewardOf_lt (coins version : Nat) : baseRewardOf coins version < 2 ^ 54 := by
  unfold baseRewardOf emissionCurve
  split
  · decide
  · refine max_lt ?_ (by decide)
    refine Nat.div_lt_of_lt_mul ((subU64_lt _ _).trans_le ?_)
    decide

theorem getBlockReward_one {version : Nat} (hversion : hfVersionDynamicFee ≤ version)
    (m coins : Nat) : getBlockReward m 1 coins version = some (baseRewardOf coins version) := by
  rw [getBlockReward_eq, minBlockSize_of_dynamicFee hversion, if_pos (by omega)]

/-! ### Quote and check -/

def startedKb (blobSize : Nat) : Nat := blobSize / 1024 + if blobSize % 1024 = 0 then 0 else 1

/-- The numerator of the `double` nearest to `0.98`, over `2 ^ 53`. -/
def acceptedShare : Nat := 8827055269646172

/-- `fee < needed_fee * 0.98`. Both amounts are converted to `double`, which has 53
significant bits, and the product is rounded once more. -/
def feeBelow (fee neededFee : Nat) : Bool :=
  SignificantBits.round 53 fee * 2 ^ 53 <
    SignificantBits.round 53 (SignificantBits.round 53 neededFee * acceptedShare)

/-- Whoever pays what is needed passes, whatever the conversions do. -/
theorem feeBelow_of_le {fee neededFee : Nat} (h : neededFee ≤ fee) :
    feeBelow fee neededFee = false := by
  rw [feeBelow, decide_eq_false_iff_not, not_lt]
  calc
    SignificantBits.round 53 (SignificantBits.round 53 neededFee * acceptedShare)
        ≤ SignificantBits.round 53 neededFee * 2 ^ 53 :=
      SignificantBits.round_mul_le (by decide) (by decide) neededFee
    _ ≤ SignificantBits.round 53 fee * 2 ^ 53 :=
      Nat.mul_le_mul_right _ (SignificantBits.round_mono (by decide) h)

namespace Blockchain

/-- `check_fee`, the fee per kB it asks for. `none` is the return value `false`. -/
def checkedFeePerKb (bc : Blockchain) (cumulSzLimit : Nat) : Option Nat :=
  let median := cumulSzLimit / 2
  (getBlockReward median 1 (topCoins bc.db) bc.currentVersion).map fun baseReward =>
    getDynamicPerKbFee baseReward median bc.currentVersion

/-- `check_fee`, with `m_current_block_cumul_sz_limit`. -/
def checkFee (bc : Blockchain) (cumulSzLimit blobSize fee : Nat) : Bool :=
  if bc.currentVersion < hfVersionDynamicFee then legacyMinimumFee ≤ fee
  else
    match bc.checkedFeePerKb cumulSzLimit with
    | none => false
    | some feePerKb => !feeBelow fee (u64 (startedKb blobSize * feePerKb))

/-- The block sizes of the estimate: the last blocks, and blocks of the minimal
size in place of the oldest ones. -/
def paddedSizes (bc : Blockchain) (graceBlocks : Nat) : List Nat :=
  let graceBlocks :=
    if rewardBlocksWindow ≤ graceBlocks then rewardBlocksWindow - 1 else graceBlocks
  (bc.db.chain.rtake (rewardBlocksWindow - graceBlocks)).map (·.size) ++
    List.replicate graceBlocks (getMinBlockSize bc.currentVersion)

def getDynamicPerKbFeeEstimate (bc : Blockchain) (graceBlocks : Nat) : Nat :=
  if bc.currentVersion < hfVersionDynamicFee then defaultFeePerKb
  else
    let median := max (median (bc.paddedSizes graceBlocks)) (getMinBlockSize bc.currentVersion)
    let baseReward := (getBlockReward median 1 (topCoins bc.db) bc.currentVersion).getD
      blockRewardOverestimate
    getDynamicPerKbFee baseReward median bc.currentVersion

/-- The quoted fee is no less than the fee that the check asks for, and a
transaction of any size that pays it for each started kB passes. The fee of a
transaction is a `uint64_t`. -/
def QuotedFeeAccepted (bc : Blockchain) (cumulSzLimit graceBlocks : Nat) : Prop :=
  (∃ feePerKb, bc.checkedFeePerKb cumulSzLimit = some feePerKb ∧
    feePerKb ≤ bc.getDynamicPerKbFeeEstimate graceBlocks) ∧
  ∀ blobSize, startedKb blobSize * bc.getDynamicPerKbFeeEstimate graceBlocks < 2 ^ 64 →
    bc.checkFee cumulSzLimit blobSize
      (startedKb blobSize * bc.getDynamicPerKbFeeEstimate graceBlocks) = true

variable {bc : Blockchain}

def feeReward (bc : Blockchain) : Nat := baseRewardOf (topCoins bc.db) bc.currentVersion

section

variable (hversion : hfVersionDynamicFee ≤ bc.currentVersion)
include hversion

theorem checkedFeePerKb_eq (limit : Nat) :
    bc.checkedFeePerKb limit = some (feeAtMedian bc.feeReward (max (limit / 2) 1000000)) := by
  simp only [checkedFeePerKb, getBlockReward_one hversion, Option.map_some]
  rw [getDynamicPerKbFee_eq hversion (baseRewardOf_lt _ _), feeReward]

theorem feeEstimate_eq (grace : Nat) :
    bc.getDynamicPerKbFeeEstimate grace =
      feeAtMedian bc.feeReward (max (median (bc.paddedSizes grace)) 1000000) := by
  simp only [getDynamicPerKbFeeEstimate, if_neg (not_lt.mpr hversion),
    getBlockReward_one hversion, Option.getD_some, minBlockSize_of_dynamicFee hversion]
  rw [getDynamicPerKbFee_eq hversion (baseRewardOf_lt _ _), feeReward, max_assoc, max_self]

/-- A fee per kB that is no less than the one asked for is enough for every size:
the amount that is needed may wrap, but then it is smaller. -/
theorem checkFee_of_le {limit feePerKb paid : Nat}
    (hchecked : bc.checkedFeePerKb limit = some feePerKb) (h : feePerKb ≤ paid) (blobSize : Nat) :
    bc.checkFee limit blobSize (startedKb blobSize * paid) = true := by
  have hneeded : u64 (startedKb blobSize * feePerKb) ≤ startedKb blobSize * paid :=
    (Nat.mod_le _ _).trans (Nat.mul_le_mul_left _ h)
  simp only [checkFee, if_neg (not_lt.mpr hversion), hchecked, feeBelow_of_le hneeded, Bool.not_false]

theorem quotedFeeAccepted_iff_le (limit grace : Nat) :
    QuotedFeeAccepted bc limit grace ↔
      feeAtMedian bc.feeReward (max (limit / 2) 1000000) ≤
        feeAtMedian bc.feeReward (max (median (bc.paddedSizes grace)) 1000000) := by
  have hchecked := checkedFeePerKb_eq hversion limit
  rw [← feeEstimate_eq hversion]
  constructor
  · rintro ⟨⟨feePerKb, hfee, hle⟩, -⟩
    rw [hchecked] at hfee
    cases hfee
    exact hle
  · intro hle
    exact ⟨⟨_, hchecked, hle⟩, fun blobSize _ => checkFee_of_le hversion hchecked hle blobSize⟩

end

/-- **When the quoted fee is accepted.** From version 4 on, for every size limit and
every number of grace blocks: the median of the padded sizes is at most half of
the size limit (the minimal block size counting for both), or it is larger and the
difference is lost when the fee is rounded down. -/
theorem quotedFeeAccepted_iff (hversion : hfVersionDynamicFee ≤ bc.currentVersion)
    (limit grace : Nat) :
    QuotedFeeAccepted bc limit grace ↔
      max (median (bc.paddedSizes grace)) 1000000 ≤ max (limit / 2) 1000000 ∨
      200000000000 / max (median (bc.paddedSizes grace)) 1000000 * bc.feeReward / 100000000000 =
        200000000000 / max (limit / 2) 1000000 * bc.feeReward / 100000000000 := by
  rw [quotedFeeAccepted_iff_le hversion]
  constructor
  · intro hle
    rcases le_total (max (median (bc.paddedSizes grace)) 1000000) (max (limit / 2) 1000000)
      with hmedian | hmedian
    · exact .inl hmedian
    · exact .inr (le_antisymm (feeAtMedian_anti _ (by omega) hmedian) hle)
  · rintro (hmedian | heq)
    · exact feeAtMedian_anti _ (by omega) hmedian
    · exact heq.ge

/-! ### A chain of large blocks -/

/-- A miner transaction takes up 2000000 bytes. -/
def growingEnv : Env := { Env.permissive with blobSize := fun _ => 2000000 }

def growingTable : ForkTable :=
  ⟨[⟨4, 0, 0, 0⟩], by decide, by decide, by decide, .singleton _⟩

/-- A new node, handed `n` version 4 blocks of twice the minimal size that pay out nothing. -/
def growingNode (n : Nat) : Blockchain :=
  (List.range n).foldl (fun bc height =>
    (bc.handleBlockToMainChain growingEnv 0 (sampleBlock 4 height (height - 1) height 0)
      (numberedHash height)).2) (startEmpty growingTable)

/-- Three of these blocks, and ten of the minimal size for the quote. -/
theorem quotedFeeAccepted_growing : (growingNode 3).db.height = 3 ∧
    hfVersionDynamicFee ≤ (growingNode 3).currentVersion ∧
    QuotedFeeAccepted (growingNode 3) (growingNode 3).updateNextCumulativeSizeLimit 10 := by
  have hversion : hfVersionDynamicFee ≤ (growingNode 3).currentVersion := by decide +kernel
  exact ⟨by decide +kernel, hversion, (quotedFeeAccepted_iff hversion _ 10).mpr
    (.inl (by decide +kernel))⟩

/-- **A quote that is refused.** After twenty version 4 blocks of twice the minimal size the quote
is half of what the check asks for: its size limit is the one of the height, 20752 bytes. -/
theorem quotedFee_refused :
    let bc := growingNode 20
    bc.db.height = 20 ∧ hfVersionDynamicFee ≤ bc.currentVersion ∧
      bc.updateNextCumulativeSizeLimit = 20752 ∧ bc.getDynamicPerKbFeeEstimate 0 = 190635 ∧
      bc.checkedFeePerKb bc.updateNextCumulativeSizeLimit = some 381271 ∧
      bc.checkFee bc.updateNextCumulativeSizeLimit 1024 190635 = false := by
  decide +kernel

end Blockchain

end Lethean
