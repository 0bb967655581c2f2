import Lethean.CryptonoteCore.TemplateValid
import Lethean.Common.Int128

/-!
# Lethean.CryptonoteCore.RewardPenalty

`get_block_reward` on machine words. A block above the median loses a share of
its reward that grows with the square of the excess; the source computes what is
left as a 128-bit product, divided twice by the 32-bit median with `div128_32`.
The chain modules use the number `getBlockReward` instead; `Words.getBlockReward_eq`
connects the two. The two floors are one, and the reward is monotone in both
sizes.
-/

namespace Lethean

namespace Words

/-! ### The function -/

/-- `base_reward` of `get_block_reward`, with the premine. -/
def baseReward (alreadyGeneratedCoins : UInt64) (version : UInt8) : UInt64 :=
  let origAlreadyGeneratedCoins := alreadyGeneratedCoins
  let alreadyGeneratedCoins :=
    if version < 8 ∧ 14992413379483553 ≤ origAlreadyGeneratedCoins then
      alreadyGeneratedCoins - 14992032107906461
    else alreadyGeneratedCoins
  let baseReward := (99948151623421337 - alreadyGeneratedCoins) >>> 19
  let baseReward := if baseReward < 5800000000 then 5800000000 else baseReward
  if 0 < origAlreadyGeneratedCoins ∧ origAlreadyGeneratedCoins < 14992413379483553 then
    14992222743513202
  else baseReward

/-- The last part of `get_block_reward`: `reward_lo`. -/
def penalisedReward (baseReward medianSize currentBlockSize : UInt64) : UInt64 :=
  let multiplicand := (2 * medianSize - currentBlockSize) * currentBlockSize
  let (productLo, productHi) := mul128 baseReward multiplicand
  let (rewardLo, rewardHi, _) := div128By32 productHi productLo medianSize.toUInt32
  let (rewardLo, _, _) := div128By32 rewardHi rewardLo medianSize.toUInt32
  rewardLo

/-- `get_block_reward`; `none` is the return value `false`. -/
def getBlockReward (medianSize currentBlockSize alreadyGeneratedCoins : UInt64) (version : UInt8) :
    Option UInt64 :=
  let fullRewardZone := UInt64.ofNat (getMinBlockSize version.toNat)
  let medianSize := if medianSize < fullRewardZone then fullRewardZone else medianSize
  if currentBlockSize ≤ medianSize then some (baseReward alreadyGeneratedCoins version)
  else if 2 * medianSize < currentBlockSize then none
  else
    some (penalisedReward (baseReward alreadyGeneratedCoins version) medianSize currentBlockSize)

/-! ### Its words -/

theorem toNat_sub_eq (a b : UInt64) : (a - b).toNat = subU64 a.toNat b.toNat := by
  have := b.toNat_lt
  rw [UInt64.toNat_sub, subU64]
  congr 1
  omega

theorem toNat_subsidy (taken : UInt64) :
    UInt64.toNat (if (99948151623421337 - taken) >>> 19 < 5800000000 then 5800000000
        else (99948151623421337 - taken) >>> 19) =
      max (subU64 moneySupply taken.toNat / 2 ^ (emissionSpeedFactorPerMinute - (2 - 1)))
        (finalSubsidyPerMinute * 2) := by
  have hshift : ((99948151623421337 - taken) >>> 19).toNat =
      subU64 moneySupply taken.toNat / 2 ^ 19 := by
    rw [UInt64.toNat_shiftRight, Nat.shiftRight_eq_div_pow, toNat_sub_eq]
    rfl
  have hlt : (99948151623421337 - taken) >>> 19 < 5800000000 ↔
      subU64 moneySupply taken.toNat / 2 ^ 19 < 5800000000 := by
    rw [UInt64.lt_iff_toNat_lt, hshift]
    rfl
  show _ = max (subU64 moneySupply taken.toNat / 2 ^ 19) 5800000000
  by_cases h : subU64 moneySupply taken.toNat / 2 ^ 19 < 5800000000
  · rw [if_pos (hlt.mpr h), max_eq_right h.le]
    rfl
  · rw [if_neg fun hw => h (hlt.mp hw), hshift, max_eq_left (not_lt.mp h)]

theorem toNat_baseReward (coins : UInt64) (version : UInt8) :
    (baseReward coins version).toNat = baseRewardOf coins.toNat version.toNat := by
  have hthreshold : (14992413379483553 ≤ coins) ↔ premineThreshold ≤ coins.toNat :=
    UInt64.le_iff_toNat_le
  have hbelow : (coins < 14992413379483553) ↔ coins.toNat < premineThreshold :=
    UInt64.lt_iff_toNat_lt
  have hpos : (0 < coins) ↔ 0 < coins.toNat := UInt64.lt_iff_toNat_lt
  have hversion : version < 8 ↔ version.toNat < 8 := UInt8.lt_iff_toNat_lt
  unfold baseReward baseRewardOf
  simp only [hpos, hbelow, hthreshold, hversion]
  split
  · rfl
  · rw [toNat_subsidy, emissionCurve, apply_ite UInt64.toNat, toNat_sub_eq]
    rfl

theorem toNat_penalisedReward {base median size : UInt64} (hmedian : median.toNat < 2 ^ 32)
    (hpos : 0 < median.toNat) (hsize : size.toNat ≤ 2 * median.toNat) :
    (penalisedReward base median size).toNat =
      u64 (base.toNat * u64 ((2 * median.toNat - size.toNat) * size.toNat) / median.toNat /
        median.toNat) := by
  have hdivisor : median.toUInt32.toNat = median.toNat := by
    rw [UInt64.toNat_toUInt32, Nat.mod_eq_of_lt hmedian]
  have hdouble : (2 * median).toNat = 2 * median.toNat := by
    rw [UInt64.toNat_mul, show (2 : UInt64).toNat = 2 from rfl, Nat.mod_eq_of_lt (by omega)]
  have hmultiplicand : ((2 * median - size) * size).toNat =
      u64 ((2 * median.toNat - size.toNat) * size.toNat) := by
    rw [UInt64.toNat_mul, UInt64.toNat_sub_of_le _ _ (by rwa [UInt64.le_iff_toNat_le, hdouble]),
      hdouble, u64]
  have hproduct : HoldsProduct _ _ _ := mul128_spec base ((2 * median - size) * size)
  unfold HoldsProduct at hproduct
  rw [hmultiplicand] at hproduct
  unfold penalisedReward
  dsimp only
  generalize mul128 base ((2 * median - size) * size) = product at *
  have hfirst := @div128By32_spec product.2 product.1 median.toUInt32 (by omega)
  generalize div128By32 product.2 product.1 median.toUInt32 = first at *
  have hsecond := @div128By32_spec first.2.1 first.1 median.toUInt32 (by omega)
  have hlt := (div128By32 first.2.1 first.1 median.toUInt32).1.toNat_lt
  rw [hdivisor] at hfirst hsecond
  rw [← hproduct, show product.1.toNat + 2 ^ 64 * product.2.toNat =
      product.2.toNat * 2 ^ 64 + product.1.toNat by ring, ← hfirst,
    show first.1.toNat + 2 ^ 64 * first.2.1.toNat =
      first.2.1.toNat * 2 ^ 64 + first.1.toNat by ring,
    ← hsecond, u64, Nat.add_mul_mod_self_left, Nat.mod_eq_of_lt hlt]

/-- For sizes of 32 bits the words compute the number of the chain modules. -/
theorem getBlockReward_eq {median : UInt64} (size coins : UInt64) (version : UInt8)
    (hmedian : median.toNat < 2 ^ 32) :
    (getBlockReward median size coins version).map UInt64.toNat =
      Lethean.getBlockReward median.toNat size.toNat coins.toNat version.toNat := by
  have hmin : getMinBlockSize version.toNat < 2 ^ 32 ∧ 0 < getMinBlockSize version.toNat := by
    unfold getMinBlockSize
    split_ifs <;> decide
  have hzone : (UInt64.ofNat (getMinBlockSize version.toNat)).toNat =
      getMinBlockSize version.toNat := by
    rw [UInt64.toNat_ofNat', Nat.mod_eq_of_lt (by omega)]
  obtain ⟨M, hM, hM'⟩ : ∃ M : UInt64,
      (if median < UInt64.ofNat (getMinBlockSize version.toNat) then
        UInt64.ofNat (getMinBlockSize version.toNat) else median) = M ∧
      M.toNat = max median.toNat (getMinBlockSize version.toNat) := by
    refine ⟨_, rfl, ?_⟩
    split
    · rename_i h
      rw [UInt64.lt_iff_toNat_lt, hzone] at h
      rw [hzone, max_eq_right h.le]
    · rename_i h
      rw [UInt64.lt_iff_toNat_lt, hzone] at h
      rw [max_eq_left (not_lt.mp h)]
  have hM32 : M.toNat < 2 ^ 32 := by omega
  have hdouble : (2 * M).toNat = 2 * M.toNat := by
    rw [UInt64.toNat_mul, show (2 : UInt64).toNat = 2 from rfl, Nat.mod_eq_of_lt (by omega)]
  rw [Lethean.getBlockReward_eq, ← hM', Nat.mod_eq_of_lt hM32, getBlockReward, hM]
  simp only [UInt64.le_iff_toNat_le, UInt64.lt_iff_toNat_lt, hdouble]
  split_ifs with hfree hbig
  · rw [Option.map_some, toNat_baseReward]
  · rfl
  · rw [Option.map_some, toNat_penalisedReward hM32 (by omega) (by omega), toNat_baseReward]

end Words

/-! ### What the reward is -/

/-- The reward of a block that is not penalised, over the integers. -/
def unpenalisedReward (coins version : Nat) : Nat :=
  if 0 < coins ∧ coins < premineThreshold then premineReward
  else
    max ((moneySupply -
      (if version < 8 ∧ premineThreshold ≤ coins then coins - 14992032107906461 else coins)) / 2 ^ 19)
      (finalSubsidyPerMinute * 2)

theorem baseRewardOf_eq {coins : Nat} (version : Nat) (h : coins ≤ moneySupply) :
    baseRewardOf coins version = unpenalisedReward coins version := by
  have hsupply : moneySupply < 2 ^ 64 := by decide
  have htaken : (if version < 8 ∧ premineThreshold ≤ coins then subU64 coins 14992032107906461
      else coins) =
      if version < 8 ∧ premineThreshold ≤ coins then coins - 14992032107906461 else coins := by
    split
    · rename_i hpre
      have := hpre.2
      unfold premineThreshold at this
      exact subU64_of_le (by omega) (by omega)
    · rfl
  have hle : (if version < 8 ∧ premineThreshold ≤ coins then coins - 14992032107906461 else coins) ≤
      moneySupply := by
    split <;> omega
  rw [baseRewardOf, unpenalisedReward, emissionCurve, htaken, subU64_of_le hle hsupply]
  rfl

theorem penalised_lt {base M c : Nat} (hbase : 0 < base) (hlt : M < c) (hle : c ≤ 2 * M) :
    base * ((2 * M - c) * c) / (M * M) < base := by
  have hM : 0 < M := by omega
  rw [Nat.div_lt_iff_lt_mul (Nat.mul_pos hM hM)]
  refine Nat.mul_lt_mul_of_pos_left ?_ hbase
  obtain ⟨d, rfl⟩ := Nat.exists_eq_add_of_lt hlt
  obtain ⟨e, he⟩ := Nat.exists_eq_add_of_le hle
  rw [show 2 * M - (M + d + 1) = e by omega]
  obtain rfl : M = d + 1 + e := by omega
  nlinarith

theorem penalised_anti {base M c c' : Nat} (hM : M ≤ c) (hc : c ≤ c') (hle : c' ≤ 2 * M) :
    base * ((2 * M - c') * c') / (M * M) ≤ base * ((2 * M - c) * c) / (M * M) := by
  refine Nat.div_le_div_right (Nat.mul_le_mul_left base ?_)
  obtain ⟨d, rfl⟩ := Nat.exists_eq_add_of_le hc
  obtain ⟨e, he⟩ := Nat.exists_eq_add_of_le hle
  rw [show 2 * M - (c + d) = e by omega, show 2 * M - c = e + d by omega]
  have : e ≤ c := by omega
  nlinarith

theorem unpenalisedReward_pos (coins version : Nat) : 0 < unpenalisedReward coins version := by
  unfold unpenalisedReward
  split
  · decide
  · exact lt_max_of_lt_right (by decide)

/-- A larger block is granted only if the smaller one is, and gets no more. -/
theorem getBlockReward_anti {m c c' coins version reward' : Nat}
    (hm : max m (getMinBlockSize version) < c' → max m (getMinBlockSize version) < 2 ^ 32)
    (hc : c ≤ c') (h : getBlockReward m c' coins version = some reward') :
    ∃ reward, getBlockReward m c coins version = some reward ∧ reward' ≤ reward := by
  have hbig : ¬(¬c' ≤ max m (getMinBlockSize version) ∧
      2 * max m (getMinBlockSize version) < c') := by
    rintro ⟨hfree, hbig⟩
    rw [getBlockReward_eq, if_neg hfree, if_pos hbig] at h
    cases h
  by_cases hfree' : c' ≤ max m (getMinBlockSize version)
  · rw [getBlockReward_eq, if_pos hfree'] at h
    exact ⟨_, by rw [getBlockReward_eq, if_pos (hc.trans hfree')], (Option.some.inj h).ge⟩
  rw [reward_of_penalised (hm (by omega)) (by omega) (by omega)] at h
  rw [← Option.some.inj h]
  by_cases hfree : c ≤ max m (getMinBlockSize version)
  · refine ⟨_, by rw [getBlockReward_eq, if_pos hfree], Nat.div_le_of_le_mul ?_⟩
    rw [Nat.mul_comm (max m _ * max m _)]
    exact Nat.mul_le_mul_left _ (penalty_factor_le (by omega))
  · exact ⟨_, reward_of_penalised (hm (by omega)) (by omega) (by omega),
      penalised_anti (by omega) hc (by omega)⟩

namespace Words

variable {median size coins : UInt64} {version : UInt8}

theorem reward_eq_none_iff (hmedian : median.toNat < 2 ^ 32) :
    getBlockReward median size coins version = none ↔
      Lethean.getBlockReward median.toNat size.toNat coins.toNat version.toNat = none := by
  rw [← getBlockReward_eq size coins version hmedian, Option.map_eq_none_iff]

theorem reward_of_some {reward : UInt64} (hmedian : median.toNat < 2 ^ 32)
    (h : getBlockReward median size coins version = some reward) :
    Lethean.getBlockReward median.toNat size.toNat coins.toNat version.toNat =
      some reward.toNat := by
  rw [← getBlockReward_eq size coins version hmedian, h, Option.map_some]

theorem exists_reward {n : Nat} (hmedian : median.toNat < 2 ^ 32)
    (h : Lethean.getBlockReward median.toNat size.toNat coins.toNat version.toNat = some n) :
    ∃ reward, getBlockReward median size coins version = some reward ∧ reward.toNat = n := by
  rwa [← getBlockReward_eq size coins version hmedian, Option.map_eq_some_iff] at h

end Words

/-- **The penalty.** `M` is the median, or the full reward zone if that is larger,
and `B` the reward without a penalty. -/
theorem block_reward_penalty (version : UInt8) (coins median c : UInt64)
    (hcoins : coins.toNat ≤ moneySupply) (hmedian : median.toNat < 2 ^ 32) :
    let M := max median.toNat (getMinBlockSize version.toNat)
    let B := unpenalisedReward coins.toNat version.toNat
    (Words.getBlockReward median c coins version = none ↔ 2 * M < c.toNat) ∧
    (c.toNat ≤ M → ∃ reward, Words.getBlockReward median c coins version = some reward ∧
      reward.toNat = B) ∧
    (M < c.toNat → c.toNat ≤ 2 * M →
      ∃ reward, Words.getBlockReward median c coins version = some reward ∧
        reward.toNat = B * ((2 * M - c.toNat) * c.toNat) / M ^ 2 ∧ reward.toNat < B) ∧
    (∀ c' : UInt64, c ≤ c' →
      ∀ reward', Words.getBlockReward median c' coins version = some reward' →
        ∃ reward, Words.getBlockReward median c coins version = some reward ∧ reward' ≤ reward) ∧
    (∀ median' : UInt64, median ≤ median' → median'.toNat < 2 ^ 32 →
      ∀ reward, Words.getBlockReward median c coins version = some reward →
        ∃ reward', Words.getBlockReward median' c coins version = some reward' ∧
          reward ≤ reward') := by
  intro M B
  have hmin : getMinBlockSize version.toNat < 2 ^ 32 := by
    unfold getMinBlockSize
    split_ifs <;> decide
  have hM : M < 2 ^ 32 := max_lt hmedian hmin
  have hB : baseRewardOf coins.toNat version.toNat = B := baseRewardOf_eq _ hcoins
  refine ⟨?_, ?_, ?_, ?_, ?_⟩
  · rw [Words.reward_eq_none_iff hmedian, getBlockReward_eq]
    split_ifs with hfree hbig
    · exact iff_of_false nofun (by omega)
    · exact iff_of_true rfl hbig
    · exact iff_of_false nofun hbig
  · intro hfree
    refine Words.exists_reward hmedian ?_
    rw [getBlockReward_eq, if_pos hfree, hB]
  · intro hlt hle
    obtain ⟨reward, hreward, heq⟩ := Words.exists_reward hmedian
      (reward_of_penalised hM hlt hle)
    rw [hB] at heq
    refine ⟨reward, hreward, by rw [heq, pow_two], ?_⟩
    rw [heq]
    exact penalised_lt (unpenalisedReward_pos _ _) hlt hle
  · intro c' hc' reward' h
    obtain ⟨n, hn, hle⟩ := getBlockReward_anti (fun _ => hM) (UInt64.le_iff_toNat_le.mp hc')
      (Words.reward_of_some hmedian h)
    obtain ⟨reward, hreward, rfl⟩ := Words.exists_reward hmedian hn
    exact ⟨reward, hreward, UInt64.le_iff_toNat_le.mpr hle⟩
  · intro median' hm' hmedian' reward h
    obtain ⟨n, hn, hle⟩ := getBlockReward_mono
      (max_le_max (UInt64.le_iff_toNat_le.mp hm') le_rfl) (fun _ => hM)
      (fun _ => max_lt hmedian' hmin) (Words.reward_of_some hmedian h)
    obtain ⟨reward', hreward', rfl⟩ := Words.exists_reward hmedian' hn
    exact ⟨reward', hreward', UInt64.le_iff_toNat_le.mpr hle⟩

/-- A block of one and a half medians keeps three quarters of its reward. -/
theorem block_reward_penalty_half :
    Words.getBlockReward 1000000 1500000 20000000000000000 6 =
      some (UInt64.ofNat (unpenalisedReward 20000000000000000 6 * 3 / 4)) := by
  obtain ⟨reward, hreward, heq, -⟩ :=
    (block_reward_penalty 6 20000000000000000 1000000 1500000 (by decide)
      (by decide)).2.2.1 (by decide) (by decide)
  rw [hreward, ← UInt64.ofNat_toNat (x := reward), heq]
  decide +kernel

end Lethean
