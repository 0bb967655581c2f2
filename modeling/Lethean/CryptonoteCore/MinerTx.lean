import Lethean.CryptonoteBasic.BlockLayout
import Lethean.CryptonoteCore.Emission

/-!
# Lethean.CryptonoteCore.MinerTx

`construct_miner_tx`: the transaction that pays the reward and the fees of a
block to its miner. The amount is cut into its decimal digits; from version 4 on
it is rounded down first and the digits are put together again into one output.

The keys of a miner transaction are random. They enter as `MinerKeys`, one for
each call: the key pair's public half, and what `derive_public_key` makes of the
miner's address for each output.
-/

namespace Lethean

def baseRewardClampThreshold : Nat := 10000

def defaultDustThreshold : Nat := 200

/-! ### Cutting an amount -/

def pendingDust (isDustHandled : Bool) (dust : Nat) : List Nat :=
  if isDustHandled = false ∧ dust ≠ 0 then [dust] else []

/-- A call of one of the two handlers of `decompose_amount_into_digits`. -/
structure DigitCall where
  isDust : Bool
  amount : Nat

/-- The calls that the loop of `decompose_amount_into_digits` makes, for at most `n` digits. -/
def digitCalls (dustThreshold : Nat) : Nat → Nat → Nat → Nat → Bool → List DigitCall
  | 0, _, _, dust, isDustHandled => (pendingDust isDustHandled dust).map (⟨true, ·⟩)
  | n + 1, amount, order, dust, isDustHandled =>
    if amount = 0 then (pendingDust isDustHandled dust).map (⟨true, ·⟩)
    else
      let chunk := u64 (amount % 10 * order)
      if u64 (dust + chunk) ≤ dustThreshold then
        digitCalls dustThreshold n (amount / 10) (u64 (order * 10)) (u64 (dust + chunk))
          isDustHandled
      else
        (pendingDust isDustHandled dust).map (⟨true, ·⟩) ++
          (if chunk ≠ 0 then [⟨false, chunk⟩] else []) ++
          digitCalls dustThreshold n (amount / 10) (u64 (order * 10)) dust
            (isDustHandled || dust ≠ 0)

/-- The calls that `decompose_amount_into_digits` makes. An amount of 64 bits has at most 20
digits. -/
def decomposeCalls (amount dustThreshold : Nat) : List DigitCall :=
  digitCalls dustThreshold 20 amount 1 0 false

/-- `decompose_amount_into_digits` with two handlers that push to the same vector, as those of
`construct_miner_tx` do. -/
def decomposeAmountIntoDigits (amount dustThreshold : Nat) : List Nat :=
  (decomposeCalls amount dustThreshold).map (·.amount)

/-- The loop that adds the first amount to the second until `max_outs` are left. -/
def mergeFrom (maxOuts : Nat) : Nat → List Nat → List Nat
  | first, [] => [first]
  | first, next :: rest =>
    if maxOuts < rest.length + 2 then mergeFrom maxOuts (u64 (next + first)) rest
    else first :: next :: rest

@[inherit_doc mergeFrom]
def mergeOuts (maxOuts : Nat) : List Nat → List Nat
  | [] => []
  | first :: rest => mergeFrom maxOuts first rest

def minerOutAmounts (height maxOuts version blockReward : Nat) : Option (List Nat) :=
  let outAmounts := decomposeAmountIntoDigits blockReward
    (if 4 ≤ version then 0 else defaultDustThreshold)
  if maxOuts = 0 then none
  else if height = 0 ∨ 4 ≤ version then some (mergeOuts maxOuts outAmounts)
  else if outAmounts.length ≤ maxOuts then some outAmounts
  else none

/-! ### The transaction -/

/-- The random keys of one call. A derivation that fails is `none`. -/
structure MinerKeys where
  txPub : PublicKey
  outKey : Nat → Option PublicKey

/-- The outputs from number `no` on. -/
def minerOuts (outKey : Nat → Option PublicKey) : Nat → List Nat → Option (List TxOut)
  | _, [] => some []
  | no, amount :: amounts => do
    let key ← outKey no
    let outs ← minerOuts outKey (no + 1) amounts
    some (⟨amount, .toKey key⟩ :: outs)

def minerExtra (txPub : PublicKey) (extraNonce : List UInt8) : Option (List UInt8) :=
  if extraNonce = [] then some (addTxPubKeyToExtra [] txPub)
  else addExtraNonceToTxExtra (addTxPubKeyToExtra [] txPub) extraNonce

/-- What the outputs add up to, for a reward and the fees. -/
def claimedReward (version reward fee : Nat) : Nat :=
  if 4 ≤ version then u64 (reward + fee) - u64 (reward + fee) % baseRewardClampThreshold
  else u64 (reward + fee)

def constructMinerTx (height medianSize alreadyGeneratedCoins currentBlockSize fee : Nat)
    (keys : MinerKeys) (tx : Transaction) (extraNonce : List UInt8) (maxOuts version : Nat) :
    Option Transaction := do
  let extra ← minerExtra keys.txPub extraNonce
  let reward ← getBlockReward medianSize currentBlockSize alreadyGeneratedCoins version
  let outAmounts ← minerOutAmounts height maxOuts version (claimedReward version reward fee)
  let vout ← minerOuts keys.outKey 0 outAmounts
  if outAmounts.foldl (fun sum amount => u64 (sum + amount)) 0 ≠ claimedReward version reward fee
  then none
  else
    some
      { tx with
        version := if 4 ≤ version then 2 else 1
        unlockTime := height + Blockchain.minedMoneyUnlockWindow
        vin := [.gen height], vout, extra }

/-! ### What the outputs add up to -/

theorem u64_le (n : Nat) : u64 n ≤ n := Nat.mod_le _ _

theorem pendingDust_of_handled (handled : Bool) (dust : Nat) :
    pendingDust (handled || dust ≠ 0) dust = [] := by
  by_cases h : dust = 0 <;> simp [pendingDust, h]

/-- The amounts of digits, given with their places. -/
def placed (digits : List (Nat × Nat)) : List Nat := digits.map fun d => d.1 * 10 ^ d.2

/-- Digits from place `k` on that make the amount. -/
structure DigitsFrom (k amount : Nat) (digits : List (Nat × Nat)) : Prop where
  digit : ∀ d ∈ digits, 1 ≤ d.1 ∧ d.1 ≤ 9 ∧ k ≤ d.2
  places : digits.Pairwise (·.2 < ·.2)
  sum : (placed digits).sum = amount * 10 ^ k

theorem DigitsFrom.nil {k : Nat} : DigitsFrom k 0 [] := ⟨by simp, .nil, by simp [placed]⟩

theorem split_digit (amount k : Nat) :
    amount * 10 ^ k = amount % 10 * 10 ^ k + amount / 10 * 10 ^ (k + 1) := by
  conv => lhs; rw [← Nat.mod_add_div amount 10]
  ring

theorem DigitsFrom.cons {k amount : Nat} {digits : List (Nat × Nat)}
    (h : DigitsFrom (k + 1) (amount / 10) digits) :
    DigitsFrom k amount (if amount % 10 = 0 then digits else (amount % 10, k) :: digits) := by
  have hsplit := split_digit amount k
  have hlow : ∀ d ∈ digits, 1 ≤ d.1 ∧ d.1 ≤ 9 ∧ k ≤ d.2 := fun d hd =>
    ⟨(h.digit d hd).1, (h.digit d hd).2.1, Nat.le_of_succ_le (h.digit d hd).2.2⟩
  split
  · rename_i hzero
    exact ⟨hlow, h.places, by rw [h.sum, hsplit, hzero]; simp⟩
  · refine ⟨List.forall_mem_cons.mpr ⟨⟨by omega, by omega, le_rfl⟩, hlow⟩,
      .cons (fun d hd => (h.digit d hd).2.2) h.places, ?_⟩
    simpa [placed, hsplit] using h.sum

section

variable {t n amount order k dust : Nat}

theorem order_step (horder : amount ≠ 0 → order = 10 ^ k) (hfit : amount * 10 ^ k < 2 ^ 64) :
    amount / 10 ≠ 0 → u64 (order * 10) = 10 ^ (k + 1) := by
  intro hmore
  rw [horder (by omega), ← pow_succ]
  refine u64_of_lt (lt_of_le_of_lt ?_ hfit)
  rw [split_digit]
  exact (Nat.le_mul_of_pos_left _ (Nat.pos_of_ne_zero hmore)).trans (Nat.le_add_left _ _)

theorem digitCalls_chunks {handled : Bool} (hdone : pendingDust handled dust = [])
    (hn : amount < 10 ^ n) (horder : amount ≠ 0 → order = 10 ^ k)
    (hfit : dust + amount * 10 ^ k < 2 ^ 64) (hlarge : t < dust + 10 ^ k) :
    ∃ digits, digitCalls t n amount order dust handled = (placed digits).map (⟨false, ·⟩) ∧
      DigitsFrom k amount digits := by
  induction n generalizing amount order k handled with
  | zero =>
    obtain rfl : amount = 0 := by simpa using hn
    exact ⟨[], by simp [digitCalls, hdone, placed], .nil⟩
  | succ n ih =>
    by_cases hzero : amount = 0
    · subst hzero
      exact ⟨[], by simp [digitCalls, hdone, placed], .nil⟩
    have hsplit := split_digit amount k
    have hpow : 10 ^ k ≤ 10 ^ (k + 1) := Nat.pow_le_pow_right (by decide) (Nat.le_succ k)
    have hnext := fun handled' h' => @ih (amount / 10) (u64 (order * 10)) (k + 1) handled' h'
      (Nat.div_lt_of_lt_mul (by rwa [pow_succ'] at hn)) (order_step horder (by omega))
      (by omega) (by omega)
    simp only [digitCalls, if_neg hzero, horder hzero,
      u64_of_lt (show amount % 10 * 10 ^ k < 2 ^ 64 by omega),
      u64_of_lt (show dust + amount % 10 * 10 ^ k < 2 ^ 64 by omega)]
    rw [horder hzero] at hnext
    by_cases hdigit : amount % 10 = 0
    · have hout := fun handled' h' => (hnext handled' h').imp fun digits h =>
        And.intro h.1 (by simpa [hdigit] using h.2.cons)
      rw [hdigit, Nat.zero_mul, Nat.add_zero, hdone]
      split
      · exact hout handled hdone
      · simpa using hout _ (pendingDust_of_handled handled dust)
    · have hpos : 10 ^ k ≤ amount % 10 * 10 ^ k := Nat.le_mul_of_pos_left _ (by omega)
      obtain ⟨digits, hcalls, hdigits⟩ := hnext _ (pendingDust_of_handled handled dust)
      rw [if_neg (by omega), if_pos (by positivity), hdone, hcalls]
      exact ⟨_, by simp [placed, hdigit], hdigits.cons⟩

/-- The digits up to some place are dust, the others are handed out. -/
theorem digitCalls_dust (hn : amount < 10 ^ n) (horder : amount ≠ 0 → order = 10 ^ k)
    (hfit : dust + amount * 10 ^ k < 2 ^ 64) (hdust : dust ≤ t) :
    ∃ dust' amount' k' digits, digitCalls t n amount order dust false =
        (pendingDust false dust').map (⟨true, ·⟩) ++ (placed digits).map (⟨false, ·⟩) ∧
      dust' ≤ t ∧ DigitsFrom k' amount' digits ∧
      dust' + amount' * 10 ^ k' = dust + amount * 10 ^ k := by
  induction n generalizing amount order k dust with
  | zero =>
    obtain rfl : amount = 0 := by simpa using hn
    exact ⟨dust, 0, k, [], by simp [digitCalls, placed], hdust, .nil, rfl⟩
  | succ n ih =>
    by_cases hzero : amount = 0
    · subst hzero
      exact ⟨dust, 0, k, [], by simp [digitCalls, placed], hdust, .nil, rfl⟩
    have hsplit := split_digit amount k
    have hn' : amount / 10 < 10 ^ n := Nat.div_lt_of_lt_mul (by rwa [pow_succ'] at hn)
    have horder' := order_step horder (by omega)
    simp only [digitCalls, if_neg hzero, horder hzero,
      u64_of_lt (show amount % 10 * 10 ^ k < 2 ^ 64 by omega),
      u64_of_lt (show dust + amount % 10 * 10 ^ k < 2 ^ 64 by omega)]
    rw [horder hzero] at horder'
    split
    · rename_i hle
      rw [hsplit, ← Nat.add_assoc]
      exact ih hn' horder' (by omega) hle
    rename_i hgt
    have hpow : amount % 10 * 10 ^ k ≤ 10 ^ (k + 1) := by
      rw [pow_succ']
      exact Nat.mul_le_mul_right _ (Nat.le_of_lt (Nat.mod_lt _ (by decide)))
    obtain ⟨digits, hcalls, hdigits⟩ := digitCalls_chunks (pendingDust_of_handled false dust)
      hn' horder' (by omega) (show t < dust + 10 ^ (k + 1) by omega)
    refine ⟨dust, amount, k, _, ?_, hdust, hdigits.cons, rfl⟩
    have hdigit : amount % 10 ≠ 0 := fun h => hgt (by simpa [h] using hdust)
    rw [hcalls]
    simp [placed, hdigit]

end

/-- **What a call hands out**: at most one call with dust, then the digits from some place on. -/
theorem decomposeCalls_spec {amount : Nat} (dustThreshold : Nat) (h : amount < 2 ^ 64) :
    ∃ dust digits, decomposeCalls amount dustThreshold =
        (pendingDust false dust).map (⟨true, ·⟩) ++ (placed digits).map (⟨false, ·⟩) ∧
      dust ≤ dustThreshold ∧ (∀ d ∈ digits, 1 ≤ d.1 ∧ d.1 ≤ 9) ∧
      digits.Pairwise (·.2 < ·.2) ∧ dust + (placed digits).sum = amount := by
  obtain ⟨dust, rest, k, digits, hcalls, hdust, hdigits, hsum⟩ := digitCalls_dust
    (show amount < 10 ^ 20 by omega) (fun _ => (pow_zero 10).symm)
    (show 0 + amount * 10 ^ 0 < 2 ^ 64 by simpa using h) (Nat.zero_le dustThreshold)
  exact ⟨dust, digits, hcalls, hdust, fun d hd => ⟨(hdigits.digit d hd).1, (hdigits.digit d hd).2.1⟩,
    hdigits.places, by simpa [hdigits.sum] using hsum⟩

theorem sum_digits {amount : Nat} (dustThreshold : Nat)
    (h : amount < 2 ^ 64) : (decomposeAmountIntoDigits amount dustThreshold).sum = amount := by
  obtain ⟨dust, digits, hcalls, -, -, -, hsum⟩ := decomposeCalls_spec dustThreshold h
  have hdust : (pendingDust false dust).sum = dust := by
    by_cases hzero : dust = 0 <;> simp [pendingDust, hzero]
  simpa [decomposeAmountIntoDigits, hcalls, Function.comp_def, hdust] using hsum

theorem mergeFrom_spec {maxOuts : Nat} (hmax : 1 ≤ maxOuts) {rest : List Nat} {first : Nat}
    (hlt : first + rest.sum < 2 ^ 64) :
    mergeFrom maxOuts first rest ≠ [] ∧ (mergeFrom maxOuts first rest).length ≤ maxOuts ∧
      (mergeFrom maxOuts first rest).sum = first + rest.sum := by
  induction rest generalizing first with
  | nil => simpa [mergeFrom] using hmax
  | cons next rest ih =>
    rw [List.sum_cons, ← Nat.add_assoc, Nat.add_comm first] at hlt ⊢
    rw [mergeFrom]
    split
    · have hsum := u64_of_lt (Nat.lt_of_le_of_lt (Nat.le_add_right _ rest.sum) hlt)
      rw [hsum]
      exact ih hlt
    · rename_i hfew
      simp at hfew ⊢
      omega

theorem mergeOuts_spec {maxOuts : Nat} (hmax : 1 ≤ maxOuts) {outAmounts : List Nat}
    (hlt : outAmounts.sum < 2 ^ 64) :
    (mergeOuts maxOuts outAmounts = [] ↔ outAmounts = []) ∧
      (mergeOuts maxOuts outAmounts).length ≤ maxOuts ∧
        (mergeOuts maxOuts outAmounts).sum = outAmounts.sum := by
  cases outAmounts with
  | nil => simp [mergeOuts]
  | cons first rest => simpa [mergeOuts] using mergeFrom_spec hmax (by simpa using hlt)

theorem sum_minerOutAmounts {height maxOuts version blockReward : Nat} {outAmounts : List Nat}
    (h : minerOutAmounts height maxOuts version blockReward = some outAmounts)
    (hlt : blockReward < 2 ^ 64) : outAmounts.sum = blockReward := by
  unfold minerOutAmounts at h
  have hdigits := sum_digits (if 4 ≤ version then 0 else defaultDustThreshold) hlt
  generalize decomposeAmountIntoDigits blockReward _ = digits at h hdigits
  rw [← hdigits] at hlt ⊢
  dsimp only at h
  split_ifs at h with hmax hmerge hfit
  · cases h
    exact (mergeOuts_spec (Nat.pos_of_ne_zero hmax) hlt).2.2
  · cases h
    rfl

theorem claimedReward_lt (version reward fee : Nat) : claimedReward version reward fee < 2 ^ 64 := by
  unfold claimedReward
  split
  · exact (Nat.sub_le _ _).trans_lt (u64_lt _)
  · exact u64_lt _

/-- **Amounts are cut and put together exactly.** From version 4 on the reward and the fees are
rounded down first, and an amount of 0 has no outputs. So outputs that add up to the reward and
the fees are what a miner gets before version 4 and for multiples of 10000, unless it is 0. -/
theorem amounts_cut_exactly {amount height maxOuts version reward fee : Nat} (dustThreshold : Nat)
    (hamount : amount < 2 ^ 64) (hmax : 1 ≤ maxOuts) (hfee : reward + fee < 2 ^ 64)
    (hmerge : height = 0 ∨ 4 ≤ version) :
    (∃ dust digits, decomposeCalls amount dustThreshold =
        (pendingDust false dust).map (⟨true, ·⟩) ++ (placed digits).map (⟨false, ·⟩) ∧
      dust ≤ dustThreshold ∧ (∀ d ∈ digits, 1 ≤ d.1 ∧ d.1 ≤ 9) ∧
      digits.Pairwise (·.2 < ·.2) ∧ dust + (placed digits).sum = amount) ∧
    ∃ outAmounts, minerOutAmounts height maxOuts version (claimedReward version reward fee) =
        some outAmounts ∧ outAmounts.length ≤ maxOuts ∧
      outAmounts.sum = (if 4 ≤ version then (reward + fee) / 10000 * 10000 else reward + fee) ∧
      (outAmounts = [] ↔ outAmounts.sum = 0) ∧
      (outAmounts ≠ [] ∧ outAmounts.sum = reward + fee ↔
        0 < reward + fee ∧ (version < 4 ∨ 10000 ∣ reward + fee)) := by
  have hreward : claimedReward version reward fee =
      if 4 ≤ version then (reward + fee) / 10000 * 10000 else reward + fee := by
    simp only [claimedReward, u64_of_lt hfee, baseRewardClampThreshold]
    split <;> omega
  have hlt := claimedReward_lt version reward fee
  have hsum := sum_digits (if 4 ≤ version then 0 else defaultDustThreshold) hlt
  obtain ⟨hnil, hlength, hmerged⟩ := mergeOuts_spec hmax (hsum.trans_lt hlt)
  have hempty : mergeOuts maxOuts (decomposeAmountIntoDigits (claimedReward version reward fee)
      (if 4 ≤ version then 0 else defaultDustThreshold)) = [] ↔
      claimedReward version reward fee = 0 := by
    rw [hnil]
    constructor
    · intro h
      rw [← hsum, h, List.sum_nil]
    · intro h
      simp [h, decomposeAmountIntoDigits, decomposeCalls, digitCalls, pendingDust]
  refine ⟨decomposeCalls_spec dustThreshold hamount, _,
    (if_neg (Nat.ne_of_gt hmax)).trans (if_pos hmerge), hlength,
    hmerged.trans (hsum.trans hreward), by rw [hmerged, hsum, hempty], ?_⟩
  rw [ne_eq, hempty, hmerged, hsum, hreward]
  split <;> omega

theorem amounts_cut_exactly_one_output :
    ∃ outAmounts, minerOutAmounts 7 1 4 (claimedReward 4 123000 456) = some outAmounts ∧
      outAmounts.length ≤ 1 ∧ outAmounts.sum = 120000 ∧ (outAmounts = [] ↔ outAmounts.sum = 0) ∧
      (outAmounts ≠ [] ∧ outAmounts.sum = 123000 + 456 ↔
        0 < 123000 + 456 ∧ (4 < 4 ∨ 10000 ∣ 123000 + 456)) :=
  (amounts_cut_exactly 200 (show 62387455827 < 2 ^ 64 by decide) le_rfl (by decide) (.inr le_rfl)).2

/-- At version 4 a reward of 12345 is paid as 10000, and one of 9999 without any output. -/
theorem reward_rounded_down :
    minerOutAmounts 7 1 4 (claimedReward 4 12345 0) = some [10000] ∧
      minerOutAmounts 7 1 4 (claimedReward 4 9999 0) = some [] := by
  decide +kernel

theorem minerOuts_spec {outKey : Nat → Option PublicKey} {amounts : List Nat} {no : Nat}
    {outs : List TxOut} (h : minerOuts outKey no amounts = some outs) :
    outs.map (·.amount) = amounts ∧ ∀ o ∈ outs, ∃ key, o.target = .toKey key := by
  induction amounts generalizing no outs with
  | nil =>
    cases h
    exact ⟨rfl, by simp⟩
  | cons amount amounts ih =>
    obtain ⟨key, -, h⟩ := Option.bind_eq_some_iff.mp h
    obtain ⟨rest, hrest, h⟩ := Option.bind_eq_some_iff.mp h
    cases h
    obtain ⟨hamounts, htargets⟩ := ih hrest
    exact ⟨by simp [hamounts], List.forall_mem_cons.mpr ⟨⟨key, rfl⟩, htargets⟩⟩

theorem Transaction.checkOutsOverflow_of_sum_lt {tx : Transaction}
    (h : (tx.vout.map (·.amount)).sum < 2 ^ 64) : tx.checkOutsOverflow = true := by
  have hrun : ∀ (outs : List TxOut) (money : Nat), money + (outs.map (·.amount)).sum < 2 ^ 64 →
      (outs.foldlM (fun money o => if u64 (o.amount + money) < money then none
        else some (u64 (money + o.amount))) money).isSome = true := by
    intro outs
    induction outs with
    | nil => exact fun money _ => rfl
    | cons o outs ih =>
      intro money hsum
      rw [List.map_cons, List.sum_cons] at hsum
      rw [List.foldlM_cons, u64_of_lt (by omega), if_neg (by omega), u64_of_lt (by omega)]
      exact ih (money + o.amount) (by omega)
  exact hrun tx.vout 0 (by omega)

/-! ### What a miner transaction is -/

/-- `tx` is `tx₀` made into a miner transaction for the height, at the version,
that pays out `blockReward`. Its extra bytes can be any. -/
structure PaysMiner (height version blockReward : Nat) (tx₀ tx : Transaction) : Prop where
  version_eq : tx.version = if 4 ≤ version then 2 else 1
  unlockTime : tx.unlockTime = height + Blockchain.minedMoneyUnlockWindow
  vin : tx.vin = [.gen height]
  money : tx.getOutsMoneyAmount = blockReward
  sum_le : (tx.vout.map (·.amount)).sum ≤ blockReward
  targets : ∀ o ∈ tx.vout, ∃ key, o.target = .toKey key
  isMmTx : tx.isMmTx = tx₀.isMmTx
  signatures : tx.signatures = tx₀.signatures
  rctSignatures : tx.rctSignatures = tx₀.rctSignatures

/-- `construct_miner_tx`, when it returns `true`. -/
theorem constructMinerTx_spec {height medianSize coins currentBlockSize fee maxOuts version : Nat}
    {keys : MinerKeys} {tx₀ tx : Transaction} {extraNonce : List UInt8}
    (h : constructMinerTx height medianSize coins currentBlockSize fee keys tx₀ extraNonce maxOuts
      version = some tx) :
    minerExtra keys.txPub extraNonce = some tx.extra ∧
      ∃ reward, getBlockReward medianSize currentBlockSize coins version = some reward ∧
        PaysMiner height version (claimedReward version reward fee) tx₀ tx := by
  obtain ⟨extra, hextra, h⟩ := Option.bind_eq_some_iff.mp h
  obtain ⟨reward, hreward, h⟩ := Option.bind_eq_some_iff.mp h
  obtain ⟨outAmounts, hamounts, h⟩ := Option.bind_eq_some_iff.mp h
  obtain ⟨vout, hvout, h⟩ := Option.bind_eq_some_iff.mp h
  split at h
  · cases h
  rename_i hsum
  cases h
  obtain ⟨hmap, htargets⟩ := minerOuts_spec hvout
  refine ⟨hextra, reward, hreward, rfl, rfl, rfl, ?_, ?_, htargets, rfl, rfl, rfl⟩
  · -- the source sums the amounts, the validation sums the outputs
    rw [← not_not.mp hsum, ← hmap, List.foldl_map]
    rfl
  · change (vout.map (·.amount)).sum ≤ _
    rw [hmap]
    exact (sum_minerOutAmounts hamounts (claimedReward_lt ..)).le

namespace PaysMiner

variable {height version blockReward : Nat} {tx₀ tx tx' : Transaction}

theorem withExtra (h : PaysMiner height version blockReward tx₀ tx) (extra : List UInt8) :
    PaysMiner height version blockReward tx₀ (tx.withExtra extra) :=
  ⟨h.version_eq, h.unlockTime, h.vin, h.money, h.sum_le, h.targets, h.isMmTx, h.signatures,
    h.rctSignatures⟩

end PaysMiner

end Lethean
