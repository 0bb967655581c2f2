import Lethean.CryptonoteBasic.Types
import Lethean.Common.IntUtil

/-!
# Lethean.CryptonoteBasic.BasicImpl

The block reward (`cryptonote_basic_impl.cpp`), the small transaction and block
predicates of `cryptonote_format_utils.cpp` and the checkpoint map
(`checkpoints.cpp`). None of them needs the serialized form of a value.
-/

namespace Lethean

/-! ### Block reward -/

def moneySupply : Nat := 99948151623421337
def emissionSpeedFactorPerMinute : Nat := 20
def finalSubsidyPerMinute : Nat := 2900000000

def getMinBlockSize (version : Nat) : Nat :=
  if version < 2 then 20000 else if version < 6 then 1000000 else 1000000

/-- `CRYPTONOTE_COINBASE_BLOB_RESERVED_SIZE`. -/
def coinbaseBlobReservedSize : Nat := 600

/-- `get_block_reward`; `none` is the return value `false`. The target is two
minutes in every version. -/
def getBlockReward (medianSize currentBlockSize alreadyGeneratedCoins version : Nat) :
    Option Nat :=
  let targetMinutes := 2
  let emissionSpeedFactor := emissionSpeedFactorPerMinute - (targetMinutes - 1)
  let coins :=
    if version < 8 ∧ 14992413379483553 ≤ alreadyGeneratedCoins then
      subU64 alreadyGeneratedCoins 14992032107906461
    else alreadyGeneratedCoins
  let baseReward := subU64 moneySupply coins / 2 ^ emissionSpeedFactor
  let baseReward := max baseReward (finalSubsidyPerMinute * targetMinutes)
  let medianSize := max medianSize (getMinBlockSize version)
  let baseReward :=
    if 0 < alreadyGeneratedCoins ∧ alreadyGeneratedCoins < 14992413379483553 then
      14992222743513202
    else baseReward
  if currentBlockSize ≤ medianSize then some baseReward
  else if 2 * medianSize < currentBlockSize then none
  else
    let multiplicand := u64 ((2 * medianSize - currentBlockSize) * currentBlockSize)
    -- two `div128_32` calls on the 128-bit product, by the low word of the median
    let divisor := medianSize % 2 ^ 32
    some (u64 (baseReward * multiplicand / divisor / divisor))

/-! ### Transactions and blocks -/

def Transaction.isCoinbase (tx : Transaction) : Bool :=
  match tx.vin with
  | [.gen _] => true
  | _ => false

/-- `get_block_height`: the height the miner transaction claims, 0 if it is malformed. -/
def Block.getBlockHeight (b : Block) : Nat :=
  match b.minerTx.vin with
  | [.gen height] => height
  | _ => 0

def Transaction.checkInputsTypesSupported (tx : Transaction) : Bool :=
  tx.vin.all fun i => i.keyImage?.isSome

/-- The amount an input of type `txin_to_key` spends. -/
def TxIn.amount? : TxIn → Option Nat
  | .toKey amount _ _ => some amount
  | _ => none

def Transaction.getInputsMoneyAmount (tx : Transaction) : Option Nat :=
  tx.vin.foldlM (fun money i => i.amount?.map fun a => u64 (money + a)) 0

def Transaction.getOutsMoneyAmount (tx : Transaction) : Nat :=
  tx.vout.foldl (fun money o => u64 (money + o.amount)) 0

def Transaction.checkOutsOverflow (tx : Transaction) : Bool :=
  (tx.vout.foldlM
    (fun money o => if u64 (o.amount + money) < money then none else some (u64 (money + o.amount)))
    0).isSome

def Transaction.checkInputsOverflow (tx : Transaction) : Bool :=
  (tx.vin.foldlM
    (fun money (i : TxIn) => i.amount?.bind fun amount =>
      if u64 (amount + money) < money then none else some (u64 (money + amount)))
    0).isSome

def Transaction.checkMoneyOverflow (tx : Transaction) : Bool :=
  tx.checkInputsOverflow && tx.checkOutsOverflow

/-- Sums that pass the overflow check of `check_money_overflow` are exact. -/
theorem foldlM_amounts {α : Type} {amount? : α → Option Nat} {l : List α} {money : Nat}
    (hlt : ∀ a ∈ l, ∀ n ∈ amount? a, n < 2 ^ 64) (hmoney : money < 2 ^ 64)
    (h : (l.foldlM (fun money a => (amount? a).bind fun n =>
      if u64 (n + money) < money then none else some (u64 (money + n))) money).isSome = true) :
    l.foldlM (fun money a => (amount? a).map fun n => u64 (money + n)) money =
        some (money + (l.filterMap amount?).sum) ∧
      money + (l.filterMap amount?).sum < 2 ^ 64 := by
  induction l generalizing money with
  | nil => simpa using hmoney
  | cons a l ih =>
    cases ha : amount? a with
    | none => simp [ha] at h
    | some n =>
      have hn := hlt a (by simp) n ha
      rw [List.foldlM_cons, ha] at h
      by_cases hwrap : u64 (n + money) < money
      · simp [hwrap] at h
      -- a sum that wraps is smaller than its summands
      have hsum : money + n < 2 ^ 64 := by
        unfold u64 at hwrap
        omega
      obtain ⟨hfold, hfits⟩ := ih (fun b hb => hlt b (by simp [hb])) (u64_lt (money + n))
        (by simpa [hwrap] using h)
      rw [u64_of_lt hsum, Nat.add_assoc] at hfold hfits
      simpa [ha, u64_of_lt hsum] using ⟨hfold, hfits⟩

/-- `check_outs_valid`, on top of `check_key`. -/
def Transaction.checkOutsValid (checkKey : PublicKey → Bool) (tx : Transaction) : Bool :=
  tx.vout.all fun o =>
    match o.target with
    | .toKey key => (1 < tx.version || 0 < o.amount) && checkKey key
    | _ => false

/-- The offsets of an input of type `txin_to_key`. -/
def TxIn.keyOffsets? : TxIn → Option (List Nat)
  | .toKey _ keyOffsets _ => some keyOffsets
  | _ => none

/-- The loop of `relative_output_offsets_to_absolute`, after the value `sum`. -/
def absoluteFrom (sum : Nat) : List Nat → List Nat
  | [] => []
  | off :: rest => u64 (off + sum) :: absoluteFrom (u64 (off + sum)) rest

def relativeOutputOffsetsToAbsolute : List Nat → List Nat
  | [] => []
  | off :: rest => off :: absoluteFrom off rest

/-! ### Checkpoints -/

/-- `class checkpoints`: a map from heights to block ids, in height order. -/
structure Checkpoints where
  points : List (Nat × Hash)
  sorted : (points.map Prod.fst).Pairwise (· < ·)

namespace Checkpoints

def empty : Checkpoints := ⟨[], .nil⟩

def isInCheckpointZone (c : Checkpoints) (height : Nat) : Bool :=
  match c.points.getLast? with
  | none => false
  | some p => height ≤ p.1

/-- `check_block`: the verdict, and `is_a_checkpoint`. -/
def checkBlock (c : Checkpoints) (height : Nat) (h : Hash) : Bool × Bool :=
  match c.points.find? (·.1 = height) with
  | none => (true, false)
  | some p => (p.2 = h, true)

def isAlternativeBlockAllowed (c : Checkpoints) (blockchainHeight blockHeight : Nat) : Bool :=
  if blockHeight = 0 then false
  else
    match (c.points.filter (·.1 ≤ blockchainHeight)).getLast? with
    | none => true
    | some p => p.1 < blockHeight

/-! ### What the checks mean -/

variable {c : Checkpoints} {p : Nat × Hash}

theorem find?_of_mem (hp : p ∈ c.points) : c.points.find? (·.1 = p.1) = some p := by
  obtain ⟨q, hq⟩ : ∃ q, c.points.find? (·.1 = p.1) = some q := by
    rw [← Option.isSome_iff_exists, List.find?_isSome]
    exact ⟨p, hp, by simp⟩
  have hheight : q.1 = p.1 := by simpa using List.find?_some hq
  have hnodup : (c.points.map Prod.fst).Nodup := c.sorted.imp fun h => ne_of_lt h
  rw [hq, List.inj_on_of_nodup_map hnodup (List.mem_of_find?_eq_some hq) hp hheight]

/-- At a checkpoint `check_block` compares the ids. -/
theorem checkBlock_of_mem (hp : p ∈ c.points) (h : Hash) :
    c.checkBlock p.1 h = (decide (p.2 = h), true) := by
  rw [checkBlock, find?_of_mem hp]

theorem ne_of_checkBlock {height : Nat} {h : Hash} (hno : (c.checkBlock height h).2 = false)
    (hp : p ∈ c.points) : p.1 ≠ height := by
  rintro rfl
  rw [checkBlock_of_mem hp] at hno
  cases hno

theorem isInCheckpointZone_of_mem (hp : p ∈ c.points) : c.isInCheckpointZone p.1 = true := by
  obtain ⟨front, last, hlast⟩ := (List.eq_nil_or_concat' c.points).resolve_left
    (List.ne_nil_of_mem hp)
  have hsorted := c.sorted
  rw [isInCheckpointZone, hlast, List.getLast?_concat]
  rw [hlast] at hp hsorted
  rw [List.map_append, List.pairwise_append] at hsorted
  rw [decide_eq_true_iff]
  rcases List.mem_append.mp hp with hp | hp
  · exact (hsorted.2.2 p.1 (List.mem_map_of_mem hp) last.1 (by simp)).le
  · rw [List.mem_singleton.mp hp]

/-- An alternative block is allowed above every checkpoint that the chain has
reached. -/
theorem lt_of_isAlternativeBlockAllowed {blockchainHeight blockHeight : Nat}
    (h : c.isAlternativeBlockAllowed blockchainHeight blockHeight = true) (hp : p ∈ c.points)
    (hle : p.1 ≤ blockchainHeight) : p.1 < blockHeight := by
  unfold isAlternativeBlockAllowed at h
  split at h
  · cases h
  have hmem : p ∈ c.points.filter (·.1 ≤ blockchainHeight) :=
    List.mem_filter.mpr ⟨hp, by simpa using hle⟩
  have hsorted : (c.points.filter (·.1 ≤ blockchainHeight)).Pairwise (·.1 < ·.1) :=
    (List.pairwise_map.mp c.sorted).filter _
  obtain ⟨front, last, hlast⟩ := (List.eq_nil_or_concat' (c.points.filter _)).resolve_left
    (List.ne_nil_of_mem hmem)
  rw [hlast] at hmem hsorted h
  rw [List.getLast?_concat, decide_eq_true_iff] at h
  rcases List.mem_append.mp hmem with hmem | hmem
  · exact ((List.pairwise_append.mp hsorted).2.2 p hmem last (by simp)).trans h
  · rwa [List.mem_singleton.mp hmem]

end Checkpoints

end Lethean
