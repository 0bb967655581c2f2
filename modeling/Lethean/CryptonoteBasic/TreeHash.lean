import Lethean.Lib.PairTree
import Lethean.CryptonoteBasic.FormatUtils

/-!
# Lethean.CryptonoteBasic.TreeHash

The Merkle trees of `tree-hash.c`. A block commits to its transactions with
`tree_hash`, and a merge-mined block proves with a branch (`tree_branch`,
`tree_hash_from_branch`) that the miner transaction of the parent block is the
first leaf of such a tree.

A tree over `n` leaves is full from its second level on: with `2 ^ d ≤ n < 2 ^ (d + 1)`
the first `2 ^ (d + 1) - n` leaves stay as they are and the others are paired,
which leaves `2 ^ d` values (`lowestLevel`). The three functions find `d` by three
different loops; `tree_hash` takes the power of two below `n`, so for a power of two
it starts one level higher. All levels are computed in place, as the source does;
`Lib/PairTree` says what the loops leave in the array.
-/

namespace Lethean

namespace Crypto

variable (c : Crypto)

/-! ### The functions of the source -/

/-- `while (cnt > 2)` of `tree_hash`; the bound is the width. -/
def treeHashRounds : Nat → Nat → List Hash → List Hash
  | 0, _, ints => ints
  | n + 1, cnt, ints =>
    if 2 < cnt then
      let cnt := cnt >>> 1
      treeHashRounds n cnt (PairTree.pass c.hashPair nullHash 0 cnt 0 ints)
    else ints

/-- `tree_hash`, on the array `ints`. -/
def treeHashInts (hashes : List Hash) : Hash :=
  let count := hashes.length
  if count = 1 then hashes.getD 0 nullHash
  else if count = 2 then c.hashPair (hashes.getD 0 nullHash) (hashes.getD 1 nullHash)
  else
    let cnt := treeHashCnt count
    let ints := hashes.take (2 * cnt - count) ++ List.replicate (cnt - (2 * cnt - count)) nullHash
    let ints := PairTree.fill c.hashPair nullHash hashes (cnt - (2 * cnt - count))
      (2 * cnt - count) (2 * cnt - count) ints
    let ints := treeHashRounds c cnt cnt ints
    c.hashPair (ints.getD 0 nullHash) (ints.getD 1 nullHash)

/-- The loop of `tree_branch` that finds `cnt` and `depth`, over the shifts 32, 16, ..., 1. -/
def treeBranchCntLoop (count : Nat) : List Nat → Nat → Nat → Nat × Nat
  | [], cnt, depth => (cnt, depth)
  | i :: rest, cnt, depth =>
    if u64 (cnt <<< i) ≤ count then treeBranchCntLoop count rest (u64 (cnt <<< i)) (depth + i)
    else treeBranchCntLoop count rest cnt depth

/-- `while (depth > 0)` of `tree_branch`. -/
def treeBranchRounds : Nat → Nat → List Hash → List Hash → List Hash
  | 0, _, _, branch => branch
  | depth + 1, cnt, ints, branch =>
    let cnt := cnt >>> 1
    let branch := branch.set depth (ints.getD 0 nullHash)
    treeBranchRounds depth cnt (PairTree.pass c.hashPair nullHash 1 (cnt - 1) 0 ints) branch

/-- `tree_branch`: the array `branch` after the call. -/
def treeBranch (hashes branch : List Hash) : List Hash :=
  let count := hashes.length
  let (cnt, depth) := treeBranchCntLoop count [32, 16, 8, 4, 2, 1] 1 0
  let single := 2 * cnt - count
  let ints := (hashes.drop 1).take (single - 1) ++ List.replicate (cnt - single) nullHash
  let ints := PairTree.fill c.hashPair nullHash hashes (cnt - single) single (single - 1) ints
  treeBranchRounds c depth cnt ints branch

/-! ### The depth -/

/-- The shifts of the two loops: the powers of two below `2 ^ m`, downwards. -/
def shifts : Nat → List Nat
  | 0 => []
  | m + 1 => 2 ^ m :: shifts m

variable {count k : Nat} {ints branch : List Hash}

theorem treeDepthLoop_shifts {m : Nat} (hpos : 0 < count) (hlt : count < 2 ^ 2 ^ m) (depth : Nat) :
    treeDepthLoop (shifts m) count depth = depth + Nat.log 2 count := by
  induction m generalizing count depth with
  | zero =>
    rw [show count = 1 by omega]
    rfl
  | succ m ih =>
    rw [shifts, treeDepthLoop, Nat.shiftRight_eq_div_pow]
    split
    · rename_i h
      rw [Nat.div_pos_iff] at h
      have hlog : 2 ^ m ≤ Nat.log 2 count := Nat.le_log_of_pow_le (by decide) h.2
      rw [ih (Nat.div_pos h.2 h.1), Nat.log_div_base_pow]
      · omega
      · rwa [Nat.div_lt_iff_lt_mul (by positivity), ← pow_add, ← two_mul, ← pow_succ']
    · rename_i h
      rw [Nat.div_pos_iff] at h
      exact ih hpos (not_le.mp fun hle => h ⟨by positivity, hle⟩) depth

/-- `tree_depth` is the binary logarithm. -/
theorem treeDepth_eq (hpos : 0 < count) (hlt : count < 2 ^ 64) :
    treeDepth count = Nat.log 2 count :=
  (treeDepthLoop_shifts (m := 6) hpos hlt 0).trans (Nat.zero_add _)

theorem treeBranchCntLoop_shifts {m count depth : Nat} (hle : 2 ^ depth ≤ count)
    (hlt : count < 2 ^ (depth + 2 ^ m)) (hword : depth + 2 ^ m ≤ 64) :
    treeBranchCntLoop count (shifts m) (2 ^ depth) depth =
      (2 ^ Nat.log 2 count, Nat.log 2 count) := by
  induction m generalizing depth with
  | zero =>
    rw [Nat.log_eq_of_pow_le_of_lt_pow hle hlt]
    rfl
  | succ m ih =>
    have hdouble : 2 ^ (m + 1) = 2 ^ m + 2 ^ m := by ring
    have hpos : 0 < 2 ^ m := by positivity
    have hshift : u64 (2 ^ depth <<< 2 ^ m) = 2 ^ (depth + 2 ^ m) := by
      rw [Nat.shiftLeft_eq, ← pow_add]
      exact u64_of_lt (Nat.pow_lt_pow_right (by decide) (by omega))
    rw [shifts, treeBranchCntLoop, hshift]
    split
    · rename_i h
      exact ih h (by rwa [add_assoc, ← hdouble]) (by omega)
    · rename_i h
      exact ih hle (not_le.mp h) (by omega)

theorem treeBranchCntLoop_eq (hpos : 0 < count) (hlt : count < 2 ^ 64) :
    treeBranchCntLoop count [32, 16, 8, 4, 2, 1] 1 0 =
      (2 ^ Nat.log 2 count, Nat.log 2 count) :=
  @treeBranchCntLoop_shifts 6 count 0 hpos hlt (by decide)

/-- `tree_hash` takes a power of two that is strictly below the count. -/
theorem treeHashCntLoop_eq (hlt : 2 ^ k < count) (hle : count ≤ 2 ^ (k + 1)) {n j : Nat}
    (hj : j ≤ k + 1) (hn : k + 1 ≤ n + j) : treeHashCntLoop count n (2 ^ j) = 2 ^ (k + 1) := by
  induction n generalizing j with
  | zero =>
    rw [treeHashCntLoop, show j = k + 1 by omega]
  | succ n ih =>
    rw [treeHashCntLoop, Nat.shiftLeft_eq, ← pow_add]
    split
    · rename_i h
      have : j < k + 1 := (Nat.pow_lt_pow_iff_right (by decide)).mp (h.trans_le hle)
      exact ih (by omega) (by omega)
    · rename_i h
      have hjk : k < j := (Nat.pow_lt_pow_iff_right (by decide)).mp (hlt.trans_le (not_lt.mp h))
      rw [show j = k + 1 by omega]

theorem treeHashCnt_eq (hk : 1 ≤ k) (hlt : 2 ^ k < count) (hle : count ≤ 2 ^ (k + 1)) :
    treeHashCnt count = 2 ^ k := by
  have hself : k < 2 ^ k := Nat.lt_two_pow_self
  rw [treeHashCnt, show (2 : Nat) = 2 ^ 1 from rfl,
    treeHashCntLoop_eq hlt hle (by omega) (by omega), Nat.shiftRight_eq_div_pow, pow_succ]
  simp

/-! ### The lowest full level -/

/-- The level of `2 ^ d` values over the leaves. -/
def lowestLevel (hashes : List Hash) : List Hash :=
  let single := 2 * 2 ^ Nat.log 2 hashes.length - hashes.length
  hashes.take single ++ PairTree.level c.hashPair (hashes.drop single)

theorem hashPairs_eq : ∀ hashes, c.hashPairs hashes = PairTree.level c.hashPair hashes
  | [] => rfl
  | [_] => rfl
  | a :: b :: rest => by rw [hashPairs, PairTree.level_cons_cons, hashPairs_eq rest]

variable {hashes : List Hash}

theorem length_lowestLevel (hne : hashes ≠ []) :
    (c.lowestLevel hashes).length = 2 ^ Nat.log 2 hashes.length := by
  have hpos := List.length_pos_iff.mpr hne
  have hle := Nat.pow_log_le_self 2 hpos.ne'
  have hlt := Nat.lt_pow_succ_log_self (b := 2) (by decide) hashes.length
  rw [pow_succ] at hlt
  simp only [lowestLevel, List.length_append, List.length_take, PairTree.length_level,
    List.length_drop]
  omega

theorem lowestLevel_eq_cons (hne : hashes ≠ []) :
    ∃ rest, c.lowestLevel hashes = hashes.getD 0 nullHash :: rest := by
  obtain ⟨leaf, hs, rfl⟩ := List.exists_cons_of_ne_nil hne
  have hlt := Nat.lt_pow_succ_log_self (b := 2) (by decide) (leaf :: hs).length
  rw [pow_succ] at hlt
  obtain ⟨m, hm⟩ : ∃ m, 2 * 2 ^ Nat.log 2 (leaf :: hs).length - (leaf :: hs).length = m + 1 :=
    ⟨2 * 2 ^ Nat.log 2 (leaf :: hs).length - (leaf :: hs).length - 1, by omega⟩
  exact ⟨_, by rw [lowestLevel, hm, List.take_succ_cons, List.cons_append]; rfl⟩

/-! ### The root -/

theorem exists_pow_lt {n : Nat} (hn : 3 ≤ n) : ∃ k, 1 ≤ k ∧ 2 ^ k < n ∧ n ≤ 2 ^ (k + 1) := by
  have hlog : 1 ≤ Nat.log 2 (n - 1) := Nat.le_log_of_pow_le (by decide) (by omega)
  have hle := Nat.pow_log_le_self 2 (show n - 1 ≠ 0 by omega)
  have hlt := Nat.lt_pow_succ_log_self (b := 2) (by decide) (n - 1)
  exact ⟨Nat.log 2 (n - 1), hlog, by omega, by omega⟩

theorem treeHashLoop_eq {n : Nat} (hlen : ints.length = 2 ^ (k + 1)) (hn : k ≤ n) :
    [c.treeHashLoop n ints] = (PairTree.level c.hashPair)^[k + 1] ints := by
  induction k generalizing n ints with
  | zero =>
    match ints, hlen with
    | [a, b], _ => cases n <;> rfl
  | succ k ih =>
    obtain ⟨n, rfl⟩ : ∃ m, n = m + 1 := ⟨n - 1, by omega⟩
    obtain ⟨a, b, rest, rfl, hlevel⟩ := PairTree.exists_cons_cons c.hashPair hlen
    have hrest : rest ≠ [] := by
      rintro rfl
      have : 2 ^ (k + 1 + 1) = 2 * 2 ^ (k + 1) := by ring
      have : 2 ^ (k + 1) = 2 * 2 ^ k := by ring
      have : 0 < 2 ^ k := by positivity
      simp only [List.length_cons, List.length_nil] at hlen
      omega
    obtain ⟨x, rest, rfl⟩ := List.exists_cons_of_ne_nil hrest
    rw [treeHashLoop, hashPairs_eq, ih hlevel (by omega), ← Function.iterate_succ_apply]
    simp

theorem treeHash_of_three (h : 3 ≤ hashes.length) :
    c.treeHash hashes = c.treeHashLoop (treeHashCnt hashes.length)
      (hashes.take (2 * treeHashCnt hashes.length - hashes.length) ++ PairTree.level c.hashPair
          (hashes.drop (2 * treeHashCnt hashes.length - hashes.length))) := by
  match hashes, h with
  | a :: b :: x :: rest, _ =>
    rw [← hashPairs_eq]
    rfl

/-- The root is that of the lowest full level. For a power of two `tree_hash`
starts one level above it. -/
theorem treeHash_eq (hne : hashes ≠ []) :
    [c.treeHash hashes] =
      (PairTree.level c.hashPair)^[Nat.log 2 hashes.length] (c.lowestLevel hashes) := by
  rcases Nat.lt_or_ge hashes.length 3 with hshort | hthree
  · match hashes, hne, hshort with
    | [a], _, _ => rfl
    | [a, b], _, _ => rfl
  obtain ⟨k, hk, hlt, hle⟩ := exists_pow_lt hthree
  obtain ⟨j, rfl⟩ : ∃ j, k = j + 1 := ⟨k - 1, by omega⟩
  have hsmall : j + 1 < 2 ^ (j + 1) := Nat.lt_two_pow_self
  rw [treeHash_of_three c hthree, treeHashCnt_eq hk hlt hle]
  rcases hle.lt_or_eq with hbelow | hpow
  · have hlog : Nat.log 2 hashes.length = j + 1 := Nat.log_eq_of_pow_le_of_lt_pow hlt.le hbelow
    have hlevel := length_lowestLevel c hne
    rw [lowestLevel, hlog] at hlevel
    rw [lowestLevel, hlog, treeHashLoop_eq c hlevel (by omega)]
  · have hlog : Nat.log 2 hashes.length = j + 1 + 1 := by rw [hpow, Nat.log_pow (by decide)]
    have hdouble : 2 ^ (j + 1 + 1) = 2 * 2 ^ (j + 1) := by ring
    have hsingle : 2 * 2 ^ (j + 1) - hashes.length = 0 := by omega
    have hall : 2 * 2 ^ (j + 1 + 1) - hashes.length = hashes.length := by omega
    rw [lowestLevel, hlog, hsingle, hall, List.take_length, List.drop_length, List.take_zero,
      List.drop_zero, List.nil_append, PairTree.level_nil, List.append_nil,
      Function.iterate_succ_apply]
    refine treeHashLoop_eq c ?_ (by omega)
    rw [PairTree.length_level]
    omega

/-! ### The arrays -/

/-- What the rounds of `tree_hash` leave in the first two places. -/
theorem treeHashRounds_take {n : Nat} (hlen : 2 ^ (k + 1) ≤ ints.length) (hn : k ≤ n) :
    (c.treeHashRounds n (2 ^ (k + 1)) ints).take 2 =
      (PairTree.level c.hashPair)^[k] (ints.take (2 ^ (k + 1))) := by
  induction k generalizing n ints with
  | zero =>
    cases n with
    | zero => rfl
    | succ n => rfl
  | succ k ih =>
    obtain ⟨n, rfl⟩ : ∃ m, n = m + 1 := ⟨n - 1, by omega⟩
    have hpow : 2 ^ (k + 1 + 1) = 2 * 2 ^ (k + 1) := by ring
    have hpos : 2 ≤ 2 ^ (k + 1) := Nat.le_self_pow (by omega) 2
    have hhalf : 2 ^ (k + 1 + 1) >>> 1 = 2 ^ (k + 1) := by
      rw [Nat.shiftRight_eq_div_pow]
      omega
    have hpass :=
      @PairTree.pass_eq _ c.hashPair nullHash 0 (2 ^ (k + 1)) 0 ints (by omega)
    rw [List.take_zero, List.nil_append, List.drop_zero, ← hpow, Nat.zero_add] at hpass
    have hlevel : (PairTree.level c.hashPair (ints.take (2 ^ (k + 1 + 1)))).length =
        2 ^ (k + 1) := by
      rw [PairTree.length_level, List.length_take]
      omega
    rw [treeHashRounds, if_pos (by omega)]
    dsimp only
    rw [hhalf, hpass, ih _ (by omega), List.take_left' hlevel, Function.iterate_succ_apply]
    rw [List.length_append, hlevel]
    omega

/-- `tree_hash` on its array is the tree hash of the other modules. -/
theorem treeHashInts_eq (hne : hashes ≠ []) : c.treeHashInts hashes = c.treeHash hashes := by
  rcases Nat.lt_or_ge hashes.length 3 with hshort | hthree
  · match hashes, hne, hshort with
    | [a], _, _ => rfl
    | [a, b], _, _ => rfl
  obtain ⟨k, hk, hlt, hle⟩ := exists_pow_lt hthree
  obtain ⟨j, rfl⟩ : ∃ j, k = j + 1 := ⟨k - 1, by omega⟩
  have hpow : 2 ^ (j + 1 + 1) = 2 * 2 ^ (j + 1) := by ring
  have hsmall : j + 1 < 2 ^ (j + 1) := Nat.lt_two_pow_self
  rw [treeHashInts, if_neg (by omega), if_neg (by omega), treeHash_of_three c hthree,
    treeHashCnt_eq hk hlt hle]
  dsimp only
  obtain ⟨single, hsingle⟩ : ∃ single, 2 * 2 ^ (j + 1) - hashes.length = single := ⟨_, rfl⟩
  rw [hsingle]
  -- the first loop completes the lowest level
  have hfill := @PairTree.fill_eq _ c.hashPair nullHash hashes (2 ^ (j + 1) - single) single single
    (hashes.take single ++ List.replicate (2 ^ (j + 1) - single) nullHash) (by omega)
    (by rw [List.length_append, List.length_take, List.length_replicate]; omega)
  have hsrc : (hashes.drop single).take (2 * (2 ^ (j + 1) - single)) = hashes.drop single :=
    List.take_of_length_le (by rw [List.length_drop]; omega)
  have hdst : (hashes.take single ++ List.replicate (2 ^ (j + 1) - single) nullHash).drop
      (single + (2 ^ (j + 1) - single)) = [] :=
    List.drop_of_length_le (by
      rw [List.length_append, List.length_take, List.length_replicate]
      omega)
  rw [hsrc, hdst, List.append_nil, List.take_left' (by rw [List.length_take]; omega)] at hfill
  rw [hfill]
  have hlength : (hashes.take single ++ PairTree.level c.hashPair (hashes.drop single)).length =
      2 ^ (j + 1) := by
    rw [List.length_append, List.length_take, PairTree.length_level, List.length_drop]
    omega
  generalize hashes.take single ++ PairTree.level c.hashPair (hashes.drop single) = ints at *
  -- the rounds leave the two values below the root
  have hrounds := treeHashRounds_take c hlength.ge (show j ≤ 2 ^ (j + 1) by omega)
  have hroot := treeHashLoop_eq c hlength (show j ≤ 2 ^ (j + 1) by omega)
  rw [List.take_of_length_le hlength.le] at hrounds
  rw [Function.iterate_succ_apply', ← hrounds] at hroot
  generalize c.treeHashRounds (2 ^ (j + 1)) (2 ^ (j + 1)) ints = two at *
  match two, hroot with
  | [], hroot => cases hroot
  | [_], hroot => cases hroot
  | a :: b :: rest, hroot => exact (List.cons.inj hroot).1.symm

/-! ### The branch -/

/-- The rounds of `tree_branch` store the siblings, the one of the leaf last. The
array holds a level without its first value. -/
theorem treeBranchRounds_eq {depth : Nat} {l : List Hash} (hlen : l.length = 2 ^ depth)
    (hints : ints.take (2 ^ depth - 1) = l.tail) (hbranch : depth ≤ branch.length) :
    c.treeBranchRounds depth (2 ^ depth) ints branch =
      (PairTree.siblings c.hashPair depth l).reverse ++ branch.drop depth := by
  induction depth generalizing l ints branch with
  | zero =>
    rw [treeBranchRounds, PairTree.siblings_zero, List.reverse_nil, List.nil_append,
      List.drop_zero]
  | succ depth ih =>
    obtain ⟨a, b, rest, rfl, hlevel⟩ := PairTree.exists_cons_cons c.hashPair hlen
    have hpow : 2 ^ (depth + 1) = 2 * 2 ^ depth := by ring
    have hpos : 0 < 2 ^ depth := by positivity
    have hhalf : 2 ^ (depth + 1) >>> 1 = 2 ^ depth := by
      rw [Nat.shiftRight_eq_div_pow]
      omega
    rw [List.tail_cons] at hints
    rw [PairTree.level_cons_cons] at hlevel
    simp only [List.length_cons] at hlen hlevel
    have hlength : 2 ^ (depth + 1) - 1 ≤ ints.length := by
      have := congrArg List.length hints
      rw [List.length_take, List.length_cons] at this
      omega
    have hfirst : ints.getD 0 nullHash = b := by
      have := congrArg (·.getD 0 nullHash) hints
      rwa [List.getD_eq_getElem _ _ (by rw [List.length_take]; omega), List.getElem_take,
        ← List.getD_eq_getElem _ nullHash (by omega)] at this
    have hrest : (ints.drop 1).take (2 * (2 ^ depth - 1)) = rest := by
      have := congrArg (List.drop 1) hints
      rwa [List.drop_take, show 2 ^ (depth + 1) - 1 - 1 = 2 * (2 ^ depth - 1) by omega] at this
    have hpass := @PairTree.pass_eq _ c.hashPair nullHash 1 (2 ^ depth - 1) 0 ints (by omega)
    rw [List.take_zero, List.nil_append, Nat.mul_zero, hrest] at hpass
    rw [treeBranchRounds, hhalf, hfirst, hpass,
      ih (l := c.hashPair a b :: PairTree.level c.hashPair rest) hlevel
        (by rw [List.tail_cons, List.take_left' (by omega)]) (by rw [List.length_set]; omega),
      PairTree.siblings_succ, List.reverse_cons, List.append_assoc, PairTree.level_cons_cons,
      List.drop_eq_getElem_cons (by rw [List.length_set]; omega), List.getElem_set_self,
      List.drop_set_of_lt (by omega)]
    rfl

/-- `tree_branch` stores the siblings of the first leaf. -/
theorem treeBranch_eq (hne : hashes ≠ []) (hlt : hashes.length < 2 ^ 64)
    (hroom : Nat.log 2 hashes.length ≤ branch.length) :
    c.treeBranch hashes branch =
      (PairTree.siblings c.hashPair (Nat.log 2 hashes.length) (c.lowestLevel hashes)).reverse ++
        branch.drop (Nat.log 2 hashes.length) := by
  have hpos := List.length_pos_iff.mpr hne
  have hle := Nat.pow_log_le_self 2 hpos.ne'
  have hgt := Nat.lt_pow_succ_log_self (b := 2) (by decide) hashes.length
  have hlevel := length_lowestLevel c hne
  rw [pow_succ] at hgt
  rw [treeBranch, treeBranchCntLoop_eq hpos hlt]
  dsimp only
  refine treeBranchRounds_eq c hlevel ?_ hroom
  rw [lowestLevel] at hlevel ⊢
  generalize Nat.log 2 hashes.length = d at *
  obtain ⟨single, hsingle⟩ : ∃ single, 2 * 2 ^ d - hashes.length = single + 1 :=
    ⟨2 * 2 ^ d - hashes.length - 1, by omega⟩
  obtain ⟨leaf, hs, rfl⟩ := List.exists_cons_of_ne_nil hne
  rw [hsingle, List.take_succ_cons, List.cons_append] at hlevel ⊢
  rw [List.length_cons] at hle hgt hsingle hlevel
  have hsrc : ((leaf :: hs).drop (single + 1)).take (2 * (2 ^ d - (single + 1))) =
      (leaf :: hs).drop (single + 1) :=
    List.take_of_length_le (by rw [List.length_drop, List.length_cons]; omega)
  have hcopied : (hs.take single).length = single := by
    rw [List.length_take]
    omega
  rw [Nat.add_sub_cancel, List.drop_one, List.tail_cons, List.tail_cons,
    PairTree.fill_eq c.hashPair nullHash (by rw [List.length_cons]; omega)
      (by rw [List.length_append, hcopied, List.length_replicate]), hsrc, List.take_left' hcopied]
  exact List.take_left' (by omega)

/-- With the null path every sibling is on the right. -/
theorem treeHashFromBranchLoop_none {depth : Nat} (h : depth ≤ branch.length) (leaf : Hash) :
    c.treeHashFromBranchLoop branch none depth leaf =
      (branch.take depth).reverse.foldl c.hashPair leaf := by
  induction depth generalizing leaf with
  | zero => rfl
  | succ depth ih =>
    rw [treeHashFromBranchLoop, ih (by omega), List.take_succ_eq_append_getElem h,
      List.reverse_append, List.reverse_singleton, List.singleton_append, List.foldl_cons,
      List.getD_eq_getElem _ _ h]
    rfl

/-- **Merkle branches prove the root.** `tree_branch` writes the first
`tree_depth(n)` entries of its array and no other, and from them and the first
leaf `tree_hash_from_branch` computes the root. -/
theorem tree_branch_proves_root (branch : List Hash) (hne : hashes ≠ [])
    (hcount : hashes.length ≤ 2 ^ 28) (hroom : treeDepth hashes.length ≤ branch.length) :
    (∃ written, written.length = treeDepth hashes.length ∧
      c.treeBranch hashes branch = written ++ branch.drop (treeDepth hashes.length)) ∧
    c.treeHashFromBranchLoop (c.treeBranch hashes branch) none (treeDepth hashes.length)
      (hashes.getD 0 nullHash) = c.treeHashInts hashes := by
  have hpos := List.length_pos_iff.mpr hne
  have hlt : hashes.length < 2 ^ 64 := hcount.trans_lt (by decide)
  have hlength := PairTree.length_siblings c.hashPair (length_lowestLevel c hne)
  rw [treeDepth_eq hpos hlt] at hroom ⊢
  have hbranch := treeBranch_eq c hne hlt hroom
  refine ⟨⟨_, by rw [List.length_reverse, hlength], hbranch⟩, ?_⟩
  -- the branch read upwards is the list of siblings, and folding them gives the root
  have hroot := treeHash_eq c hne
  have hlevel := length_lowestLevel c hne
  obtain ⟨rest, hrest⟩ := lowestLevel_eq_cons c hne
  rw [hrest] at hbranch hroot hlevel hlength
  rw [PairTree.iterate_level c.hashPair hlevel] at hroot
  rw [treeHashInts_eq c hne, (List.cons.inj hroot).1, hbranch,
    treeHashFromBranchLoop_none c (by rw [List.length_append, List.length_reverse]; omega),
    List.take_left' (by rw [List.length_reverse, hlength]), List.reverse_reverse]

/-- The branch of the first of three leaves: the hash of the other two. -/
theorem tree_branch_proves_root_three :
    let c : Crypto := ⟨fun data => numberedHash data.sum.toNat, fun _ _ _ => nullHash,
      fun _ => nullHash, nullHash⟩
    let hashes := [numberedHash 1, numberedHash 2, numberedHash 3]
    let branch := c.treeBranch hashes [nullHash, numberedHash 9]
    branch = [numberedHash 5, numberedHash 9] ∧
      c.treeHashFromBranchLoop branch none 1 (numberedHash 1) = c.treeHashInts hashes :=
  ⟨by decide +kernel,
    (tree_branch_proves_root ⟨fun data => numberedHash data.sum.toNat, fun _ _ _ => nullHash,
      fun _ => nullHash, nullHash⟩ [nullHash, numberedHash 9] (by simp) (by decide)
      (by decide)).2⟩

end Crypto

end Lethean
