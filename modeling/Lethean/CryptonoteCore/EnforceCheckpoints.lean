import Lethean.CryptonoteCore.CheckpointFinality

/-!
# Lethean.CryptonoteCore.EnforceCheckpoints

`check_against_checkpoints`: a checkpoint that the chain contradicts makes it roll
back to two blocks below the checkpoint. The height it rolls back to is computed
in `uint64_t`, so this works from height 3 on. At height 2 the genesis block goes
as well, and at height 1 the height wraps, `rollback_blockchain_switching` returns
`true` for a height above the chain, and nothing happens.
-/

namespace Lethean

namespace Blockchain

variable {env : Env} {now : Nat} {bc bc' : Blockchain} {points : Checkpoints}

/-- One round of the loop of `check_against_checkpoints`. -/
def checkAgainstCheckpoint (env : Env) (now : Nat) (points : Checkpoints) (enforce : Bool)
    (bc : Blockchain) (pt : Nat × Hash) : Option Blockchain :=
  if bc.db.height ≤ pt.1 then some bc
  else do
    let id ← bc.db.getBlockHashFromHeight pt.1
    if (points.checkBlock pt.1 id).1 then some bc
    else if enforce then do
      let (_, bc) ← bc.rollbackBlockchainSwitching env now [] (subU64 pt.1 2)
      some bc
    else some bc

/-- `check_against_checkpoints`; `none` when the storage throws. -/
def checkAgainstCheckpoints (env : Env) (now : Nat) (bc : Blockchain) (points : Checkpoints)
    (enforce : Bool) : Option Blockchain :=
  points.points.foldlM (checkAgainstCheckpoint env now points enforce) bc

/-- The chain has another block at the checkpoint. -/
def Contradicts (chain : List StoredBlock) (pt : Nat × Hash) : Prop :=
  ∃ s, chain[pt.1]? = some s ∧ s.hash ≠ pt.2

/-- The same for the checkpoint of a height, if there is one. -/
def ConflictAt (points : Checkpoints) (chain : List StoredBlock) (height : Nat) : Prop :=
  ∃ pt ∈ points.points, pt.1 = height ∧ Contradicts chain pt

theorem agrees_iff {chain : List StoredBlock} :
    points.Agrees chain ↔ ∀ pt ∈ points.points, ¬ Contradicts chain pt := by
  constructor
  · rintro h pt hpt ⟨s, hs, hne⟩
    exact hne (h pt hpt s hs)
  · intro h pt hpt s hs
    by_contra hne
    exact h pt hpt ⟨s, hs, hne⟩

/-! ### One round -/

theorem againstCheckpoint_ok {pt : Nat × Hash} (hpt : pt ∈ points.points)
    (h : ¬ Contradicts bc.db.chain pt) :
    checkAgainstCheckpoint env now points true bc pt = some bc := by
  unfold checkAgainstCheckpoint
  split
  · rfl
  rename_i hlt
  rw [BlockchainDb.height, not_le] at hlt
  have hget := List.getElem?_eq_getElem hlt
  have hhash : pt.2 = bc.db.chain[pt.1].hash := by
    by_contra hne
    exact h ⟨_, hget, Ne.symm hne⟩
  rw [BlockchainDb.getBlockHashFromHeight, hget]
  simp [Checkpoints.checkBlock_of_mem hpt, hhash]

theorem againstCheckpoint_conflict {pt : Nat × Hash} (hpt : pt ∈ points.points)
    (h : Contradicts bc.db.chain pt) :
    checkAgainstCheckpoint env now points true bc pt =
      (bc.rollbackBlockchainSwitching env now [] (subU64 pt.1 2)).map Prod.snd := by
  obtain ⟨s, hs, hne⟩ := h
  have hlt := (List.getElem?_eq_some_iff.mp hs).1
  unfold checkAgainstCheckpoint
  rw [if_neg (by rw [BlockchainDb.height]; omega), BlockchainDb.getBlockHashFromHeight, hs]
  simp only [Option.map_some, Option.bind_eq_bind, Option.bind_some,
    Checkpoints.checkBlock_of_mem hpt, decide_eq_true_eq, if_neg (Ne.symm hne), if_true]
  cases bc.rollbackBlockchainSwitching env now [] (subU64 pt.1 2) <;> rfl

theorem rollback_to {n : Nat} {r : Bool} (hn : n ≤ bc.db.height)
    (h : bc.rollbackBlockchainSwitching env now [] n = some (r, bc')) :
    bc'.db.chain = bc.db.chain.take n := by
  rcases rollback_inv h with
    ⟨hlow, -, -⟩ | ⟨-, bc1, bc2, bc3, rest, hpop, hreorg, hconn, hend⟩
  · exact absurd hlow (Nat.not_lt.mpr hn)
  have hlen : (bc.db.chain.drop n).length = bc.db.height - n := by
    rw [List.length_drop, BlockchainDb.height]
  obtain ⟨bc1', hpop', hchain1, -, -⟩ :
      ∃ bc1', bc.dropCache.popBlocks env now (bc.db.height - n) = some bc1' ∧
        bc1'.db.chain = bc.db.chain.take n ∧ SameNode bc.dropCache bc1' ∧ bc1'.cachedHeight = 0 :=
    popBlocks_of_chain (List.take_append_drop n bc.db.chain).symm hlen rfl
  rw [hpop] at hpop'
  obtain rfl := Option.some.inj hpop'
  obtain ⟨hchain2, -⟩ := reorganize_inv hreorg
  obtain ⟨rfl, rfl⟩ := Prod.mk.inj hconn
  rcases hend with ⟨-, -, hreorg'⟩ | ⟨hne, -⟩
  · rw [(reorganize_inv hreorg').1, hchain2, hchain1]
  · exact absurd rfl hne

theorem againstCheckpoint_one {pt : Nat × Hash} (hpt : pt ∈ points.points) (h1 : pt.1 = 1)
    (hsmall : bc.db.height < 2 ^ 64 - 1) :
    checkAgainstCheckpoint env now points true bc pt = some bc := by
  by_cases h : Contradicts bc.db.chain pt
  · rw [againstCheckpoint_conflict hpt h, h1, show subU64 1 2 = 2 ^ 64 - 1 from rfl,
      rollbackBlockchainSwitching, if_pos hsmall]
    rfl
  · exact againstCheckpoint_ok hpt h

theorem againstCheckpoint_two_le {pt : Nat × Hash} (hpt : pt ∈ points.points)
    (h2 : 2 ≤ pt.1) (hsmall : bc.db.height < 2 ^ 64 - 1) (h : Contradicts bc.db.chain pt)
    (hrun : checkAgainstCheckpoint env now points true bc pt = some bc') :
    bc'.db.chain = bc.db.chain.take (pt.1 - 2) := by
  have hlt : pt.1 < bc.db.height := (List.getElem?_eq_some_iff.mp h.choose_spec.1).1
  rw [againstCheckpoint_conflict hpt h, subU64_of_le h2 (by omega)] at hrun
  obtain ⟨⟨r, bc1⟩, hroll, rfl⟩ := Option.map_eq_some_iff.mp hrun
  exact rollback_to (by omega) hroll

/-! ### The loop -/

/-- While there is no conflict from height 2 on, the chain stays as it is. -/
theorem foldlM_checkAgainst_ok (hsmall : bc.db.height < 2 ^ 64 - 1) :
    ∀ {l : List (Nat × Hash)}, (∀ pt ∈ l, pt ∈ points.points) →
      (∀ pt ∈ l, 1 ≠ pt.1 → ¬ Contradicts bc.db.chain pt) →
      l.foldlM (checkAgainstCheckpoint env now points true) bc = some bc
  | [], _, _ => rfl
  | pt :: l, hmem, hok => by
    have hstep : checkAgainstCheckpoint env now points true bc pt = some bc := by
      by_cases h1 : pt.1 = 1
      · exact againstCheckpoint_one (hmem pt (by simp)) h1 hsmall
      · exact againstCheckpoint_ok (hmem pt (by simp)) (hok pt (by simp) (Ne.symm h1))
    rw [List.foldlM_cons, hstep]
    exact foldlM_checkAgainst_ok hsmall (fun p hp => hmem p (by simp [hp]))
      fun p hp => hok p (by simp [hp])

/-- **The loop.** It stops at the first conflict from height 2 on: the checkpoints
that follow are above the new top. -/
theorem checkAgainstCheckpoints_chain (hsmall : bc.db.height < 2 ^ 64 - 1)
    (hzero : ∀ pt ∈ points.points, pt.1 = 0 → ¬ Contradicts bc.db.chain pt)
    (h : bc.checkAgainstCheckpoints env now points true = some bc') :
    (bc'.db.chain = bc.db.chain ∧
      ∀ pt ∈ points.points, pt.1 ≠ 1 → ¬ Contradicts bc.db.chain pt) ∨
    ∃ c, 2 ≤ c ∧ ConflictAt points bc.db.chain c ∧
      (∀ pt ∈ points.points, pt.1 ≠ 1 → pt.1 < c → ¬ Contradicts bc.db.chain pt) ∧
      bc'.db.chain = bc.db.chain.take (c - 2) := by
  classical
  by_cases hall : ∀ pt ∈ points.points, pt.1 ≠ 1 → ¬ Contradicts bc.db.chain pt
  · have hrun : bc.checkAgainstCheckpoints env now points true = some bc :=
      foldlM_checkAgainst_ok hsmall (fun _ hp => hp) fun pt hp h1 => hall pt hp (Ne.symm h1)
    rw [h] at hrun
    obtain rfl := Option.some.inj hrun
    exact .inl ⟨rfl, hall⟩
  · -- the first one that is contradicted
    obtain ⟨pt, hfind⟩ : ∃ pt,
        points.points.find? (fun pt => pt.1 ≠ 1 ∧ Contradicts bc.db.chain pt) = some pt := by
      rw [← Option.isSome_iff_exists, List.find?_isSome]
      push Not at hall
      obtain ⟨pt, hpt, h1, hc⟩ := hall
      exact ⟨pt, hpt, by simpa using ⟨h1, hc⟩⟩
    obtain ⟨hpt, pre, post, hsplit, hpre⟩ := List.find?_eq_some_iff_append.mp hfind
    obtain ⟨hne, hconflict⟩ := of_decide_eq_true hpt
    have hmem : ∀ q ∈ pre ++ pt :: post, q ∈ points.points := fun q hq => by rwa [hsplit]
    have hptmem := hmem pt (by simp)
    have h2 : 2 ≤ pt.1 := by
      have h0 : pt.1 ≠ 0 := fun h0 => hzero pt hptmem h0 hconflict
      omega
    have hpre_ok : ∀ q ∈ pre, 1 ≠ q.1 → ¬ Contradicts bc.db.chain q := by
      intro q hq h1 hc
      have := hpre q hq
      simp only [Bool.not_eq_true', decide_eq_false_iff_not] at this
      exact this ⟨Ne.symm h1, hc⟩
    have hsorted := List.pairwise_map.mp points.sorted
    rw [hsplit, List.pairwise_append, List.pairwise_cons] at hsorted
    -- run the three parts
    rw [checkAgainstCheckpoints, hsplit, List.foldlM_append,
      foldlM_checkAgainst_ok hsmall (fun q hq => hmem q (by simp [hq])) hpre_ok,
      Option.bind_eq_bind, Option.bind_some, List.foldlM_cons] at h
    obtain ⟨bc1, hstep, hpost⟩ := Option.bind_eq_some_iff.mp h
    have hchain1 := againstCheckpoint_two_le hptmem h2 hsmall hconflict hstep
    have hheight1 : bc1.db.height ≤ pt.1 := by
      rw [BlockchainDb.height, hchain1, List.length_take]
      omega
    have hskip : post.foldlM (checkAgainstCheckpoint env now points true) bc1 = some bc1 := by
      refine foldlM_checkAgainst_ok ?_ (fun q hq => hmem q (by simp [hq])) fun q hq _ => ?_
      · have := (List.getElem?_eq_some_iff.mp hconflict.choose_spec.1).1
        rw [BlockchainDb.height] at hsmall
        omega
      · rintro ⟨s, hs, -⟩
        have hlt := (List.getElem?_eq_some_iff.mp hs).1
        have := hsorted.2.1.1 q hq
        rw [BlockchainDb.height] at hheight1
        omega
    rw [hskip] at hpost
    obtain rfl := Option.some.inj hpost
    refine .inr ⟨pt.1, h2, ⟨pt, hptmem, rfl, hconflict⟩, fun q hq h1 hlt => ?_, hchain1⟩
    rw [hsplit] at hq
    rcases List.mem_append.mp hq with hq | hq
    · exact hpre_ok q hq (Ne.symm h1)
    · rcases List.mem_cons.mp hq with rfl | hq
      · omega
      · have := hsorted.2.1.1 q hq
        omega

/-- **Enforcing checkpoints.** Where the genesis block is as the checkpoints say,
the chain becomes a front of itself. The genesis block is still there and the
chain agrees with all checkpoints exactly if there was no conflict at height 2,
and none at height 1 unless there was one at height 3. -/
theorem check_against_checkpoints_iff (env : Env) (now : Nat) (bc : Blockchain)
    (points : Checkpoints) {bc' : Blockchain} (hgenesis : bc.db.chain ≠ [])
    (hsmall : bc.db.height < 2 ^ 64 - 1)
    (hzero : ∀ pt ∈ points.points, pt.1 = 0 → bc.db.getBlockHashFromHeight 0 = some pt.2)
    (h : bc.checkAgainstCheckpoints env now points true = some bc') :
    bc'.db.chain <+: bc.db.chain ∧
      ((0 < bc'.db.height ∧ points.Agrees bc'.db.chain) ↔
        ¬ ConflictAt points bc.db.chain 2 ∧
          (ConflictAt points bc.db.chain 1 → ConflictAt points bc.db.chain 3)) := by
  have hpos : 0 < bc.db.height := List.length_pos_iff.mpr hgenesis
  have hzero' : ∀ pt ∈ points.points, pt.1 = 0 → ¬ Contradicts bc.db.chain pt := by
    rintro pt hpt h0 ⟨s, hs, hne⟩
    have := hzero pt hpt h0
    rw [h0] at hs
    rw [BlockchainDb.getBlockHashFromHeight, hs] at this
    exact hne (Option.some.inj this)
  rcases checkAgainstCheckpoints_chain hsmall hzero' h with
    ⟨hchain, hok⟩ | ⟨c, hc2, ⟨pt, hpt, rfl, hconflict⟩, hbelow, hchain⟩
  · -- no rollback: only a conflict at height 1 can be left
    rw [BlockchainDb.height, hchain, agrees_iff]
    refine ⟨List.prefix_refl _, ?_⟩
    constructor
    · rintro ⟨-, hagrees⟩
      refine ⟨?_, ?_⟩
      · rintro ⟨pt, hpt, -, hc⟩
        exact hagrees pt hpt hc
      · rintro ⟨pt, hpt, -, hc⟩
        exact absurd hc (hagrees pt hpt)
    · rintro ⟨-, h13⟩
      refine ⟨hpos, fun pt hpt hc => ?_⟩
      by_cases h1 : pt.1 = 1
      · obtain ⟨q, hq, hq3, hqc⟩ := h13 ⟨pt, hpt, h1, hc⟩
        exact hok q hq (by omega) hqc
      · exact hok pt hpt h1 hc
  · have hlen : pt.1 < bc.db.chain.length :=
      (List.getElem?_eq_some_iff.mp hconflict.choose_spec.1).1
    have hlen' : bc'.db.chain.length = pt.1 - 2 := by
      rw [hchain, List.length_take]
      omega
    have hsame : ∀ {q s}, bc'.db.chain[q]? = some s → bc.db.chain[q]? = some s ∧ q < pt.1 - 2 := by
      intro q s hs
      have hlt := (List.getElem?_eq_some_iff.mp hs).1
      rw [hchain, List.getElem?_take_of_lt (by omega)] at hs
      exact ⟨hs, by omega⟩
    refine ⟨by rw [hchain]; exact List.take_prefix _ _, ?_⟩
    rw [BlockchainDb.height, hlen', agrees_iff]
    constructor
    · rintro ⟨hlt, hagrees⟩
      refine ⟨?_, ?_⟩
      · rintro ⟨q, hq, hq2, hqc⟩
        exact hbelow q hq (by omega) (by omega) hqc
      rintro ⟨q, hq, hq1, s, hs, hne⟩
      -- block 1 is gone, so the rollback was at height 3
      by_cases h3 : pt.1 = 3
      · exact ⟨pt, hpt, h3, hconflict⟩
      · refine absurd ⟨s, ?_, hne⟩ (hagrees q hq)
        rwa [hchain, List.getElem?_take_of_lt (by omega)]
    · rintro ⟨hno2, h13⟩
      have hne2 : pt.1 ≠ 2 := fun h2 => hno2 ⟨pt, hpt, h2, hconflict⟩
      refine ⟨by omega, ?_⟩
      rintro q hq ⟨s, hs, hne⟩
      obtain ⟨hs', hlt⟩ := hsame hs
      by_cases h1 : q.1 = 1
      · obtain ⟨q', hq', hq3, hqc⟩ := h13 ⟨q, hq, h1, s, hs', hne⟩
        exact hbelow q' hq' (by omega) (by omega) hqc
      · exact hbelow q hq h1 (by omega) ⟨s, hs', hne⟩

def fourBlocks : Option Blockchain :=
  deliver .permissive 10000 straddledNode (straddlingCommon ++ straddlingMain)

def foreignPoint (height : Nat) : Checkpoints := ⟨[(height, numberedHash 99)], by simp⟩

/-- A conflict at height 3 leaves the genesis block, as the theorem says. -/
theorem check_against_checkpoints_iff_three : ∃ bc bc', fourBlocks = some bc ∧
    bc.checkAgainstCheckpoints .permissive 10000 (foreignPoint 3) true = some bc' ∧
    bc'.db.height = 1 ∧
    ((0 < bc'.db.height ∧ (foreignPoint 3).Agrees bc'.db.chain) ↔
      ¬ ConflictAt (foreignPoint 3) bc.db.chain 2 ∧
        (ConflictAt (foreignPoint 3) bc.db.chain 1 → ConflictAt (foreignPoint 3) bc.db.chain 3)) := by
  obtain ⟨bc, hbc, h⟩ := (Option.any_eq_true _ _).mp (by decide +kernel :
    fourBlocks.any (fun bc => bc.db.height = 4 ∧
      (bc.checkAgainstCheckpoints .permissive 10000 (foreignPoint 3) true).any
        (fun bc' => bc'.db.height = 1) = true) = true)
  obtain ⟨hheight, h⟩ := of_decide_eq_true h
  obtain ⟨bc', hrun, hheight'⟩ := (Option.any_eq_true _ _).mp h
  refine ⟨bc, bc', hbc, hrun, of_decide_eq_true hheight',
    (check_against_checkpoints_iff .permissive 10000 bc (foreignPoint 3) ?_ ?_ ?_ hrun).2⟩
  · rintro hnil
    rw [BlockchainDb.height, hnil] at hheight
    cases hheight
  · rw [hheight]
    decide
  · simp [foreignPoint]

/-- A conflict at height 1 is passed over, and one at height 2 empties the database. -/
theorem low_checkpoints_not_enforced : ∃ bc bc₁ bc₂, fourBlocks = some bc ∧
    bc.checkAgainstCheckpoints .permissive 10000 (foreignPoint 1) true = some bc₁ ∧
    bc₁.db.height = 4 ∧ bc₁.db.getBlockHashFromHeight 1 = some (numberedHash 1) ∧
    bc.checkAgainstCheckpoints .permissive 10000 (foreignPoint 2) true = some bc₂ ∧
    bc₂.db.height = 0 := by
  obtain ⟨bc, hbc, h⟩ := (Option.any_eq_true _ _).mp (by decide +kernel :
    fourBlocks.any (fun bc =>
      (bc.checkAgainstCheckpoints .permissive 10000 (foreignPoint 1) true).any (fun bc' =>
        bc'.db.height = 4 ∧ bc'.db.getBlockHashFromHeight 1 = some (numberedHash 1)) = true ∧
      (bc.checkAgainstCheckpoints .permissive 10000 (foreignPoint 2) true).any
        (fun bc' => bc'.db.height = 0) = true) = true)
  obtain ⟨h₁, h₂⟩ := of_decide_eq_true h
  obtain ⟨bc₁, hrun₁, h₁⟩ := (Option.any_eq_true _ _).mp h₁
  obtain ⟨bc₂, hrun₂, h₂⟩ := (Option.any_eq_true _ _).mp h₂
  obtain ⟨hheight, hhash⟩ := of_decide_eq_true h₁
  exact ⟨bc, bc₁, bc₂, hbc, hrun₁, hheight, hhash, hrun₂, of_decide_eq_true h₂⟩

end Blockchain

end Lethean
