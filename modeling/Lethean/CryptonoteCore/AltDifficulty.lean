import Lethean.CryptonoteBasic.HardForkSchedule
import Lethean.CryptonoteCore.DifficultyCache

/-!
# Lethean.CryptonoteCore.AltDifficulty

The difficulty asked from an alternative block. `altWindow` glues a slice of
the main chain to the branch; it is the window that
`get_difficulty_for_next_block` reads on a node that has the branch on its main
chain. The version is taken from `get_ideal_version`, which answers with the
original version below the second fork.
-/

namespace Lethean

namespace Blockchain

variable {env : Env} {bc node : Blockchain}

/-- A branch that starts at height `split`, with the heights it should have, and
the same blocks as a main chain stores them: equal timestamps and equal
cumulative difficulties. -/
structure StoredBranch (split : Nat) (branch : List AltEntry) (blocks : List StoredBlock) :
    Prop where
  heights : ∀ i e, branch[i]? = some e → e.2.height = split + i
  timestamps : branch.map (fun e => e.2.bl.timestamp) = blocks.map (·.timestamp)
  difficulties :
    branch.map (fun e => e.2.cumulativeDifficulty) = blocks.map (·.cumulativeDifficulty)

variable {split : Nat} {branch : List AltEntry} {blocks P : List StoredBlock}

section

variable (h : StoredBranch split branch blocks)
include h

theorem StoredBranch.length_eq : branch.length = blocks.length := by
  have := congrArg List.length h.timestamps
  simpa using this

theorem StoredBranch.data :
    branch.map (fun e => (e.2.bl.timestamp, e.2.cumulativeDifficulty)) =
      blocks.map fun b => (b.timestamp, b.cumulativeDifficulty) := by
  rw [← List.zip_map', ← List.zip_map', h.timestamps, h.difficulties]

theorem StoredBranch.mainChainStopOffset_eq :
    mainChainStopOffset branch (split + branch.length) = split := by
  cases branch with
  | nil => rfl
  | cons front rest => exact h.heights 0 front rfl

end

/-- The slice of the main chain that comes before a branch: it ends below the
split and leaves out the genesis block. -/
theorem mainSlice_eq (hP : P ≠ []) (A : List StoredBlock) (m : Nat) :
    ((P ++ A).take P.length).drop
        (if P.length - min m P.length = 0 then 1 else P.length - min m P.length) =
      P.tail.rtake m := by
  have hpos := List.length_pos_iff.mpr hP
  rw [List.take_left, List.rtake, List.length_tail, ← List.drop_one, List.drop_drop]
  congr 1
  split <;> omega

/-- **The window of an alternative block** is the one of the chain that has the
branch on top of the common blocks. -/
theorem altWindow_eq (hP : P ≠ []) (h : StoredBranch P.length branch blocks) (A : List StoredBlock)
    (n : Nat) :
    altWindow (P ++ A) branch (P.length + branch.length) n =
      (lastBlocks (P ++ blocks) n).map fun b => (b.timestamp, b.cumulativeDifficulty) := by
  have hlen := h.length_eq
  rw [lastBlocks_eq, List.tail_append_of_ne_nil hP]
  unfold altWindow
  dsimp only
  rw [h.data]
  by_cases hn : branch.length < n
  · rw [if_pos hn, h.mainChainStopOffset_eq, Nat.min_eq_right hn.le, mainSlice_eq hP, hlen,
      Window.rtake_append_of_ge _ _ (by omega), List.map_append]
  · rw [if_neg hn, Window.rtake_append_of_le _ _ (by omega), Window.rtake_map]

theorem askDifficulty_dropCache (env : Env) (bc : Blockchain) :
    (bc.dropCache.getDifficultyForNextBlock env).1 =
      nextDifficulty env.lwmaV4 bc.currentVersion
        ((lastBlocks bc.db.chain (difficultyBlocks bc.currentVersion)).map (·.timestamp))
        ((lastBlocks bc.db.chain (difficultyBlocks bc.currentVersion)).map
          (·.cumulativeDifficulty)) := by
  rfl

/-- With the same version on both sides, so is the difficulty. -/
theorem altDifficulty_of_version {A : List StoredBlock} (hP : P ≠ [])
    (hbc : bc.db.chain = P ++ A) (hnode : node.db.chain = P ++ blocks)
    (h : StoredBranch P.length branch blocks)
    (hv : bc.hardfork.getIdealVersion (P.length + branch.length) = node.currentVersion) :
    bc.getNextDifficultyForAlternativeChain env branch (P.length + branch.length) =
      (node.dropCache.getDifficultyForNextBlock env).1 := by
  rw [askDifficulty_dropCache, getNextDifficultyForAlternativeChain, hv, hbc, hnode,
    altWindow_eq hP h, List.map_map, List.map_map]
  rfl

/-- **Alternative and main-chain difficulty.** Let a node have the chain
`P ++ A`, and another one `P ++ B`. What the first asks from a block on top of
the branch `B` is what the second asks from its next block, provided that the
first entry of the fork table carries the original version or the second fork is
due at that height. -/
theorem alternative_difficulty_eq (table : ForkTable) (w : Nat) (hw : 0 < w) {cfg : HardFork}
    (hcfg : cfg = (HardFork.new table w hw).reset) (ht : cfg.heights.NoVoting)
    {s₀ : HardFork × BlockchainDb}
    (h₀ : (HardFork.new table w hw).init BlockchainDb.empty = some s₀) (env : Env)
    {P A B : List StoredBlock} (hP : P ≠ []) {bc node : Blockchain}
    (hbc : HardFork.growAll s₀ (P ++ A) = some (bc.hardfork, bc.db))
    (hnode : HardFork.growAll s₀ (P ++ B) = some (node.hardfork, node.db))
    {branch : List AltEntry} (hB : StoredBranch P.length branch B)
    (hfirst : cfg.heights.versionAt 0 = cfg.originalVersion ∨
      ∃ p ∈ cfg.heights.entries.tail, p.height ≤ P.length + branch.length) :
    bc.getNextDifficultyForAlternativeChain env branch (P.length + branch.length) =
      (node.dropCache.getDifficultyForNextBlock env).1 := by
  subst hcfg
  obtain ⟨hchain, hcfg, -⟩ := HardFork.growAll_noVoting h₀ ht hbc
  obtain ⟨hchain', hcfg', hidx⟩ := HardFork.growAll_noVoting h₀ ht hnode
  refine altDifficulty_of_version hP hchain hchain' hB ?_
  have hheight : (P ++ B).length = P.length + branch.length := by
    rw [List.length_append, hB.length_eq]
  rw [HardFork.getIdealVersion_eq, hcfg.heights_eq, hcfg.originalVersion_eq, currentVersion,
    HardFork.getCurrentVersion, hcfg'.heights_eq, hidx, hheight]
  split
  · rename_i h0
    rw [h0]
    rcases hfirst with hver | ⟨p, hp, hdue⟩
    · exact hver.symm
    · -- a fork that is due makes the index positive
      have hnone := List.countP_eq_zero.mp h0 p hp
      simp only [decide_eq_true_eq] at hnone
      exact absurd hdue hnone
  · rfl

def plainStored (version nonce height : Nat) : StoredBlock :=
  { StoredBlock.ofHeader
      { majorVersion := version, minorVersion := version, timestamp := 120 * height,
        prevId := nullHash, nonce := nonce } (numberedHash nonce) with
    cumulativeDifficulty := 100 * (height + 1) }

def plainEntry (version nonce height : Nat) : AltEntry :=
  (numberedHash nonce, ⟨(plainStored version nonce height).blk, height, 100 * (height + 1)⟩)

def branchedTable : ForkTable :=
  ⟨[⟨1, 0, 1, 0⟩, ⟨3, 0, 3, 1⟩], by decide, by decide, by decide, by decide⟩

/-- Two nodes that part after height 1; the branch reaches past the fork. -/
theorem alternative_difficulty_eq_branched :
    ∃ bc node : Blockchain, bc.db.height = 3 ∧ node.db.height = 4 ∧
      bc.getNextDifficultyForAlternativeChain .permissive [plainEntry 1 12 2, plainEntry 3 13 3] 4 =
        (node.dropCache.getDifficultyForNextBlock .permissive).1 := by
  let P := [plainStored 1 0 0, plainStored 1 1 1]
  let A := [plainStored 1 2 2]
  let B := [plainStored 1 12 2, plainStored 3 13 3]
  let s₀ := ((startEmpty branchedTable).hardfork, (startEmpty branchedTable).db)
  obtain ⟨s, hs, hlen⟩ := (Option.any_eq_true _ _).mp (by decide +kernel :
    (HardFork.growAll s₀ (P ++ A)).any (fun s => s.2.height = 3) = true)
  obtain ⟨r, hr, hlen'⟩ := (Option.any_eq_true _ _).mp (by decide +kernel :
    (HardFork.growAll s₀ (P ++ B)).any (fun s => s.2.height = 4) = true)
  have hbc : HardFork.growAll s₀ (P ++ A) =
    some ((start s.1 s.2 .empty).hardfork, (start s.1 s.2 .empty).db) := hs
  have hnode : HardFork.growAll s₀ (P ++ B) =
    some ((start r.1 r.2 .empty).hardfork, (start r.1 r.2 .empty).db) := hr
  have hB : StoredBranch P.length [plainEntry 1 12 2, plainEntry 3 13 3] B := by
    refine ⟨fun i e he => ?_, rfl, rfl⟩
    match i, he with
    | 0, he => cases he; rfl
    | 1, he => cases he; rfl
  exact ⟨_, _, of_decide_eq_true hlen, of_decide_eq_true hlen',
    alternative_difficulty_eq branchedTable _ HardFork.defaultWindowSize_pos rfl (by decide) rfl
      .permissive (by simp [P]) hbc hnode hB (.inl rfl)⟩

def lateTable : ForkTable :=
  ⟨[⟨5, 0, 1, 0⟩], by decide, by decide, by decide, by decide⟩

/-- With such a table the alternative rule still uses the one of version 1. -/
theorem alternative_difficulty_differs :
    ∃ bc node : Blockchain,
      HardFork.growAll ((startEmpty lateTable).hardfork, (startEmpty lateTable).db)
        ([plainStored 5 0 0, plainStored 5 1 1] ++ [plainStored 5 2 2]) =
          some (bc.hardfork, bc.db) ∧
      HardFork.growAll ((startEmpty lateTable).hardfork, (startEmpty lateTable).db)
        ([plainStored 5 0 0, plainStored 5 1 1] ++ [plainStored 5 12 2]) =
          some (node.hardfork, node.db) ∧
      StoredBranch 2 [plainEntry 5 12 2] [plainStored 5 12 2] ∧
      bc.getNextDifficultyForAlternativeChain .permissive [plainEntry 5 12 2] 3 = 100 ∧
      (node.dropCache.getDifficultyForNextBlock .permissive).1 = 10000 := by
  obtain ⟨s, hs, hdiff⟩ := (Option.any_eq_true _ _).mp (by decide +kernel :
    (HardFork.growAll ((startEmpty lateTable).hardfork, (startEmpty lateTable).db)
      ([plainStored 5 0 0, plainStored 5 1 1] ++ [plainStored 5 2 2])).any (fun s =>
        (start s.1 s.2 .empty).getNextDifficultyForAlternativeChain .permissive
          [plainEntry 5 12 2] 3 = 100) = true)
  obtain ⟨r, hr, hdiff'⟩ := (Option.any_eq_true _ _).mp (by decide +kernel :
    (HardFork.growAll ((startEmpty lateTable).hardfork, (startEmpty lateTable).db)
      ([plainStored 5 0 0, plainStored 5 1 1] ++ [plainStored 5 12 2])).any (fun r =>
        ((start r.1 r.2 .empty).dropCache.getDifficultyForNextBlock .permissive).1 = 10000) = true)
  refine ⟨start s.1 s.2 .empty, start r.1 r.2 .empty, hs, hr, ⟨fun i e he => ?_, rfl, rfl⟩,
    of_decide_eq_true hdiff, of_decide_eq_true hdiff'⟩
  match i, he with
  | 0, he => cases he; rfl

end Blockchain

end Lethean
