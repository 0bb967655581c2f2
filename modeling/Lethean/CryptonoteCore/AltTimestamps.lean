import Lethean.CryptonoteCore.Reorganize

/-!
# Lethean.CryptonoteCore.AltTimestamps

The timestamp rule for alternative blocks against the one for main-chain
blocks. Both end in `check_block_timestamp(timestamps, b)`, which only sets a
lower bound on the timestamp; they differ in the vector they pass. The main
chain passes the last `W` timestamps, and passes none as long as the chain is
shorter than `W`. `handle_alternative_block` passes what there is, never the
genesis block, and the whole branch even when it is longer than `W`.
-/

namespace Lethean

namespace Blockchain

variable {bc node : Blockchain}

/-! ### The lower bound -/

/-- The least timestamp that `check_block_timestamp(timestamps, b)` accepts. -/
def timestampBound (version : Nat) (timestamps : List Nat) : Nat :=
  max (median timestamps)
    (if 5 ≤ version then subU64 ((sortU64 timestamps).getLast?.getD 0) blockFutureTimeLimit else 0)

theorem timestampBound_perm {v w : List Nat} (h : v.Perm w) (version : Nat) :
    timestampBound version v = timestampBound version w := by
  rw [timestampBound, timestampBound, median_perm h, sortU64_perm h]

theorem sortU64_ne_nil {v : List Nat} (h : v ≠ []) : sortU64 v ≠ [] := by
  intro hnil
  have hlen := (v.perm_insertionSort (· ≤ ·)).length_eq
  rw [show v.insertionSort (· ≤ ·) = [] from hnil] at hlen
  exact h (List.eq_nil_of_length_eq_zero hlen.symm)

theorem checkTimestamps_nil (version : Nat) (b : BlockHeader) :
    checkTimestamps version [] b = none := rfl

theorem checkTimestamps_eq {v : List Nat} (h : v ≠ []) (version : Nat) (b : BlockHeader) :
    checkTimestamps version v b = some (decide (timestampBound version v ≤ b.timestamp)) := by
  obtain ⟨top, htop⟩ := Option.ne_none_iff_exists'.mp
    (mt List.getLast?_eq_none_iff.mp (sortU64_ne_nil h))
  unfold checkTimestamps timestampBound
  rw [htop]
  by_cases hv : 5 ≤ version
  · by_cases hlow : b.timestamp < subU64 top blockFutureTimeLimit
    · simp [hv, hlow]
    · by_cases hmed : b.timestamp < median v
      · simp [hv, hlow, hmed]
      · simp [hv, hlow, hmed, Nat.le_of_not_lt hlow, Nat.le_of_not_lt hmed]
  · by_cases hmed : b.timestamp < median v
    · simp [hv, hmed]
    · simp [hv, hmed, Nat.le_of_not_lt hmed]

/-- The bound on the main chain, 0 while the chain is shorter than the window. -/
def mainTimestampBound (version : Nat) (chain : List StoredBlock) : Nat :=
  if chain.length < timestampCheckWindow version then 0
  else timestampBound version ((chain.rtake (timestampCheckWindow version)).map (·.timestamp))

theorem checkWindow_ge (version : Nat) : 11 ≤ timestampCheckWindow version := by
  unfold timestampCheckWindow
  split <;> omega

theorem checkTimestampOnChain_eq (version : Nat) (chain : List StoredBlock) (b : BlockHeader) :
    checkTimestampOnChain version chain b =
      some (decide (mainTimestampBound version chain ≤ b.timestamp)) := by
  have hw := checkWindow_ge version
  unfold checkTimestampOnChain mainTimestampBound
  by_cases hlen : chain.length < timestampCheckWindow version
  · simp [hlen]
  · rw [if_neg hlen, if_neg hlen, checkTimestamps_eq]
    refine List.ne_nil_of_length_pos ?_
    rw [List.length_map, Window.length_rtake]
    omega

/-! ### The vector of an alternative block -/

/-- The blocks whose timestamps `handle_alternative_block` looks at, for a
branch `B` on the chain `P`: all of a branch that fills the window, else the
last ones without the genesis block. -/
def altTimestampBlocks (version : Nat) (P B : List StoredBlock) : List StoredBlock :=
  if timestampCheckWindow version ≤ B.length then B
  else (P.tail ++ B).rtake (timestampCheckWindow version)

theorem timestamps_perm {P B : List StoredBlock} (hP : P ≠ [])
    (A : List StoredBlock) (version : Nat) :
    (completeTimestampsVector version (P ++ A) (P.length - 1) (B.map (·.timestamp)).reverse).Perm
        ((altTimestampBlocks version P B).map (·.timestamp)) := by
  have hpos := List.length_pos_iff.mpr hP
  unfold completeTimestampsVector altTimestampBlocks
  simp only [List.length_reverse, List.length_map, List.length_append]
  by_cases hlong : timestampCheckWindow version ≤ B.length
  · rw [if_pos hlong, if_pos hlong]
    exact List.reverse_perm _
  rw [if_neg hlong, if_neg hlong, if_neg (by omega),
    Window.rtake_append_of_ge _ _ (by omega), List.map_append]
  -- the slice of the main chain is the end of `P` without the genesis block
  have hslice : ((P ++ A).take (P.length - 1 + 1)).drop
      ((if timestampCheckWindow version - B.length < P.length - 1
        then P.length - 1 - (timestampCheckWindow version - B.length) else 0) + 1) =
      P.tail.rtake (timestampCheckWindow version - B.length) := by
    rw [Nat.sub_add_cancel hpos, List.take_left, List.rtake, List.length_tail, ← List.drop_one,
      List.drop_drop]
    congr 1
    split <;> omega
  rw [hslice]
  exact ((List.reverse_perm _).append (List.reverse_perm _)).trans List.perm_append_comm

/-- With a window that the chain fills and the branch does not exceed, both
rules look at the same blocks. -/
theorem altTimestampBound_eq {version : Nat} {P B : List StoredBlock} (hP : P ≠ [])
    (hlen : timestampCheckWindow version < (P ++ B).length)
    (hB : B.length ≤ timestampCheckWindow version) :
    timestampBound version ((altTimestampBlocks version P B).map (·.timestamp)) =
      mainTimestampBound version (P ++ B) := by
  have hpos := List.length_pos_iff.mpr hP
  have hblocks : altTimestampBlocks version P B =
      (P ++ B).rtake (timestampCheckWindow version) := by
    rw [List.length_append] at hlen
    unfold altTimestampBlocks
    split
    · rw [Window.rtake_append_of_le _ _ (by omega), Window.rtake_eq_self hB]
    · rw [← List.tail_append_of_ne_nil hP]
      refine Window.rtake_of_suffix (List.tail_suffix _) ?_
      rw [List.length_tail, List.length_append]
      omega
  rw [hblocks, mainTimestampBound, if_neg (Nat.not_lt.mpr hlen.le)]

theorem altTimestampBlocks_ne_nil {P B : List StoredBlock} (hP : P ≠ [])
    (version : Nat) : altTimestampBlocks version P B ≠ [] ↔ 1 < (P ++ B).length := by
  have hpos := List.length_pos_iff.mpr hP
  have hw := checkWindow_ge version
  rw [← List.length_pos_iff, altTimestampBlocks]
  split
  · rw [List.length_append]
    omega
  · rw [Window.length_rtake, List.length_append, List.length_tail, List.length_append]
    omega

/-- The vector of `handle_alternative_block`, in terms of the split. -/
theorem altTimestamps_perm {P A B : List StoredBlock} {branch : List AltEntry} {prevId : Hash}
    (hchain : bc.db.chain = P ++ A) (hids : (bc.db.chain.map (·.hash)).Nodup)
    (hsplit : P.getLast?.map (·.hash) = some (splitId branch prevId))
    (hB : branch.map (fun e => e.2.bl.timestamp) = B.map (·.timestamp)) :
    (bc.altTimestamps branch prevId).Perm
      ((altTimestampBlocks bc.currentVersion P B).map (·.timestamp)) := by
  obtain ⟨p, hp, hhash⟩ := Option.map_eq_some_iff.mp hsplit
  obtain ⟨pre, rfl⟩ := List.getLast?_eq_some_iff.mp hp
  have hget : bc.db.chain[pre.length]? = some p := by rw [hchain]; simp
  have hheight := BlockchainDb.blockHeight_of_getElem hids hget
  rw [hhash] at hheight
  rw [altTimestamps, hheight, hchain, hB, Option.getD_some]
  have := timestamps_perm (B := B) (List.concat_ne_nil p pre) A bc.currentVersion
  simpa using this

/-- **Alternative and main-chain timestamps.** Let a node have the chain
`P ++ A` and another one `P ++ B`, both at the same version, and let `b` extend
the branch `B`. The two verdicts agree if and only if the chain `P ++ B` is
longer than the window and `B` is not, or it has a block besides the genesis
block and the timestamp does not lie between the two bounds. -/
theorem alternative_timestamp_agrees_iff {P A B : List StoredBlock} {branch : List AltEntry}
    (b : Block) (hP : P ≠ []) (hchain : bc.db.chain = P ++ A)
    (hids : (bc.db.chain.map (·.hash)).Nodup)
    (hsplit : P.getLast?.map (·.hash) = some (splitId branch b.prevId))
    (hnode : node.db.chain = P ++ B)
    (hB : branch.map (fun e => e.2.bl.timestamp) = B.map (·.timestamp))
    (hv : node.currentVersion = bc.currentVersion) :
    checkTimestamps bc.currentVersion (bc.altTimestamps branch b.prevId) b.toBlockHeader =
        checkTimestampOnChain node.currentVersion node.db.chain b.toBlockHeader ↔
      (timestampCheckWindow bc.currentVersion < P.length + B.length ∧
        B.length ≤ timestampCheckWindow bc.currentVersion) ∨
      (1 < P.length + B.length ∧
        ¬ (min (timestampBound bc.currentVersion
              ((altTimestampBlocks bc.currentVersion P B).map (·.timestamp)))
            (mainTimestampBound bc.currentVersion (P ++ B)) ≤ b.timestamp ∧
          b.timestamp < max (timestampBound bc.currentVersion
              ((altTimestampBlocks bc.currentVersion P B).map (·.timestamp)))
            (mainTimestampBound bc.currentVersion (P ++ B)))) := by
  have hperm := altTimestamps_perm hchain hids hsplit hB
  have hne := altTimestampBlocks_ne_nil (B := B) hP bc.currentVersion
  rw [hv, hnode, checkTimestampOnChain_eq]
  by_cases hone : 1 < (P ++ B).length
  · have hvec : bc.altTimestamps branch b.prevId ≠ [] := by
      intro hnil
      rw [hnil] at hperm
      exact hne.mpr hone (List.map_eq_nil_iff.mp hperm.nil_eq.symm)
    rw [checkTimestamps_eq hvec, timestampBound_perm hperm, Option.some.injEq,
      decide_eq_decide, ← List.length_append]
    constructor
    · intro hiff
      exact .inr ⟨hone, by omega⟩
    · rintro (⟨hlen, hle⟩ | ⟨-, hout⟩)
      · rw [altTimestampBound_eq hP hlen hle]
      · omega
  · -- only the genesis block: the vector is empty, and reading its end undefined
    have hblocks : altTimestampBlocks bc.currentVersion P B = [] :=
      not_not.mp (mt hne.mp hone)
    have hvec : bc.altTimestamps branch b.prevId = [] := by
      rw [hblocks] at hperm
      exact hperm.eq_nil
    have hw := checkWindow_ge bc.currentVersion
    rw [hvec, checkTimestamps_nil]
    rw [List.length_append] at hone
    constructor
    · intro h
      cases h
    · rintro (⟨hlen, -⟩ | ⟨hlen, -⟩) <;> omega

def datedBlocks : List Block :=
  [sampleBlock 1 0 0 0 0, sampleBlock 1 1 0 1 1000, sampleBlock 1 2 1 2 2000]

/-- The nodes that have taken the first `n` of them. -/
def datedNode (n : Nat) : Blockchain :=
  (connectBlocks .permissive 10000 (datedBlocks.take n) (startEmpty plainTable)).2

/-- A block on top of height 1 with a timestamp that is late enough. -/
theorem alternative_timestamp_agrees_iff_dated :
    checkTimestamps (datedNode 3).currentVersion ((datedNode 3).altTimestamps [] (numberedHash 1))
        (sampleBlock 1 12 1 2 1500).toBlockHeader =
      checkTimestampOnChain (datedNode 2).currentVersion (datedNode 2).db.chain
        (sampleBlock 1 12 1 2 1500).toBlockHeader := by
  refine (alternative_timestamp_agrees_iff (P := (datedNode 2).db.chain)
    (A := (datedNode 3).db.chain.drop 2) (B := []) (sampleBlock 1 12 1 2 1500) (by decide +kernel)
    (by decide +kernel) (by decide +kernel) (by decide +kernel) (by simp) rfl
    (by decide +kernel)).mpr (.inr (by decide +kernel))

/-- The same block with timestamp 500. The node that has only its ancestors
accepts any timestamp, for its chain is shorter than the window; the node that
gets it as an alternative block refuses it. -/
theorem alternative_timestamp_differs :
    (connectBlocks .permissive 10000 datedBlocks (startEmpty plainTable)).1 = [] ∧
    checkTimestamps (datedNode 3).currentVersion ((datedNode 3).altTimestamps [] (numberedHash 1))
        (sampleBlock 1 12 1 2 500).toBlockHeader = some false ∧
    checkTimestampOnChain (datedNode 2).currentVersion (datedNode 2).db.chain
        (sampleBlock 1 12 1 2 500).toBlockHeader = some true := by
  refine ⟨by decide +kernel, by decide +kernel, by decide +kernel⟩

/-! ### Alternative blocks on the genesis block -/

theorem altChain_eq_nil_iff {prevId : Hash} :
    bc.altChain prevId = [] ↔ prevId ∉ bc.alternativeChains := by
  unfold altChain
  by_cases hmem : prevId ∈ bc.alternativeChains
  · obtain ⟨bei, hbei⟩ := Finmap.mem_iff.mp hmem
    obtain ⟨n, hn⟩ := Nat.exists_eq_succ_of_ne_zero
      (Finset.card_ne_zero_of_mem (Finmap.mem_keys.mpr hmem))
    simp [hn, altChainLoop, hbei, hmem]
  · have hnone := Finmap.lookup_eq_none.mpr hmem
    cases hn : bc.alternativeChains.keys.card <;> simp [altChainLoop, hnone, hmem]

theorem timestamps_eq_nil_iff {version height : Nat} {chain : List StoredBlock}
    {timestamps : List Nat} (hheight : timestamps = [] → height < chain.length) :
    completeTimestampsVector version chain height timestamps = [] ↔
      timestamps = [] ∧ height = 0 := by
  have hw := checkWindow_ge version
  unfold completeTimestampsVector
  cases timestamps with
  | nil =>
    rw [if_neg (by simp; omega), if_neg (Nat.not_le.mpr (hheight rfl)), List.nil_append,
      List.reverse_eq_nil_iff, List.map_eq_nil_iff, List.drop_eq_nil_iff, List.length_take]
    have := hheight rfl
    simp only [List.length_nil, true_and]
    split <;> omega
  | cons ts timestamps =>
    simp only [reduceCtorEq, false_and, iff_false]
    split
    · simp
    split <;> simp

/-- **The timestamps of an alternative block.** The parent is on the main chain or an
alternative block. The vector that `handle_alternative_block` checks the timestamp
against has an entry exactly if the parent is not the genesis block. -/
theorem alt_timestamps_nonempty_iff {prevId : Hash}
    (hparent : bc.db.blockExists prevId = true ∨ prevId ∈ bc.alternativeChains) :
    bc.altTimestamps (bc.altChain prevId) prevId ≠ [] ↔
      prevId ∈ bc.alternativeChains ∨ bc.db.getBlockHeight prevId ≠ some 0 := by
  by_cases halt : bc.altChain prevId = []
  · have hmem := altChain_eq_nil_iff.mp halt
    obtain ⟨height, hheight⟩ : ∃ height, bc.db.getBlockHeight prevId = some height :=
      Option.isSome_iff_exists.mp (List.findIdx?_isSome.trans (hparent.resolve_right hmem))
    have hlt : height < bc.db.chain.length :=
      (List.findIdx?_eq_some_iff_getElem.mp hheight).1
    rw [halt, altTimestamps, Ne, timestamps_eq_nil_iff (by simpa [splitId, hheight])]
    simp [splitId, hheight, hmem]
  · have hmem := mt altChain_eq_nil_iff.mpr halt
    rw [altTimestamps, Ne, timestamps_eq_nil_iff (by simp [halt])]
    simp [halt, not_not.mp hmem]

theorem alt_timestamps_nonempty_iff_dated :
    (datedNode 3).altTimestamps ((datedNode 3).altChain (numberedHash 1)) (numberedHash 1) ≠ [] :=
  (alt_timestamps_nonempty_iff (.inl (by decide +kernel))).mpr (.inr (by decide +kernel))

/-- An alternative block on the genesis block: the end of an empty vector is read. -/
theorem alt_timestamps_empty_on_genesis :
    (connectBlocks .permissive 10000 datedBlocks (startEmpty plainTable)).1 = [] ∧
    (datedNode 3).db.blockExists (numberedHash 0) = true ∧
    (datedNode 3).altTimestamps ((datedNode 3).altChain (numberedHash 0)) (numberedHash 0) = [] ∧
    ((datedNode 3).addNewBlock .permissive 10000 1 (sampleBlock 1 12 0 1 1500)).isNone = true := by
  refine ⟨by decide +kernel, by decide +kernel, by decide +kernel, by decide +kernel⟩

end Blockchain

end Lethean
