import Lethean.BlockchainDb.Interface
import Lethean.Common.IntUtil

/-!
# Lethean.CryptonoteCore.ChainSync

How two nodes find where their chains part. One samples its chain from the top,
in ever longer steps, down to the genesis block (`get_short_chain_history`). The
other looks for the first sample it has as well and answers with its own ids from
there on (`find_blockchain_supplement`).
-/

namespace Lethean

def blocksIdsSynchronizingDefaultCount : Nat := 10000

/-- The loop of `get_short_chain_history`: the heights it samples, and whether
one of them was 0. The loop has no bound of its own in the source; `none` says
that the given number of rounds was not enough. -/
def shortHistoryLoop (sz : Nat) : Nat → Nat → Nat → Nat → Option (List Nat × Bool)
  | 0, _, _, _ => none
  | fuel + 1, i, currentMultiplier, currentBackOffset =>
    if currentBackOffset < sz then
      let height := sz - currentBackOffset
      let next :=
        if i < 10 then
          shortHistoryLoop sz fuel (i + 1) currentMultiplier (u64 (currentBackOffset + 1))
        else
          let currentMultiplier := u64 (currentMultiplier * 2)
          shortHistoryLoop sz fuel (i + 1) currentMultiplier
            (u64 (currentBackOffset + currentMultiplier))
      next.map fun (heights, genesisIncluded) =>
        (height :: heights, decide (height = 0) || genesisIncluded)
    else some ([], false)

/-- The heights of the blocks in the short history of a chain of `sz` blocks. -/
def shortHistoryHeights (sz : Nat) : Option (List Nat) :=
  if sz = 0 then some []
  else
    (shortHistoryLoop sz (sz + 1) 0 1 1).map fun (heights, genesisIncluded) =>
      if genesisIncluded then heights else heights ++ [0]

/-- What `find_blockchain_supplement` puts into a `NOTIFY_RESPONSE_CHAIN_ENTRY`. -/
structure ChainEntry where
  startHeight : Nat
  totalHeight : Nat
  cumulativeDifficulty : Nat
  blockIds : List Hash
  deriving DecidableEq

namespace BlockchainDb

def getShortChainHistory (db : BlockchainDb) : Option (List Hash) :=
  (shortHistoryHeights db.height).bind fun heights => heights.mapM db.getBlockHashFromHeight

/-- `find_blockchain_supplement(qblock_ids, starter_offset)`. -/
def findStarterOffset (db : BlockchainDb) (qblockIds : List Hash) : Option Nat :=
  if qblockIds = [] then none
  else if qblockIds.getLast? ≠ db.getBlockHashFromHeight 0 then none
  else qblockIds.findSome? db.getBlockHeight

/-- `find_blockchain_supplement(qblock_ids, resp)`. -/
def findBlockchainSupplement (db : BlockchainDb) (qblockIds : List Hash) : Option ChainEntry := do
  let startHeight ← db.findStarterOffset qblockIds
  let cumulativeDifficulty ← db.getBlockCumulativeDifficulty (db.height - 1)
  pure
    { startHeight := startHeight
      totalHeight := db.height
      cumulativeDifficulty := cumulativeDifficulty
      blockIds :=
        ((db.chain.drop startHeight).take blocksIdsSynchronizingDefaultCount).map (·.hash) }

end BlockchainDb

/-! ### The samples -/

theorem shortHistoryLoop_sample {sz fuel i multiplier offset : Nat} (hoffset : offset < sz)
    {heights : List Nat}
    (hnext : (if i < 10 then shortHistoryLoop sz fuel (i + 1) multiplier (u64 (offset + 1))
      else shortHistoryLoop sz fuel (i + 1) (u64 (multiplier * 2))
        (u64 (offset + u64 (multiplier * 2)))) = some (heights, false)) :
    shortHistoryLoop sz (fuel + 1) i multiplier offset = some ((sz - offset) :: heights, false) := by
  rw [shortHistoryLoop, if_pos hoffset]
  dsimp only
  rw [hnext]
  have hpos : sz - offset ≠ 0 := by omega
  simp [hpos]

/-- What the loop keeps: the multiplier is at most half of the offset, rounded up,
so that on a chain of at most `2 ^ 63` blocks neither of them wraps. -/
theorem shortHistoryLoop_spec {sz : Nat} (hsz : sz ≤ 2 ^ 63) :
    ∀ fuel i multiplier offset : Nat, 0 < fuel → sz < offset + fuel →
      1 ≤ multiplier → 2 * multiplier ≤ offset + 1 →
      ∃ heights, shortHistoryLoop sz fuel i multiplier offset = some (heights, false) ∧
        heights.Pairwise (· > ·) ∧ (∀ h ∈ heights, 0 < h ∧ h ≤ sz - offset) ∧
        (offset < sz → heights.head? = some (sz - offset)) := by
  intro fuel
  induction fuel with
  | zero =>
    intro i multiplier offset hfuel
    exact absurd hfuel (Nat.lt_irrefl 0)
  | succ fuel ih =>
    intro i multiplier offset _ hfuel hmultiplier hhalf
    by_cases hoffset : offset < sz
    · -- the rest of the samples lies below this one
      obtain ⟨heights, hnext, hsorted, hbound⟩ : ∃ heights,
          (if i < 10 then shortHistoryLoop sz fuel (i + 1) multiplier (u64 (offset + 1))
            else shortHistoryLoop sz fuel (i + 1) (u64 (multiplier * 2))
              (u64 (offset + u64 (multiplier * 2)))) = some (heights, false) ∧
          heights.Pairwise (· > ·) ∧ ∀ h ∈ heights, 0 < h ∧ h < sz - offset := by
        by_cases hi : i < 10
        · rw [if_pos hi, u64_of_lt (by omega : offset + 1 < 2 ^ 64)]
          obtain ⟨heights, hloop, hsorted, hbound, -⟩ :=
            ih (i + 1) multiplier (offset + 1) (by omega) (by omega) hmultiplier (by omega)
          refine ⟨heights, hloop, hsorted, fun h hh => ?_⟩
          have := hbound h hh
          omega
        · rw [if_neg hi, u64_of_lt (by omega : multiplier * 2 < 2 ^ 64),
            u64_of_lt (by omega : offset + multiplier * 2 < 2 ^ 64)]
          obtain ⟨heights, hloop, hsorted, hbound, -⟩ :=
            ih (i + 1) (multiplier * 2) (offset + multiplier * 2) (by omega) (by omega) (by omega)
              (by omega)
          refine ⟨heights, hloop, hsorted, fun h hh => ?_⟩
          have := hbound h hh
          omega
      refine ⟨(sz - offset) :: heights, shortHistoryLoop_sample hoffset hnext, ?_, ?_, ?_⟩
      · exact List.pairwise_cons.mpr ⟨fun h hh => (hbound h hh).2, hsorted⟩
      · intro h hh
        rcases List.mem_cons.mp hh with rfl | hh
        · omega
        · have := hbound h hh
          omega
      · exact fun _ => rfl
    · exact ⟨[], by rw [shortHistoryLoop, if_neg hoffset], by simp, by simp, by omega⟩

/-- The samples: decreasing, from the top down to the genesis block. -/
structure ShortHistory (sz : Nat) (heights : List Nat) : Prop where
  decreasing : heights.Pairwise (· > ·)
  head?_eq : heights.head? = some (sz - 1)
  getLast?_eq : heights.getLast? = some 0
  lt : ∀ h ∈ heights, h < sz

theorem exists_shortHistory {sz : Nat} (hpos : 0 < sz) (hsz : sz ≤ 2 ^ 63) :
    ∃ heights, shortHistoryHeights sz = some heights ∧ ShortHistory sz heights := by
  obtain ⟨heights, hloop, hsorted, hbound, hhead⟩ :=
    shortHistoryLoop_spec hsz (sz + 1) 0 1 1 (by omega) (by omega) (by omega) (by omega)
  refine ⟨heights ++ [0], ?_, ?_, ?_, by simp, ?_⟩
  · rw [shortHistoryHeights, if_neg (by omega), hloop]
    rfl
  · rw [List.pairwise_append]
    refine ⟨hsorted, by simp, fun h hh z hz => ?_⟩
    rw [List.mem_singleton.mp hz]
    exact (hbound h hh).1
  · by_cases hone : 1 < sz
    · rw [List.head?_append, hhead hone]
      rfl
    -- a chain with the genesis block only
    obtain rfl : heights = [] := by
      refine List.eq_nil_iff_forall_not_mem.mpr fun h hh => ?_
      have := hbound h hh
      omega
    simp
    omega
  · intro h hh
    rcases List.mem_append.mp hh with hh | hh
    · have := hbound h hh
      omega
    · rwa [List.mem_singleton.mp hh]

theorem ShortHistory.le_of_find? {sz s : Nat} {heights : List Nat} (h : ShortHistory sz heights)
    {p : Nat → Bool} (hfind : heights.find? p = some s) :
    ∀ x ∈ heights, p x = true → x ≤ s := by
  obtain ⟨-, before, after, hsplit, hbefore⟩ := List.find?_eq_some_iff_append.mp hfind
  intro x hx hpx
  rw [hsplit] at hx
  rcases List.mem_append.mp hx with hx | hx
  · have hnot := hbefore x hx
    simp [hpx] at hnot
  · rcases List.mem_cons.mp hx with rfl | hx
    · exact le_rfl
    · have hdecreasing := h.decreasing
      rw [hsplit, List.pairwise_append, List.pairwise_cons] at hdecreasing
      exact (hdecreasing.2.1.1 x hx).le

/-! ### Chains whose ids determine their ancestors -/

/-- A chain to synchronise. An id determines the ids of all blocks before it, and
the chain fits into the database: a block takes more than two bytes of a memory map
of at most `2 ^ 64`. -/
structure SyncChain (ancestors : Hash → List Hash) where
  db : BlockchainDb
  chain_ne_nil : db.chain ≠ []
  height_le : db.height ≤ 2 ^ 63
  ancestors_eq : ∀ h b, db.chain[h]? = some b →
    (db.chain.take h).map (·.hash) = ancestors b.hash

namespace SyncChain

variable {ancestors : Hash → List Hash} (P Q : SyncChain ancestors)

def idAt (h : Nat) : Option Hash := P.db.getBlockHashFromHeight h

variable {h : Nat} {heights : List Nat} {ids : List Hash}

theorem idAt_eq_some {id : Hash} :
    P.idAt h = some id ↔ ∃ b, P.db.chain[h]? = some b ∧ b.hash = id := by
  simp [idAt, BlockchainDb.getBlockHashFromHeight]

variable {P Q}

/-- A common id is at the same height, and all ids below are common. -/
theorem idAt_inj {k : Nat} {id : Hash} (hP : P.idAt h = some id) (hQ : Q.idAt k = some id) :
    h = k ∧ ∀ j ≤ h, P.idAt j = Q.idAt j := by
  obtain ⟨b, hb, rfl⟩ := P.idAt_eq_some.mp hP
  obtain ⟨c, hc, hid⟩ := Q.idAt_eq_some.mp hQ
  have htake : (P.db.chain.take h).map (·.hash) = (Q.db.chain.take k).map (·.hash) := by
    rw [P.ancestors_eq h b hb, Q.ancestors_eq k c hc, hid]
  have hlt := (List.getElem?_eq_some_iff.mp hb).1
  have hlt' := (List.getElem?_eq_some_iff.mp hc).1
  have hheight : h = k := by
    have hlength := congrArg List.length htake
    simp only [List.length_map, List.length_take] at hlength
    omega
  subst hheight
  refine ⟨rfl, fun j hj => ?_⟩
  rcases Nat.lt_or_eq_of_le hj with hj | rfl
  · have hget := congrArg (·[j]?) htake
    simpa [List.getElem?_map, List.getElem?_take, hj, idAt,
      BlockchainDb.getBlockHashFromHeight] using hget
  · rw [hP, hQ]

theorem getBlockHeight_eq_some {id : Hash} :
    P.db.getBlockHeight id = some h ↔ P.idAt h = some id := by
  rw [idAt_eq_some]
  constructor
  · intro hfind
    obtain ⟨hlt, hid, -⟩ := List.findIdx?_eq_some_iff_getElem.mp hfind
    exact ⟨_, List.getElem?_eq_getElem hlt, by simpa using hid⟩
  · rintro ⟨b, hb, rfl⟩
    obtain ⟨hlt, rfl⟩ := List.getElem?_eq_some_iff.mp hb
    refine List.findIdx?_eq_some_iff_getElem.mpr ⟨hlt, by simp, fun j hj heq => ?_⟩
    have hid : P.idAt j = some (P.db.chain[h]).hash :=
      P.idAt_eq_some.mpr ⟨_, List.getElem?_eq_getElem (hj.trans hlt), by simpa using heq⟩
    exact absurd (idAt_inj hid (P.idAt_eq_some.mpr ⟨_, hb, rfl⟩)).1 hj.ne

theorem idAt_isSome : (P.idAt h).isSome = true ↔ h < P.db.height := by
  simp [idAt, BlockchainDb.getBlockHashFromHeight, BlockchainDb.height]

theorem mapM_idAt (h : ∀ x ∈ heights, x < Q.db.height) :
    ∃ ids, heights.mapM Q.idAt = some ids ∧ ids.map some = heights.map Q.idAt := by
  induction heights with
  | nil => exact ⟨[], rfl, rfl⟩
  | cons x heights ih =>
    obtain ⟨id, hid⟩ := Option.isSome_iff_exists.mp (idAt_isSome.mpr (h x (by simp)))
    obtain ⟨ids, hids, hmap⟩ := ih fun y hy => h y (by simp [hy])
    refine ⟨id :: ids, ?_, by rw [List.map_cons, List.map_cons, hid, hmap]⟩
    rw [List.mapM_cons, hid, hids]
    rfl

/-- Looking up the sampled ids of `Q` in `P` one by one finds the first height at
which the chains agree. -/
theorem findSome?_getBlockHeight (hmap : ids.map some = heights.map Q.idAt) :
    ids.findSome? P.db.getBlockHeight = heights.find? fun h => P.idAt h = Q.idAt h := by
  induction heights generalizing ids with
  | nil =>
    obtain rfl : ids = [] := by simpa using hmap
    rfl
  | cons x heights ih =>
    cases ids with
    | nil => simp at hmap
    | cons id ids =>
      rw [List.map_cons, List.map_cons, List.cons.injEq] at hmap
      obtain ⟨hid, hmap⟩ := hmap
      rw [List.findSome?_cons]
      by_cases hagree : P.idAt x = Q.idAt x
      · rw [List.find?_cons_of_pos (by simp [hagree]),
          getBlockHeight_eq_some.mpr (hagree.trans hid.symm)]
      have hnone : P.db.getBlockHeight id = none := by
        cases hheight : P.db.getBlockHeight id with
        | none => rfl
        | some k =>
          have hk := getBlockHeight_eq_some.mp hheight
          obtain rfl := (idAt_inj hk hid.symm).1
          exact absurd (hk.trans hid) hagree
      rw [hnone, List.find?_cons_of_neg (by simp [hagree])]
      exact ih hmap

/-- The height at which the answer to the samples of `Q` starts. -/
theorem findStarterOffset_eq {sz : Nat} (hhistory : ShortHistory sz heights)
    (hmap : ids.map some = heights.map Q.idAt) (hgenesis : P.idAt 0 = Q.idAt 0) :
    P.db.findStarterOffset ids = heights.find? fun h => P.idAt h = Q.idAt h := by
  have hlast : ids.getLast?.map some = some (P.idAt 0) := by
    have hlast := congrArg List.getLast? hmap
    rwa [List.getLast?_map, List.getLast?_map, hhistory.getLast?_eq, Option.map_some,
      ← hgenesis] at hlast
  obtain ⟨last, hids_last, hgenesis_id⟩ := Option.map_eq_some_iff.mp hlast
  have hne : ids ≠ [] := by
    rintro rfl
    cases hids_last
  have hsame : ids.getLast? = P.db.getBlockHashFromHeight 0 := hids_last.trans hgenesis_id
  rw [BlockchainDb.findStarterOffset, if_neg hne, if_neg (not_not.mpr hsame),
    findSome?_getBlockHeight hmap]

theorem nodup_ids (hnodup : heights.Nodup) (hlt : ∀ x ∈ heights, x < Q.db.height)
    (hmap : ids.map some = heights.map Q.idAt) : ids.Nodup := by
  refine List.Nodup.of_map some ?_
  rw [hmap]
  refine (List.nodup_map_iff_inj_on hnodup).mpr fun h hh k hk heq => ?_
  obtain ⟨id, hid⟩ := Option.isSome_iff_exists.mp (idAt_isSome.mpr (hlt h hh))
  exact (idAt_inj hid (heq ▸ hid)).1

/-! ### The two nodes find the fork -/

variable (P Q)

/-- What the node with chain `P` answers to the samples `heights` of `Q`: the
highest sample on which the chains agree, below which they agree everywhere, and
the ids of `P` from there on. -/
structure FindsFork (heights : List Nat) (entry : ChainEntry) : Prop where
  sampled : entry.startHeight ∈ heights
  agree : ∀ h ≤ entry.startHeight, P.idAt h = Q.idAt h
  highest : ∀ h ∈ heights, P.idAt h = Q.idAt h → h ≤ entry.startHeight
  totalHeight_eq : entry.totalHeight = P.db.height
  length_le : entry.blockIds.length ≤ 10000
  consecutive : ∀ k < entry.blockIds.length,
    entry.blockIds[k]? = P.idAt (entry.startHeight + k)
  reaches_top : P.db.height - entry.startHeight ≤ 10000 →
    entry.blockIds.getLast? = P.idAt (P.db.height - 1)

theorem FindsFork.of_slice {s : Nat} (difficulty : Nat) (hsampled : s ∈ heights)
    (hagree : ∀ h ≤ s, P.idAt h = Q.idAt h) (hhighest : ∀ h ∈ heights, P.idAt h = Q.idAt h → h ≤ s)
    (hs : s < P.db.height) :
    P.FindsFork Q heights
      { startHeight := s, totalHeight := P.db.height, cumulativeDifficulty := difficulty
        blockIds := ((P.db.chain.drop s).take 10000).map (·.hash) } where
  sampled := hsampled
  agree := hagree
  highest := hhighest
  totalHeight_eq := rfl
  length_le := by simp
  consecutive := by
    intro k hk
    have hk' : k < 10000 := by
      simp only [List.length_map, List.length_take] at hk
      omega
    simp [idAt, BlockchainDb.getBlockHashFromHeight, hk', List.getElem?_drop]
  reaches_top := by
    intro hfew
    change P.db.chain.length - s ≤ 10000 at hfew
    change s < P.db.chain.length at hs
    have htake : (P.db.chain.drop s).take 10000 = P.db.chain.drop s :=
      List.take_of_length_le (by simpa using hfew)
    rw [htake, List.getLast?_map, List.getLast?_drop, if_neg (by omega), List.getLast?_eq_getElem?]
    rfl

/-- Synchronisation finds the fork: the samples of `Q` run from its top down to the
genesis block, which comes once, and the node with chain `P` answers them from the
highest common sample on. -/
theorem sync_finds_fork (hgenesis : P.idAt 0 = Q.idAt 0) :
    ∃ heights ids entry, shortHistoryHeights Q.db.height = some heights ∧
      ShortHistory Q.db.height heights ∧ heights.count 0 = 1 ∧
      Q.db.getShortChainHistory = some ids ∧ ids.map some = heights.map Q.idAt ∧ ids.Nodup ∧
      P.db.findBlockchainSupplement ids = some entry ∧ P.FindsFork Q heights entry := by
  have hpos : 0 < Q.db.height := List.length_pos_iff.mpr Q.chain_ne_nil
  obtain ⟨heights, hheights, hhistory⟩ := exists_shortHistory hpos Q.height_le
  obtain ⟨ids, hids, hmap⟩ := mapM_idAt hhistory.lt
  have hnodup : heights.Nodup := hhistory.decreasing.imp fun h => ne_of_gt h
  have hzero : 0 ∈ heights := List.mem_of_getLast? hhistory.getLast?_eq
  -- the chains agree on the genesis block, so there is a first common sample
  obtain ⟨s, hfind⟩ : ∃ s, heights.find? (fun h => P.idAt h = Q.idAt h) = some s :=
    Option.isSome_iff_exists.mp (List.find?_isSome.mpr ⟨0, hzero, by simpa using hgenesis⟩)
  have hsampled : s ∈ heights := List.mem_of_find?_eq_some hfind
  have hsame : P.idAt s = Q.idAt s := by simpa using List.find?_some hfind
  obtain ⟨id, hid⟩ := Option.isSome_iff_exists.mp (idAt_isSome.mpr (hhistory.lt s hsampled))
  have hs : s < P.db.height := idAt_isSome.mp (by simp [hsame, hid])
  have hhighest : ∀ h ∈ heights, P.idAt h = Q.idAt h → h ≤ s := fun h hh hagree =>
    hhistory.le_of_find? hfind h hh (by simpa using hagree)
  obtain ⟨difficulty, hdifficulty⟩ : ∃ d,
      P.db.getBlockCumulativeDifficulty (P.db.height - 1) = some d := by
    have hlt : P.db.height - 1 < P.db.chain.length := Nat.sub_one_lt_of_lt hs
    exact ⟨_, by rw [BlockchainDb.getBlockCumulativeDifficulty, List.getElem?_eq_getElem hlt]; rfl⟩
  refine ⟨heights, ids, _, hheights, hhistory, List.count_eq_one_of_mem hnodup hzero, ?_, hmap,
    nodup_ids hnodup hhistory.lt hmap, ?_, FindsFork.of_slice P Q difficulty hsampled
      (idAt_inj (hsame.trans hid) hid).2 hhighest hs⟩
  · rwa [BlockchainDb.getShortChainHistory, hheights]
  · rw [BlockchainDb.findBlockchainSupplement, findStarterOffset_eq hhistory hmap hgenesis, hfind,
      Option.bind_eq_bind, Option.bind_some, hdifficulty]
    rfl

/-! ### Two chains of two blocks -/

def numberedBlock (n : Nat) : StoredBlock :=
  StoredBlock.ofHeader ⟨1, 0, 0, nullHash, n⟩ (numberedHash n)

/-- Block `n` on the genesis block, which is block 0. -/
def twoBlocks (n : Nat) (hn : numberedHash n ≠ numberedHash 0) :
    SyncChain fun id => if id = numberedHash 0 then [] else [numberedHash 0] where
  db := ⟨[numberedBlock 0, numberedBlock n], fun _ => none⟩
  chain_ne_nil := by simp
  height_le := by simp [BlockchainDb.height]
  ancestors_eq := by
    intro h b hb
    rcases h with _ | _ | h
    · cases hb
      simp [numberedBlock, StoredBlock.ofHeader]
    · cases hb
      simp [numberedBlock, StoredBlock.ofHeader, hn]
    · simp at hb

theorem sync_finds_fork_two_blocks :
    ∃ P Q : SyncChain fun id => if id = numberedHash 0 then [] else [numberedHash 0],
      P.idAt 0 = Q.idAt 0 ∧ P.idAt 1 ≠ Q.idAt 1 ∧
      ∃ ids entry, Q.db.getShortChainHistory = some ids ∧
        P.db.findBlockchainSupplement ids = some entry ∧ entry.startHeight = 0 := by
  refine ⟨twoBlocks 1 (by decide), twoBlocks 2 (by decide), rfl, by decide, ?_⟩
  obtain ⟨heights, ids, entry, -, -, -, hids, -, -, hentry, hfork⟩ :=
    sync_finds_fork (twoBlocks 1 (by decide)) (twoBlocks 2 (by decide)) rfl
  refine ⟨ids, entry, hids, hentry, ?_⟩
  by_contra hpos
  exact absurd (hfork.agree 1 (Nat.pos_of_ne_zero hpos)) (by decide)

end SyncChain

end Lethean
