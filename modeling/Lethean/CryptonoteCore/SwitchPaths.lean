import Lethean.CryptonoteCore.BranchWeight

/-!
# Lethean.CryptonoteCore.SwitchPaths

The parts of `switch_to_alternative_blockchain`, on chains whose records are
right: popping down to the split, connecting blocks, resetting the hard-fork
object, and rolling back. While blocks are connected the hard-fork object may be
ahead of the schedule; `OnBranch` is what holds then, for a split at height `k`.

Connecting uses the cache from the second block on. `Widens` is where that goes
wrong, so no such height may lie between the split and the top.
-/

namespace Lethean

open HardFork (SameConfig Tracks)

/-- The window at chain length `n` needs more than one block more than the
window at length `n - 1` had. -/
def ForkTable.Widens (t : ForkTable) (n : Nat) : Prop :=
  difficultyBlocks (t.scheduledVersion (n - 1)) + 1 <
    min (difficultyBlocks (t.scheduledVersion n)) (n - 1)

namespace Blockchain

variable {R : Rules} {D : Set Block} {now : Nat} {bc bc' : Blockchain} {k : Nat}
  {p main : List Block}

/-! ### The hard-fork object on the way -/

/-- The object has the network's configuration, and its index is not behind the
schedule of height `k`. -/
structure HfAhead (R : Rules) (hf : HardFork) (k : Nat) : Prop where
  config : SameConfig R.cfg hf
  low : R.forks.scheduledIndex k ≤ hf.currentForkIndex
  high : hf.currentForkIndex < R.forks.entries.length

/-- The versions below height `n` are recorded as scheduled. -/
def RecordedTo (R : Rules) (db : BlockchainDb) (n : Nat) : Prop :=
  ∀ h < n, db.getHardForkVersion h = some (R.forks.scheduledVersion h)

variable {hf : HardFork} {db : BlockchainDb} {b : Block} {s : TxLoop} {record : StoredBlock}
  {env : Env}

theorem tracks_hfAhead (h : Tracks R.cfg hf db) {k : Nat} (hk : k ≤ db.height) :
    HfAhead R hf k := by
  have hidx : hf.currentForkIndex = R.forks.scheduledIndex db.height := by
    rw [h.state]
    exact HardFork.afterChain_index_noVoting R.cfg_noVoting db.chain
  refine ⟨by rw [h.state]; exact HardFork.sameConfig_after _ _, ?_, ?_⟩
  · rw [hidx]
    exact ForkTable.scheduledIndex_mono _ hk
  · rw [hidx]
    exact ForkTable.scheduledIndex_lt R.forks_ne_nil _

theorem tracks_recordedTo (h : Tracks R.cfg hf db) {n : Nat} (hn : n ≤ db.height) :
    RecordedTo R db n := by
  intro i hi
  have hi' : i < db.height := hi.trans_le hn
  rw [h.records i hi', HardFork.afterChain_version_noVoting R.cfg_noVoting,
    List.length_take_of_le (Nat.le_of_lt hi')]
  rfl

theorem tracks_version (h : Tracks R.cfg hf db) :
    hf.getCurrentVersion = R.forks.scheduledVersion db.height := by
  rw [h.state]
  exact HardFork.afterChain_version_noVoting R.cfg_noVoting db.chain

/-- A chain of blocks with the versions of their heights is one that the
hard-fork object accepts block by block. -/
theorem accepts_of_good (hgood : R.Good D p) {chain : List StoredBlock}
    (hmain : R.OnMain chain p) : HardFork.Accepts R.cfg chain := by
  intro pre s hpre
  have hcarries : Carries R.forks pre.length s.blk.toBlockHeader := by
    have hblocks : pre.map (·.blk) ++ [s.blk] <+: R.genesis.blk :: p := by
      have := hpre.map (·.blk)
      rwa [List.map_append, List.map_singleton, hmain.blocks] at this
    cases pre with
    | nil =>
      obtain ⟨rest, hrest⟩ := hblocks
      rw [(List.cons.inj hrest).1]
      exact R.genesis_carries
    | cons c pre =>
      rw [List.map_cons, List.cons_append, List.cons_prefix_cons] at hblocks
      have := (hgood _ _ hblocks.2).carries
      rwa [List.length_map] at this
  rwa [check_iff, HardFork.afterChain_index_noVoting R.cfg_noVoting]

/-- **Resetting the hard-fork object** after blocks above height `k` changed. It
follows the stored chain again. -/
theorem reorganize_tracks (hgood : R.Good D p) (hmain : R.OnMain bc.db.chain p)
    (hk : k ≤ p.length) (hhf : HfAhead R bc.hardfork k) (hrec : RecordedTo R bc.db (k + 1)) :
    ∃ bc', bc.reorganizeHardFork (k + 1) = some bc' ∧
      bc' = { bc with hardfork := bc'.hardfork, db := bc'.db } ∧
      bc'.db.chain = bc.db.chain ∧ Tracks R.cfg bc'.hardfork bc'.db := by
  have hacc := accepts_of_good hgood hmain
  have hlen : k < bc.db.height := by
    have := hmain.length_eq
    rw [BlockchainDb.height]
    omega
  have hversion : ∀ i ≤ k, (R.cfg.afterChain (bc.db.chain.take i)).currentForkIndex =
      R.forks.scheduledIndex i := by
    intro i hi
    rw [HardFork.afterChain_index_noVoting R.cfg_noVoting,
      List.length_take_of_le (hi.trans hlen.le)]
    rfl
  have hrecords : HardFork.Records R.cfg bc.db.chain bc.db (k + 1) := by
    intro i hi
    rw [hrec i hi, HardFork.getCurrentVersion, hversion i (Nat.lt_succ_iff.mp hi)]
    rfl
  have horig : R.cfg.originalVersion ≤ R.cfg.heights.versionAt 0 :=
    le_of_eq R.first_version.symm
  obtain ⟨db, hrun, hchain, hall⟩ := HardFork.reorganize_after hhf.config horig hlen hacc hrecords
    (by rw [hversion k le_rfl]; exact hhf.low) hhf.high
  refine ⟨{ bc with hardfork := R.cfg.afterChain bc.db.chain, db := db }, ?_, rfl, hchain, ?_⟩
  · rw [reorganizeHardFork, HardFork.reorganizeFromChainHeight, if_neg (Nat.succ_ne_zero k),
      Nat.add_sub_cancel, hrun]
    rfl
  · have hheight : db.height = bc.db.height := by rw [BlockchainDb.height, hchain]; rfl
    refine ⟨by rw [hchain], by rwa [hchain], by rw [hchain, hheight]; exact hall, ?_⟩
    rw [hall 0 (by omega)]
    rfl

/-! ### Connecting blocks -/

/-- A node on the way: the records are right, and the hard-fork object is not
behind the split at height `k`. -/
structure OnBranch (R : Rules) (bc : Blockchain) (k : Nat) (p : List Block) : Prop where
  main : R.OnMain bc.db.chain p
  le : k ≤ p.length
  hf : HfAhead R bc.hardfork k
  records : RecordedTo R bc.db (k + 1)

/-- The cache, if it is used, was filled above the split. -/
structure CacheFilled (R : Rules) (bc : Blockchain) (k : Nat) : Prop where
  inv : CacheInv bc
  above : bc.cachedHeight ≠ 0 → k < bc.cachedHeight
  filled : bc.cachedHeight ≠ 0 → bc.timestamps.length =
    min (difficultyBlocks (R.forks.scheduledVersion bc.cachedHeight)) (bc.cachedHeight - 1)

theorem cacheFilled_of_zero (h : bc.cachedHeight = 0) : CacheFilled R bc k :=
  ⟨fun hne => absurd h hne, fun hne => absurd h hne, fun hne => absurd h hne⟩

/-- Blocks and alternative blocks that were known still are; everything that
connecting and popping leave alone. -/
structure Kept (bc bc' : Blockchain) : Prop where
  alternativeChains : bc'.alternativeChains = bc.alternativeChains
  checkpoints : bc'.checkpoints = bc.checkpoints
  invalidBlocks : ∀ i, i ∈ bc.invalidBlocks → i ∈ bc'.invalidBlocks

theorem Kept.refl (bc : Blockchain) : Kept bc bc := ⟨rfl, rfl, fun _ h => h⟩

theorem Kept.trans {bc1 bc2 bc3 : Blockchain} (h : Kept bc1 bc2) (h' : Kept bc2 bc3) :
    Kept bc1 bc3 :=
  ⟨h'.alternativeChains.trans h.alternativeChains, h'.checkpoints.trans h.checkpoints,
    fun i hi => h'.invalidBlocks i (h.invalidBlocks i hi)⟩

theorem kept_of_eq (h : bc' = { bc with hardfork := bc'.hardfork, db := bc'.db }) : Kept bc bc' := by
  rw [h]
  exact ⟨rfl, rfl, fun _ hi => hi⟩

theorem SameChain.kept (h : SameChain bc bc') : Kept bc bc' :=
  ⟨h.alternativeChains, h.checkpoints, h.invalidBlocks⟩

theorem SameNode.kept (h : SameNode bc bc') : Kept bc bc' :=
  ⟨h.alternativeChains, h.checkpoints, fun i hi => by rwa [h.invalidBlocks]⟩

theorem afterBlock_kept (env : Env) (bc : Blockchain) (s : TxLoop) (record : StoredBlock) :
    Kept bc (bc.afterBlock env s record) := by
  obtain ⟨halt, hinv, hcp, -⟩ := afterBlock_rest env bc s record
  exact ⟨halt, hcp, fun i hi => by rwa [hinv]⟩

theorem afterBlock_effects (env : Env) (bc : Blockchain) (s : TxLoop) (record : StoredBlock) :
    Effects env bc (bc.afterBlock env s record) := by
  have hask : Effects env bc (bc.getDifficultyForNextBlock env).2 := .single .ask
  have hframe : SameCache (bc.getDifficultyForNextBlock env).2
      { (bc.getDifficultyForNextBlock env).2 with blocksTxsCheck := [], txPool := s.pool } :=
    ⟨rfl, rfl, rfl, rfl, rfl⟩
  exact (hask.trans hframe.effects).trans (storeBlock_effects _ _)

theorem afterBlock_cache (env : Env) (bc : Blockchain) (s : TxLoop) (record : StoredBlock) :
    (bc.afterBlock env s record).cachedHeight = bc.db.height ∧
      (bc.afterBlock env s record).timestamps = bc.refreshCache.timestamps := by
  have hheight : bc.refreshCache.cachedHeight = bc.db.height := by
    unfold refreshCache
    dsimp only
    split <;> rfl
  unfold afterBlock storeBlock
  split <;> exact ⟨hheight, rfl⟩

/-- The cache is long enough where the window does not widen. -/
theorem CacheFilled.fits (h : CacheFilled R bc k) (hmain : R.OnMain bc.db.chain p)
    (hv : bc.currentVersion = R.forks.scheduledVersion (p.length + 1))
    (hwiden : k < p.length → ¬ R.forks.Widens (p.length + 1)) : bc.CacheFits := by
  intro hu
  obtain ⟨hne, hheight⟩ := cacheUsable_iff.mp hu
  have hlen := hmain.length_eq
  have hcached : bc.cachedHeight = p.length := by
    rw [BlockchainDb.height] at hheight
    omega
  have habove := h.above hne
  have hnot := hwiden (by omega)
  rw [ForkTable.Widens, Nat.add_sub_cancel] at hnot
  rw [h.filled hne, hv, BlockchainDb.height, hlen, Nat.add_sub_cancel, hcached]
  omega

theorem Accepted.onMain {id : Hash} (hacc : Accepted R.env now bc b id s record)
    (hmain : R.OnMain bc.db.chain p) (hdiff : (bc.getDifficultyForNextBlock R.env).1 = R.required p)
    (hfits : R.weight p + R.required p < 2 ^ 64) :
    R.OnMain (bc.afterBlock R.env s record).db.chain (p ++ [b]) := by
  obtain ⟨baseReward, partialReward, -, hrec⟩ := hacc.record_eq
  have hblk : record.blk = b := by rw [hrec]; rfl
  rw [HardFork.add_chain hacc.afterBlock, BlockchainDb.push_chain, ← hblk]
  refine hmain.concat (by rw [hrec]; rfl) ?_
  rw [hrec, recordOf, hdiff, hmain.topCumulativeDifficulty, Nat.add_comm]
  exact u64_of_lt hfits

/-- **One block connected.** -/
theorem Accepted.onBranch {id : Hash} (hacc : Accepted R.env now bc b id s record)
    (hon : OnBranch R bc k p) (hcache : CacheFilled R bc k) (hext : R.Extends D p b)
    (hwiden : k < p.length → ¬ R.forks.Widens (p.length + 1)) :
    OnBranch R (bc.afterBlock R.env s record) k (p ++ [b]) ∧
      CacheFilled R (bc.afterBlock R.env s record) k := by
  have hv : bc.currentVersion = R.forks.scheduledVersion (p.length + 1) :=
    ((check_iff _ _).mp hacc.version).1.symm.trans hext.carries.1
  have hfits := hcache.fits hon.main hv hwiden
  have hlen := hon.main.length_eq
  have hdiff := difficulty_eq_required hcache.inv hfits hon.main hv
  obtain ⟨hcfg, hidx⟩ := HardFork.add_noVoting
    (by rw [hon.hf.config.heights_eq]; exact R.cfg_noVoting) hacc.afterBlock
  obtain ⟨hdb, -⟩ := HardFork.add_inv hacc.afterBlock
  refine ⟨⟨hacc.onMain hon.main hdiff hext.fits, ?_, ⟨hon.hf.config.trans hcfg, ?_, ?_⟩, ?_⟩, ?_⟩
  · have := hon.le
    simp
    omega
  · rw [hidx]
    exact hon.hf.low.trans (le_max_left _ _)
  · rw [hidx, hon.hf.config.heights_eq]
    exact max_lt hon.hf.high (ForkTable.scheduledIndex_lt R.forks_ne_nil _)
  · -- the version of the new block is recorded above the split
    intro h hh
    have hle := hon.le
    have hne : h ≠ bc.db.height := by
      rw [BlockchainDb.height]
      omega
    rw [hdb, BlockchainDb.setHardForkVersion_of_ne _ hne]
    exact hon.records h hh
  · obtain ⟨hheight, hts⟩ := afterBlock_cache R.env bc s record
    have hwindow := ((windowRight_iff_fits hcache.inv 0).mpr hfits).1
    rw [DifficultyCall.window_eq] at hwindow
    change bc.refreshCache.timestamps = _ at hwindow
    refine ⟨?_, fun _ => ?_, fun _ => ?_⟩
    · exact hcache.inv.effects (afterBlock_effects R.env bc s record)
    · rw [hheight, BlockchainDb.height]
      have := hon.le
      omega
    · rw [hheight, hts, hwindow, List.length_map, Window.length_rtake, List.length_tail]
      change min (difficultyBlocks bc.currentVersion) (bc.db.chain.length - 1) = _
      rw [hv, BlockchainDb.height, hlen]

/-- **Connecting a good path** stops at the first refused block; until then the
records are right. -/
theorem connectBlocks_onBranch : ∀ {blocks p : List Block} {bc : Blockchain},
    OnBranch R bc k p → CacheFilled R bc k → R.Good D (p ++ blocks) →
    (∀ n, k + 1 < n → n ≤ (p ++ blocks).length → ¬ R.forks.Widens n) →
    ∃ pre rest bc', bc.connectBlocks R.env now blocks = (rest, bc') ∧ blocks = pre ++ rest ∧
      OnBranch R bc' k (p ++ pre) ∧ Kept bc bc'
  | [], p, bc, hon, _, _, _ => ⟨[], [], bc, rfl, rfl, by simpa using hon, .refl bc⟩
  | b :: rest, p, bc, hon, hcache, hgood, hwiden => by
    have hassoc : p ++ b :: rest = (p ++ [b]) ++ rest := by simp
    have hext : R.Extends D p b := hgood p b ⟨rest, hassoc.symm⟩
    rcases connectBlocks_cons R.env now bc b rest with
      ⟨s, record, hacc, heq⟩ | ⟨bc', hsame, heq⟩
    · obtain ⟨hon', hcache'⟩ := hacc.onBranch hon hcache hext fun hk =>
        hwiden (p.length + 1) (by omega) (by simp)
      obtain ⟨pre, rest', bc', hrun, hsplit, hon'', hkept⟩ :=
        connectBlocks_onBranch hon' hcache' (hassoc ▸ hgood) (hassoc ▸ hwiden)
      exact ⟨b :: pre, rest', bc', heq.trans hrun, by rw [hsplit]; rfl, by simpa using hon'',
        (afterBlock_kept _ _ _ _).trans hkept⟩
    · refine ⟨[], b :: rest, bc', heq, rfl, ?_, hsame.kept⟩
      rw [List.append_nil]
      exact ⟨by rw [hsame.db]; exact hon.main, hon.le, by rw [hsame.hardfork]; exact hon.hf,
        fun h hh => by rw [hsame.db]; exact hon.records h hh⟩

/-! ### Popping blocks -/

theorem pop_cachedHeight
    (h : bc.popBlockFromBlockchain env now = some (b, bc')) : bc'.cachedHeight = 0 := by
  unfold popBlockFromBlockchain at h
  split at h
  · cases h
  · obtain ⟨-, rfl⟩ := Prod.mk.inj (Option.some.inj h)
    rfl

theorem popBlocks_of_chain : ∀ {n : Nat} {bc : Blockchain} {c removed : List StoredBlock},
    bc.db.chain = c ++ removed → removed.length = n → bc.cachedHeight = 0 →
    ∃ bc', popBlocks env now n bc = some bc' ∧ bc'.db.chain = c ∧ SameNode bc bc' ∧
      bc'.cachedHeight = 0
  | 0, bc, c, removed, hc, hn, h0 => by
    obtain rfl := List.length_eq_zero_iff.mp hn
    exact ⟨bc, rfl, by simpa using hc, .refl bc, h0⟩
  | n + 1, bc, c, removed, hc, hn, h0 => by
    rcases List.eq_nil_or_concat' removed with rfl | ⟨rest, top, rfl⟩
    · cases hn
    rw [← List.append_assoc] at hc
    have hpop : bc.popBlockFromBlockchain env now =
        some (top.blk, bc.afterPop env now top) := popFromChain_concat hc
    obtain ⟨bc', hrun, hchain, hsame, h0'⟩ := popBlocks_of_chain (afterPop_chain hc)
      (by simpa using hn) (pop_cachedHeight hpop)
    refine ⟨bc', ?_, hchain, (afterPop_sameNode _ _ _ _).trans hsame, h0'⟩
    rwa [popBlocks, hpop]

theorem OnBranch.of_take (hon : OnBranch R bc k p) {j : Nat} (hkj : k ≤ j) (hj : j ≤ p.length)
    (hsame : SameNode bc bc') (hchain : bc'.db.chain = bc.db.chain.take (j + 1)) :
    OnBranch R bc' k (p.take j) where
  main := by
    rw [hchain]
    exact hon.main.take j
  le := by rwa [List.length_take_of_le hj]
  hf := by
    rw [hsame.hardfork]
    exact hon.hf
  records := fun h hh => by
    rw [BlockchainDb.getHardForkVersion, hsame.hfVersions]
    exact hon.records h hh

theorem popUntil_stored {root : Block} (hinj : Set.InjOn env.blockHash D)
    (hstored : StoredPath env root bc.db.chain main)
    (hpath : ForkChoice.IsPath env.blockHash (fun b => b.prevId) root main) (hD : ∀ b ∈ main, b ∈ D)
    (hk : k ≤ main.length) :
    ∃ bc', popUntil env now (env.blockHash (ForkChoice.tip root (main.take k)))
        (bc.db.height + 1) bc = some (main.drop k, bc') ∧
      bc'.db.chain = bc.db.chain.take (k + 1) ∧ SameNode bc bc' := by
  obtain ⟨s, hs, -, hhash⟩ := hstored.getElem hk
  have hlen := hstored.length_eq
  have hklt : k < bc.db.chain.length := by omega
  have hget : bc.db.chain[k] = s := by
    rw [List.getElem?_eq_getElem hklt] at hs
    exact Option.some.inj hs
  have hsplit : bc.db.chain = (bc.db.chain.take k ++ [s]) ++ bc.db.chain.drop (k + 1) := by
    rw [← hget, List.take_append_getElem, List.take_append_drop]
  -- no block above has the same id
  have hne : ∀ c ∈ bc.db.chain.drop (k + 1),
      c.hash ≠ env.blockHash (ForkChoice.tip root (main.take k)) := by
    intro c hc heq
    obtain ⟨i, hi, hci⟩ := List.getElem_of_mem hc
    rw [List.getElem_drop] at hci
    rw [List.length_drop] at hi
    have hnodup := hstored.nodup hinj hpath hD
    have hheight := BlockchainDb.blockHeight_of_getElem hnodup hs
    have hheight' := BlockchainDb.blockHeight_of_getElem hnodup
      (show bc.db.chain[k + 1 + i]? = some c by rw [List.getElem?_eq_getElem (by omega), hci])
    rw [heq, ← hhash, hheight] at hheight'
    have := Option.some.inj hheight'
    omega
  have hfuel : (bc.db.chain.drop (k + 1)).length < bc.db.height + 1 := by
    rw [List.length_drop, BlockchainDb.height]
    omega
  obtain ⟨bc', hpop, hchain⟩ : ∃ bc', popUntil env now _ _ bc = some (_, bc') ∧ _ :=
    popUntil_of_chain hhash hsplit hne hfuel
  have hsame := popUntil_sameNode hpop
  have hpopped : (bc.db.chain.drop (k + 1)).map (·.blk) = main.drop k := by
    rw [List.map_drop, hstored.blocks, List.drop_succ_cons]
  rw [hpopped] at hpop
  refine ⟨bc', hpop, ?_, hsame⟩
  rw [hchain, ← hget, List.take_append_getElem]

/-- **Popping down to the split.** -/
theorem popUntil_onBranch (hinj : Set.InjOn R.env.blockHash D) (hgood : R.Good D main)
    (hon : OnBranch R bc k main) (h0 : bc.cachedHeight = 0) :
    ∃ bc', popUntil R.env now (R.env.blockHash (R.tip (main.take k))) (bc.db.height + 1) bc =
        some (main.drop k, bc') ∧
      OnBranch R bc' k (main.take k) ∧ SameNode bc bc' ∧ bc'.cachedHeight = 0 := by
  obtain ⟨bc', hpop, hchain, hsame⟩ : ∃ bc', popUntil R.env now _ _ bc = some (_, bc') ∧ _ :=
    popUntil_stored hinj hon.main.stored hgood.isPath hgood.mem hon.le
  exact ⟨bc', hpop, hon.of_take le_rfl hon.le hsame hchain, hsame,
    popUntil_keeps (fun _ _ _ h1 _ => pop_cachedHeight h1) hpop h0⟩

/-! ### Rolling back -/

/-- **Rolling back a switch.** Where the disconnected blocks are accepted again,
the records are those from before, and the hard-fork object follows them. -/
theorem rollback_onMain {pre : List Block} (hgood : R.Good D main)
    (hk : k ≤ main.length) (hon : OnBranch R bc k (main.take k ++ pre))
    (hwiden : ∀ n, k + 1 < n → n ≤ main.length → ¬ R.forks.Widens n) :
    ∃ r bc', bc.rollbackBlockchainSwitching R.env now (main.drop k) (k + 1) = some (r, bc') ∧
      Kept bc bc' ∧
      (r = true → R.OnMain bc'.db.chain main ∧ Tracks R.cfg bc'.hardfork bc'.db) := by
  have hlen := hon.main.length_eq
  rw [List.length_append, List.length_take_of_le hk] at hlen
  have hheight : bc.db.height = k + pre.length + 1 := hlen
  -- the blocks connected so far go first
  obtain ⟨bc1, hpop, hchain1, hsame1, h0⟩ :
      ∃ bc1, bc.dropCache.popBlocks R.env now pre.length = some bc1 ∧
        bc1.db.chain = bc.db.chain.take (k + 1) ∧ SameNode bc.dropCache bc1 ∧
        bc1.cachedHeight = 0 :=
    popBlocks_of_chain (List.take_append_drop (k + 1) bc.db.chain).symm
      (by rw [List.length_drop]; omega) rfl
  have hdrop : SameNode bc bc.dropCache := ⟨rfl, rfl, rfl, rfl, rfl, rfl⟩
  have hsame := hdrop.trans hsame1
  have hon1 : OnBranch R bc1 k (main.take k) := by
    have := hon.of_take le_rfl (by simp [List.length_take_of_le hk]) hsame hchain1
    rwa [List.take_append_of_le_length (by rw [List.length_take_of_le hk]), List.take_take,
      Nat.min_self] at this
  have htake : R.Good D (main.take k) := hgood.of_prefix (List.take_prefix k main)
  obtain ⟨bc2, hreorg, heq2, hchain2, htracks2⟩ :=
    reorganize_tracks htake hon1.main hon1.le hon1.hf hon1.records
  have hon2 : OnBranch R bc2 k (main.take k) := by
    have hheight2 : k + 1 ≤ bc2.db.height := by
      rw [BlockchainDb.height, hchain2, hon1.main.length_eq, List.length_take_of_le hk]
    exact ⟨by rw [hchain2]; exact hon1.main, hon1.le, tracks_hfAhead htracks2 (by omega),
      tracks_recordedTo htracks2 hheight2⟩
  have h02 : bc2.cachedHeight = 0 := by
    rwa [heq2]
  -- then the disconnected ones come back
  obtain ⟨pre', rest, bc3, hconn, hparts, hon3, hkept3⟩ :
      ∃ pre' rest bc3, bc2.connectBlocks R.env now (main.drop k) = (rest, bc3) ∧ _ :=
    connectBlocks_onBranch hon2 (cacheFilled_of_zero h02) (by rwa [List.take_append_drop])
      (by rwa [List.take_append_drop])
  have hkept : Kept bc bc3 := (hsame.kept.trans (kept_of_eq heq2)).trans hkept3
  unfold rollbackBlockchainSwitching
  rw [if_neg (by omega), show bc.db.height - (k + 1) = pre.length by omega, hpop]
  simp only [Option.bind_eq_bind, Option.bind_some, hreorg, hconn]
  cases rest with
  | nil =>
    rw [List.append_nil] at hparts
    rw [← hparts, List.take_append_drop] at hon3
    obtain ⟨bc4, hreorg4, heq4, hchain4, htracks4⟩ :=
      reorganize_tracks hgood hon3.main hon3.le hon3.hf hon3.records
    refine ⟨true, bc4, by simp only [hreorg4, Option.bind_some],
      hkept.trans (kept_of_eq heq4), fun _ => ⟨?_, htracks4⟩⟩
    rw [hchain4]
    exact hon3.main
  | cons b rest => exact ⟨false, bc3, rfl, hkept, fun h => absurd h (by simp)⟩

end Blockchain

end Lethean
