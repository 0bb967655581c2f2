import Lethean.CryptonoteCore.AltDifficulty
import Lethean.CryptonoteCore.SwitchVersions

/-!
# Lethean.CryptonoteCore.ChainWeight

The weight of a chain of blocks, defined by the blocks alone: every block adds
the difficulty that the rules ask from it on top of the blocks below. The
storage records a cumulative difficulty for each block, computed by two different
functions at different times. `OnMain` and `IsEntry` say that a record is right:
the recorded number is the weight of the block's path.

`Rules` carries what the results of this part assume: forks by height alone, and
a schedule that covers every block above the genesis block from its first entry
on, with the original version.
-/

namespace Lethean

open HardFork (SameConfig)

def StoredBlock.weighed (b : StoredBlock) : Nat × Nat := (b.timestamp, b.cumulativeDifficulty)

def BlockExtendedInfo.weighed (bei : BlockExtendedInfo) : Nat × Nat :=
  (bei.bl.timestamp, bei.cumulativeDifficulty)

/-- The difficulty of the next block of a chain with the given timestamps and
cumulative difficulties: the rule of the version scheduled for its height, on
the last blocks without the genesis block. -/
def requiredDifficulty (env : Env) (t : ForkTable) (chain : List (Nat × Nat)) : Nat :=
  let version := t.scheduledVersion chain.length
  let window := chain.tail.rtake (difficultyBlocks version)
  nextDifficulty env.lwmaV4 version (window.map Prod.fst) (window.map Prod.snd)

/-- The cumulative difficulty of the last block, 0 if there is none. -/
def topWeight (chain : List (Nat × Nat)) : Nat := (chain.getLast?.map Prod.snd).getD 0

@[simp] theorem topWeight_concat (chain : List (Nat × Nat)) (x : Nat × Nat) :
    topWeight (chain ++ [x]) = x.2 := by
  simp [topWeight]

/-! ### The stored chain as a path -/

/-- The stored chain holds the root and the blocks of the path above it, each
under its id. -/
structure StoredPath (env : Env) (root : Block) (chain : List StoredBlock) (p : List Block) :
    Prop where
  blocks : chain.map (·.blk) = root :: p
  hashes : ∀ s ∈ chain, s.hash = env.blockHash s.blk

namespace StoredPath

variable {env : Env} {root : Block} {chain : List StoredBlock} {p : List Block}
  {db : BlockchainDb} {D : Set Block}

theorem length_eq (h : StoredPath env root chain p) : chain.length = p.length + 1 := by
  have := congrArg List.length h.blocks
  simpa using this

theorem take (h : StoredPath env root chain p) (k : Nat) :
    StoredPath env root (chain.take (k + 1)) (p.take k) where
  blocks := by rw [List.map_take, h.blocks, List.take_succ_cons]
  hashes := fun s hs => h.hashes s (List.mem_of_mem_take hs)

theorem concat (h : StoredPath env root chain p) {s : StoredBlock}
    (hhash : s.hash = env.blockHash s.blk) :
    StoredPath env root (chain ++ [s]) (p ++ [s.blk]) where
  blocks := by simp [h.blocks]
  hashes := forall_mem_concat.mpr ⟨h.hashes, hhash⟩

theorem getLast (h : StoredPath env root chain p) : ∃ s, chain.getLast? = some s ∧
    s.blk = ForkChoice.tip root p ∧ s.hash = env.blockHash (ForkChoice.tip root p) := by
  rcases List.eq_nil_or_concat' chain with rfl | ⟨c, s, rfl⟩
  · exact absurd h.length_eq (by simp)
  have hblk : s.blk = ForkChoice.tip root p := by
    have := congrArg (fun l => l.getLast?) h.blocks
    simp only [List.map_append, List.map_singleton, List.getLast?_concat, List.getLast?_cons] at this
    rw [ForkChoice.tip, List.getLastD_eq_getLast?]
    exact Option.some.inj this
  refine ⟨s, List.getLast?_concat, hblk, ?_⟩
  rw [h.hashes s (by simp), hblk]

theorem topBlockHash (h : StoredPath env root db.chain p) :
    db.topBlockHash = env.blockHash (ForkChoice.tip root p) := by
  obtain ⟨s, hs, -, hhash⟩ := h.getLast
  rwa [BlockchainDb.topBlockHash, hs]

theorem getElem (h : StoredPath env root chain p) {k : Nat} (hk : k ≤ p.length) :
    ∃ s, chain[k]? = some s ∧ s.blk = ForkChoice.tip root (p.take k) ∧
      s.hash = env.blockHash (ForkChoice.tip root (p.take k)) := by
  obtain ⟨s, hs, hblk, hhash⟩ := (h.take k).getLast
  refine ⟨s, ?_, hblk, hhash⟩
  have hlen := h.length_eq
  rwa [List.getLast?_take, if_neg (Nat.succ_ne_zero k), Nat.add_sub_cancel,
    List.getElem?_eq_getElem (by omega), Option.some_or, ← List.getElem?_eq_getElem (by omega)] at hs

theorem nodup (hinj : Set.InjOn env.blockHash D) (h : StoredPath env root chain p)
    (hpath : ForkChoice.IsPath env.blockHash (fun b => b.prevId) root p) (hD : ∀ b ∈ p, b ∈ D) :
    (chain.map (·.hash)).Nodup := by
  have hmap : chain.map (·.hash) = (root :: p).map env.blockHash := by
    rw [← h.blocks, List.map_map]
    exact List.map_congr_left fun s hs => h.hashes s hs
  rw [hmap]
  exact hpath.nodup hinj hD

theorem getBlockHeight (hinj : Set.InjOn env.blockHash D) (h : StoredPath env root db.chain p)
    (hpath : ForkChoice.IsPath env.blockHash (fun b => b.prevId) root p) (hD : ∀ b ∈ p, b ∈ D)
    {k : Nat} (hk : k ≤ p.length) :
    db.getBlockHeight (env.blockHash (ForkChoice.tip root (p.take k))) = some k := by
  obtain ⟨s, hs, -, hhash⟩ := h.getElem hk
  rw [← hhash]
  exact BlockchainDb.blockHeight_of_getElem (h.nodup hinj hpath hD) hs

theorem exists_take (h : StoredPath env root db.chain p) {id : Hash}
    (hid : db.blockExists id = true) :
    ∃ k ≤ p.length, id = env.blockHash (ForkChoice.tip root (p.take k)) := by
  obtain ⟨s, hs, rfl⟩ := BlockchainDb.blockExists_iff.mp hid
  obtain ⟨k, hk, hget⟩ := List.getElem_of_mem hs
  have hle : k ≤ p.length := by
    have := h.length_eq
    omega
  obtain ⟨s', hs', -, hhash⟩ := h.getElem hle
  rw [List.getElem?_eq_getElem hk, hget] at hs'
  obtain rfl := Option.some.inj hs'
  exact ⟨k, hle, hhash⟩

end StoredPath

/-! ### Networks -/

/-- A network: its parameters, its fork table and its genesis block. -/
structure Rules where
  env : Env
  table : ForkTable
  windowSize : Nat
  windowSize_pos : 0 < windowSize
  genesis : StoredBlock
  genesis_hash : genesis.hash = env.blockHash genesis.blk
  noVoting : (HardFork.new table windowSize windowSize_pos).reset.heights.NoVoting
  first_version : (HardFork.new table windowSize windowSize_pos).reset.heights.versionAt 0 = 1
  first_height : ∀ p ∈ (HardFork.new table windowSize windowSize_pos).reset.heights.entries.head?,
    p.height ≤ 1
  genesis_carries : Blockchain.Carries
    (HardFork.new table windowSize windowSize_pos).reset.heights 0 genesis.blk.toBlockHeader

namespace Rules

def cfg (R : Rules) : HardFork := (HardFork.new R.table R.windowSize R.windowSize_pos).reset

def forks (R : Rules) : ForkTable := R.cfg.heights

def tip (R : Rules) (p : List Block) : Block := ForkChoice.tip R.genesis.blk p

/-- Timestamps and weights along a path, those of the genesis block first. -/
def weighed (R : Rules) (p : List Block) : List (Nat × Nat) :=
  p.foldl (fun chain b =>
    chain ++ [(b.timestamp, topWeight chain + requiredDifficulty R.env R.forks chain)])
    [R.genesis.weighed]

def weight (R : Rules) (p : List Block) : Nat := topWeight (R.weighed p)

/-- The difficulty asked from the block on top of a path. -/
def required (R : Rules) (p : List Block) : Nat :=
  requiredDifficulty R.env R.forks (R.weighed p)

variable {R : Rules}

@[simp] theorem tip_concat (p : List Block) (b : Block) : R.tip (p ++ [b]) = b :=
  ForkChoice.tip_concat _ _ _

@[simp] theorem tip_nil : R.tip [] = R.genesis.blk := rfl

@[simp] theorem weighed_concat (p : List Block) (b : Block) :
    R.weighed (p ++ [b]) = R.weighed p ++ [(b.timestamp, R.weight p + R.required p)] := by
  simp only [weighed, List.foldl_append, List.foldl_cons, List.foldl_nil]
  rfl

@[simp] theorem weight_concat (p : List Block) (b : Block) :
    R.weight (p ++ [b]) = R.weight p + R.required p := by
  rw [weight, weighed_concat, topWeight_concat]

@[simp] theorem length_weighed (p : List Block) : (R.weighed p).length = p.length + 1 := by
  induction p using List.reverseRecOn with
  | nil => rfl
  | append_singleton p b ih => simp [ih]

theorem weighed_take (p : List Block) (k : Nat) :
    (R.weighed p).take (k + 1) = R.weighed (p.take k) := by
  induction p using List.reverseRecOn with
  | nil =>
    rw [List.take_nil]
    exact List.take_of_length_le (by simp)
  | append_singleton p b ih =>
    by_cases hk : k ≤ p.length
    · rw [weighed_concat, List.take_append_of_le_length (by simpa using hk), ih,
        List.take_append_of_le_length hk]
    · have hlen : (p ++ [b]).length ≤ k := by simp; omega
      rw [List.take_of_length_le (by rw [length_weighed]; omega), List.take_of_length_le hlen]

/-! ### Good paths -/

/-- A block that may follow a path: it was delivered, names its parent, has the
version of its height, and its difficulty is positive and fits. -/
structure Extends (R : Rules) (D : Set Block) (r : List Block) (b : Block) : Prop where
  delivered : b ∈ D
  parent : b.prevId = R.env.blockHash (R.tip r)
  notGenesis : R.env.blockHash b ≠ R.genesis.hash
  carries : Blockchain.Carries R.forks (r.length + 1) b.toBlockHeader
  work : 0 < R.required r
  fits : R.weight r + R.required r < 2 ^ 64

def Good (R : Rules) (D : Set Block) (p : List Block) : Prop :=
  ∀ r b, r ++ [b] <+: p → R.Extends D r b

variable {D D' : Set Block} {p q r : List Block} {b : Block}

theorem good_nil : R.Good D [] := fun r b h => absurd (List.prefix_nil.mp h) (by simp)

theorem Good.of_prefix (h : R.Good D p) (hr : r <+: p) : R.Good D r :=
  fun s b hs => h s b (hs.trans hr)

theorem good_concat_iff : R.Good D (p ++ [b]) ↔ R.Good D p ∧ R.Extends D p b :=
  ForkChoice.forall_prefix_concat_iff

theorem Good.isPath (h : R.Good D p) :
    ForkChoice.IsPath R.env.blockHash (fun b => b.prevId) R.genesis.blk p := fun r b hr =>
  ⟨(h r b hr).parent, by rw [← R.genesis_hash]; exact (h r b hr).notGenesis⟩

theorem Good.mem (h : R.Good D p) : ∀ b ∈ p, b ∈ D := by
  intro b hb
  obtain ⟨r, s, rfl⟩ := List.append_of_mem hb
  exact (h r b ⟨s, by simp⟩).delivered

/-- Where ids do not collide, the id of the last block determines the path. -/
theorem Good.unique (hinj : Set.InjOn R.env.blockHash D) (hp : R.Good D p) (hq : R.Good D q)
    (h : R.env.blockHash (R.tip p) = R.env.blockHash (R.tip q)) : p = q :=
  ForkChoice.IsPath.unique hinj hp.isPath hq.isPath hp.mem hq.mem h

theorem Good.weight_lt (hp : R.Good D (p ++ [b])) : R.weight p < R.weight (p ++ [b]) := by
  have := (good_concat_iff.mp hp).2.work
  rw [weight_concat]
  omega

theorem Good.weight_le (hp : R.Good D p) (hr : r <+: p) : R.weight r ≤ R.weight p := by
  induction p using List.reverseRecOn with
  | nil => rw [List.prefix_nil.mp hr]
  | append_singleton p b ih =>
    rcases List.prefix_concat_iff.mp hr with rfl | hr
    · exact le_rfl
    · exact (ih (hp.of_prefix (List.prefix_append _ _)) hr).trans hp.weight_lt.le

theorem Good.weight_fits (hp : R.Good D (p ++ [b])) : R.weight (p ++ [b]) < 2 ^ 64 := by
  rw [weight_concat]
  exact (good_concat_iff.mp hp).2.fits

/-! ### The records of the main chain -/

/-- The stored chain holds the genesis block and the blocks of the path, under
their ids, each with the weight of its path. -/
structure OnMain (R : Rules) (chain : List StoredBlock) (p : List Block) : Prop where
  blocks : chain.map (·.blk) = R.genesis.blk :: p
  hashes : ∀ s ∈ chain, s.hash = R.env.blockHash s.blk
  weights : chain.map StoredBlock.weighed = R.weighed p

variable {chain : List StoredBlock} {db : BlockchainDb}

theorem OnMain.stored (h : R.OnMain chain p) : StoredPath R.env R.genesis.blk chain p :=
  ⟨h.blocks, h.hashes⟩

theorem OnMain.length_eq (h : R.OnMain chain p) : chain.length = p.length + 1 :=
  h.stored.length_eq

theorem OnMain.take (h : R.OnMain chain p) (k : Nat) :
    R.OnMain (chain.take (k + 1)) (p.take k) where
  blocks := (h.stored.take k).blocks
  hashes := (h.stored.take k).hashes
  weights := by rw [List.map_take, h.weights, weighed_take]

theorem OnMain.concat (h : R.OnMain chain p) {s : StoredBlock}
    (hhash : s.hash = R.env.blockHash s.blk)
    (hweight : s.cumulativeDifficulty = R.weight p + R.required p) :
    R.OnMain (chain ++ [s]) (p ++ [s.blk]) where
  blocks := (h.stored.concat hhash).blocks
  hashes := (h.stored.concat hhash).hashes
  weights := by
    rw [List.map_append, h.weights, weighed_concat, List.map_singleton, StoredBlock.weighed,
      hweight]
    rfl

theorem OnMain.getLast (h : R.OnMain chain p) : ∃ s, chain.getLast? = some s ∧
    s.blk = R.tip p ∧ s.hash = R.env.blockHash (R.tip p) ∧ s.cumulativeDifficulty = R.weight p := by
  obtain ⟨s, hs, hblk, hhash⟩ := h.stored.getLast
  refine ⟨s, hs, hblk, hhash, ?_⟩
  rw [weight, topWeight, ← h.weights, List.getLast?_map, hs]
  rfl

theorem OnMain.topBlockHash (h : R.OnMain db.chain p) :
    db.topBlockHash = R.env.blockHash (R.tip p) :=
  h.stored.topBlockHash

theorem OnMain.topCumulativeDifficulty (h : R.OnMain db.chain p) :
    Blockchain.topCumulativeDifficulty db = R.weight p := by
  obtain ⟨s, hs, -, -, hweight⟩ := h.getLast
  rwa [Blockchain.topCumulativeDifficulty, hs]

theorem OnMain.getElem (h : R.OnMain chain p) {k : Nat} (hk : k ≤ p.length) :
    ∃ s, chain[k]? = some s ∧ s.hash = R.env.blockHash (R.tip (p.take k)) ∧
      s.cumulativeDifficulty = R.weight (p.take k) := by
  obtain ⟨s, hs, -, hhash⟩ := h.stored.getElem hk
  obtain ⟨s', hs', -, -, hweight⟩ := (h.take k).getLast
  have hlen := h.length_eq
  rw [List.getLast?_take, if_neg (Nat.succ_ne_zero k), Nat.add_sub_cancel, hs,
    Option.some_or] at hs'
  obtain rfl := Option.some.inj hs'
  exact ⟨s, hs, hhash, hweight⟩

theorem OnMain.getBlockHeight (hinj : Set.InjOn R.env.blockHash D) (hgood : R.Good D p)
    (h : R.OnMain db.chain p) {k : Nat} (hk : k ≤ p.length) :
    db.getBlockHeight (R.env.blockHash (R.tip (p.take k))) = some k :=
  h.stored.getBlockHeight hinj hgood.isPath hgood.mem hk

theorem OnMain.exists_take (h : R.OnMain db.chain p) {id : Hash} (hid : db.blockExists id = true) :
    ∃ k ≤ p.length, id = R.env.blockHash (R.tip (p.take k)) :=
  h.stored.exists_take hid

end Rules

namespace Blockchain

variable {R : Rules} {bc : Blockchain} {p : List Block}

/-- A cache that is used is long enough for the window. -/
def CacheFits (bc : Blockchain) : Prop :=
  bc.cacheUsable = true →
    min (difficultyBlocks bc.currentVersion) (bc.db.height - 1) ≤ bc.timestamps.length + 1

/-- `get_difficulty_for_next_block` asks for the required difficulty, at the
scheduled version and with a cache that is long enough. -/
theorem difficulty_eq_required (hcache : CacheInv bc) (hfits : bc.CacheFits)
    (hmain : R.OnMain bc.db.chain p)
    (hv : bc.currentVersion = R.forks.scheduledVersion (p.length + 1)) :
    (bc.getDifficultyForNextBlock R.env).1 = R.required p := by
  obtain ⟨hts, hds⟩ := (windowRight_iff_fits hcache 0).mpr hfits
  rw [DifficultyCall.window_eq] at hts hds
  change bc.refreshCache.timestamps = _ at hts
  change bc.refreshCache.difficulties = _ at hds
  rw [getDifficultyForNextBlock, hts, hds, Rules.required, requiredDifficulty, ← hmain.weights]
  dsimp only
  rw [List.length_map, hmain.length_eq, ← hv, ← List.map_tail, Window.rtake_map, List.map_map,
    List.map_map]
  rfl

end Blockchain

end Lethean
