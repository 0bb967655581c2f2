import Lethean.BlockchainDb.Interface

/-!
# Lethean.CryptonoteBasic.HardFork

`class HardFork` (`hardfork.h`, `hardfork.cpp`): the table of scheduled forks,
the rolling window of votes and the index of the active fork.

Three paths of the source maintain the same state: `add` (one block at a time),
`rescan_from_block_height` (at start-up) and `reorganize_from_block_height`
(after the chain changed). They are modelled separately, each with its own
window arithmetic; `HardForkSound` compares them.

Locks, batches and log output are left out: none of them changes a value that
the class computes. `forked_time`, `update_time` and the default threshold are
read by no function modelled here.
-/

namespace Lethean

/-! ### The fork table -/

/-- `HardFork::Params`: one scheduled fork. -/
structure ForkParams where
  version : Nat
  threshold : Nat
  height : Nat
  time : Int
  deriving DecidableEq, Repr

/-- The order `add_fork` demands between an entry and the next one. -/
def ForkParams.Before (p q : ForkParams) : Prop :=
  p.version < q.version ∧ p.height < q.height ∧ p.time < q.time

instance : DecidableRel ForkParams.Before := fun p q => by
  unfold ForkParams.Before; infer_instance

instance : IsTrans ForkParams ForkParams.Before where
  trans _ _ _ h₁ h₂ := ⟨h₁.1.trans h₂.1, h₁.2.1.trans h₂.2.1, h₁.2.2.trans h₂.2.2⟩

/-- `HardFork::heights`. Only `add_fork` (and the placeholder of `init`) fill
the vector, so a table carries what `add_fork` checks. -/
structure ForkTable where
  entries : List ForkParams
  version_pos : ∀ p ∈ entries, 0 < p.version
  version_lt : ∀ p ∈ entries, p.version < 256
  threshold_le : ∀ p ∈ entries, p.threshold ≤ 100
  increasing : entries.IsChain ForkParams.Before

namespace ForkTable

/-- `HardFork::add_fork(version, height, threshold, time)`; `none` is the
return value `false`. The first argument is a `uint8_t`. -/
def addFork (t : ForkTable) (version : UInt8) (height : Nat) (threshold : UInt8) (time : Int) :
    Option ForkTable :=
  let p : ForkParams := ⟨version.toNat, threshold.toNat, height, time⟩
  if hv : version.toNat = 0 then none
  else if hlast : ∀ q ∈ t.entries.getLast?, q.Before p then
    if ht : 100 < threshold.toNat then none
    else some
      { entries := t.entries ++ [p]
        version_pos := List.forall_mem_append.mpr
          ⟨t.version_pos, List.forall_mem_singleton.mpr (Nat.pos_of_ne_zero hv)⟩
        version_lt := List.forall_mem_append.mpr
          ⟨t.version_lt, List.forall_mem_singleton.mpr version.toNat_lt⟩
        threshold_le := List.forall_mem_append.mpr
          ⟨t.threshold_le, List.forall_mem_singleton.mpr (Nat.le_of_not_lt ht)⟩
        increasing := by
          refine List.isChain_append.mpr ⟨t.increasing, .singleton _, ?_⟩
          intro q hq r hr
          obtain rfl : p = r := by simpa using hr
          exact hlast q hq }
  else none

theorem pairwise (t : ForkTable) : t.entries.Pairwise ForkParams.Before :=
  List.isChain_iff_pairwise.mp t.increasing

/-- The version of entry `n`; the source never indexes past the end. -/
def versionAt (t : ForkTable) (n : Nat) : Nat := ((t.entries[n]?).map (·.version)).getD 0

variable {t : ForkTable} {n : Nat}

theorem versionAt_lt {m : Nat} (hmn : m < n) (hn : n < t.entries.length) :
    t.versionAt m < t.versionAt n := by
  have hm : m < t.entries.length := hmn.trans hn
  have h := (List.pairwise_iff_getElem.mp t.pairwise) m n hm hn hmn
  simpa [versionAt, List.getElem?_eq_getElem hm, List.getElem?_eq_getElem hn] using h.1

theorem versionAt_inj {m : Nat} (hm : m < t.entries.length) (hn : n < t.entries.length)
    (h : t.versionAt m = t.versionAt n) : m = n := by
  rcases Nat.lt_trichotomy m n with hlt | rfl | hlt
  · exact absurd h (versionAt_lt hlt hn).ne
  · rfl
  · exact absurd h.symm (versionAt_lt hlt hm).ne

theorem versionAt_pos (hn : n < t.entries.length) : 0 < t.versionAt n := by
  simp only [versionAt, List.getElem?_eq_getElem hn, Option.map_some, Option.getD_some]
  exact t.version_pos _ (List.getElem_mem hn)

/-- Versions grow with the index and fit in a byte, so indices do too. -/
theorem index_lt_versionAt (hn : n < t.entries.length) : n < t.versionAt n := by
  induction n with
  | zero => exact versionAt_pos hn
  | succ n ih =>
    have h := versionAt_lt (Nat.lt_add_one n) hn
    have := ih (by omega)
    omega

theorem length_lt (t : ForkTable) : t.entries.length < 256 := by
  by_contra hlen
  have h255 : 255 < t.entries.length := by omega
  have h := index_lt_versionAt h255
  have hlt : t.versionAt 255 < 256 := by
    simp only [versionAt, List.getElem?_eq_getElem h255, Option.map_some, Option.getD_some]
    exact t.version_lt _ (List.getElem_mem h255)
  omega

end ForkTable

/-! ### The object -/

/-- `class HardFork`. The constructor throws on `window_size == 0`. -/
structure HardFork where
  windowSize : Nat
  windowSize_pos : 0 < windowSize
  originalVersion : Nat
  originalVersion_pos : 0 < originalVersion
  originalVersion_lt : originalVersion < 256
  heights : ForkTable
  /-- Votes of the last blocks, oldest first. -/
  versions : List Nat
  /-- `last_versions`: how often each version occurs in `versions`, 32 bits wide. -/
  lastVersions : Nat → Nat
  currentForkIndex : Nat

/-- `get_block_vote`. -/
def BlockHeader.vote (b : BlockHeader) : Nat :=
  if 1 ≤ b.majorVersion ∧ b.majorVersion ≤ 3 then b.majorVersion
  else if b.minorVersion = 0 then 1
  else b.minorVersion

namespace HardFork

def defaultWindowSize : Nat := 10080

theorem defaultWindowSize_pos : 0 < defaultWindowSize := by decide

/-- `HardFork(db, 1, ...)` and a series of `add_fork` calls, as `Blockchain::init`
makes them; every construction in the source passes original version 1. -/
def new (table : ForkTable) (windowSize : Nat) (h : 0 < windowSize) : HardFork :=
  { windowSize := windowSize, windowSize_pos := h, originalVersion := 1,
    originalVersion_pos := by decide, originalVersion_lt := by decide, heights := table,
    versions := [], lastVersions := fun _ => 0, currentForkIndex := 0 }

def getCurrentVersion (hf : HardFork) : Nat := hf.heights.versionAt hf.currentForkIndex

def getEffectiveVersion (hf : HardFork) (votingVersion : Nat) : Nat :=
  match hf.heights.entries.getLast? with
  | none => votingVersion
  | some p => if p.version < votingVersion then p.version else votingVersion

def doCheck (hf : HardFork) (blockVersion votingVersion : Nat) : Bool :=
  blockVersion = hf.getCurrentVersion && hf.getCurrentVersion ≤ votingVersion

def check (hf : HardFork) (b : BlockHeader) : Bool := hf.doCheck b.majorVersion b.vote

/-- The votes entry `p` needs: `(window_size * threshold + 99) / 100`, computed
in 64 bits and stored in 32. -/
def voteThreshold (hf : HardFork) (p : ForkParams) : Nat :=
  (hf.windowSize * p.threshold + 99) % 2 ^ 64 / 100 % 2 ^ 32

/-- The loop of `get_voted_fork_index`, on the entries in reverse order. The
index of an entry is the number of entries that follow it there. -/
def votedLoop (hf : HardFork) (height : Nat) : List ForkParams → Nat → Option Nat
  | [], _ => none
  | p :: rest, accumulatedVotes =>
    let accumulatedVotes := (accumulatedVotes + hf.lastVersions p.version) % 2 ^ 32
    if p.height ≤ height ∧ hf.voteThreshold p ≤ accumulatedVotes then some rest.length
    else hf.votedLoop height rest accumulatedVotes

def getVotedForkIndex (hf : HardFork) (height : Nat) : Nat :=
  (hf.votedLoop height hf.heights.entries.reverse 0).getD hf.currentForkIndex

def doCheckForHeight (hf : HardFork) (blockVersion votingVersion height : Nat) : Bool :=
  let version := hf.heights.versionAt (hf.getVotedForkIndex height)
  blockVersion = version && version ≤ votingVersion

def checkForHeight (hf : HardFork) (b : BlockHeader) (height : Nat) : Bool :=
  hf.doCheckForHeight b.majorVersion b.vote height

/-- `voted = get_voted_fork_index(height)` (a `uint8_t`), and the jump to it
when it is ahead of the current index. -/
def applyVote (hf : HardFork) (height : Nat) : HardFork :=
  let voted := hf.getVotedForkIndex height % 256
  if hf.currentForkIndex < voted then { hf with currentForkIndex := voted } else hf

/-- `last_versions[v]++`. -/
def countUp (last : Nat → Nat) (v : Nat) : Nat → Nat :=
  Function.update last v ((last v + 1) % 2 ^ 32)

/-- `last_versions[v]--`. -/
def countDown (last : Nat → Nat) (v : Nat) : Nat → Nat :=
  Function.update last v ((last v + (2 ^ 32 - 1)) % 2 ^ 32)

/-- `while (versions.size() >= window_size)`: forget the oldest votes. -/
def dropOldVotes (windowSize : Nat) : List Nat → (Nat → Nat) → List Nat × (Nat → Nat)
  | [], last => ([], last)
  | old :: rest, last =>
    if windowSize ≤ (old :: rest).length then
      dropOldVotes windowSize rest (countDown last old)
    else (old :: rest, last)

/-- `last_versions[v]++; versions.push_back(v)`. -/
def pushVote (hf : HardFork) (v : Nat) : HardFork :=
  { hf with versions := hf.versions ++ [v], lastVersions := countUp hf.lastVersions v }

/-- `add(block_version, voting_version, height)`; `none` is `false`. -/
def addVersion (hf : HardFork) (db : BlockchainDb) (blockVersion votingVersion height : Nat) :
    Option (HardFork × BlockchainDb) :=
  if hf.doCheck blockVersion votingVersion then
    let db := db.setHardForkVersion height hf.getCurrentVersion
    let v := hf.getEffectiveVersion votingVersion
    let kept := dropOldVotes hf.windowSize hf.versions hf.lastVersions
    let hf := { hf with versions := kept.1, lastVersions := kept.2 }
    some (((hf.pushVote v).applyVote (height + 1)), db)
  else none

/-- `add(block, height)`. -/
def add (hf : HardFork) (db : BlockchainDb) (b : BlockHeader) (height : Nat) :
    Option (HardFork × BlockchainDb) :=
  hf.addVersion db b.majorVersion b.vote height

/-- `versions.clear()` and zeroing `last_versions`. -/
def clearVotes (hf : HardFork) : HardFork :=
  { hf with versions := [], lastVersions := fun _ => 0 }

def effectiveVote (hf : HardFork) (b : BlockHeader) : Nat := hf.getEffectiveVersion b.vote

/-- The loop that counts the votes of the blocks it is given, lowest first. -/
def countVotes (hf : HardFork) (blocks : List StoredBlock) : HardFork :=
  blocks.foldl (fun hf b => hf.pushVote (hf.effectiveVote b.blk.toBlockHeader)) hf

/-- `while (current_fork_index > 0 && heights[current_fork_index].version > start_version)`. -/
def lowerIndex (t : ForkTable) (startVersion : Nat) : Nat → Nat
  | 0 => 0
  | n + 1 => if startVersion < t.versionAt (n + 1) then lowerIndex t startVersion n else n + 1

/-- The last loop of `reorganize_from_block_height`: the return value of `add`
is ignored there. -/
def addBlocks (hf : HardFork) (db : BlockchainDb) : List StoredBlock → Nat → HardFork × BlockchainDb
  | [], _ => (hf, db)
  | b :: rest, h =>
    match hf.add db b.blk.toBlockHeader h with
    | none => addBlocks hf db rest (h + 1)
    | some (hf', db') => addBlocks hf' db' rest (h + 1)

/-- `rescan_height`: where the window of votes up to `height` starts. -/
def rescanHeight (hf : HardFork) (height : Nat) : Nat :=
  if hf.windowSize - 1 ≤ height then height - (hf.windowSize - 1) else 0

/-- `start_version`: the version the block at `height` was accepted with. -/
def startVersion (hf : HardFork) (db : BlockchainDb) (height : Nat) : Option Nat :=
  if height = 0 then some hf.originalVersion else db.getHardForkVersion height

/-- `reorganize_from_block_height`. A missing hard-fork version makes
`get_hard_fork_version` throw: `none`. -/
def reorganizeFromBlockHeight (hf : HardFork) (db : BlockchainDb) (height : Nat) :
    Option (Bool × HardFork × BlockchainDb) :=
  if db.height ≤ height then some (false, hf, db)
  else do
    let startVersion ← hf.startVersion db height
    let hf := hf.clearVotes
    let hf := { hf with
      currentForkIndex := lowerIndex hf.heights startVersion hf.currentForkIndex }
    let hf := hf.countVotes ((db.chain.take (height + 1)).drop (hf.rescanHeight height))
    let hf := hf.applyVote (height + 1)
    let r := hf.addBlocks db (db.chain.drop (height + 1)) (height + 1)
    some (true, r.1, r.2)

def reorganizeFromChainHeight (hf : HardFork) (db : BlockchainDb) (height : Nat) :
    Option (Bool × HardFork × BlockchainDb) :=
  if height = 0 then some (false, hf, db) else hf.reorganizeFromBlockHeight db (height - 1)

/-- `while (current_fork_index + 1 < heights.size() && heights[current_fork_index].version != lastv)`,
counting up from 0. -/
def raiseIndex (lastv : Nat) : List ForkParams → Nat
  | [] => 0
  | [_] => 0
  | p :: q :: rest => if p.version = lastv then 0 else raiseIndex lastv (q :: rest) + 1

def rescanFromBlockHeight (hf : HardFork) (db : BlockchainDb) (height : Nat) :
    Option (Bool × HardFork) :=
  if db.height ≤ height then some (false, hf)
  else do
    let hf := hf.clearVotes.countVotes (db.chain.drop height)
    let lastv ← db.getHardForkVersion (db.height - 1)
    let hf := { hf with currentForkIndex := raiseIndex lastv hf.heights.entries }
    some (true, hf.applyVote db.height)

def rescanFromChainHeight (hf : HardFork) (db : BlockchainDb) (height : Nat) :
    Option (Bool × HardFork) :=
  if height = 0 then some (false, hf) else hf.rescanFromBlockHeight db (height - 1)

/-- `get_ideal_version(height)`. -/
def getIdealVersion (hf : HardFork) (height : Nat) : Nat :=
  match hf.heights.entries.tail.reverse.find? (fun p => p.height ≤ height) with
  | some p => p.version
  | none => hf.originalVersion

/-- The placeholder `init` puts into an empty table. -/
def placeholder (hf : HardFork) : ForkTable :=
  { entries := [⟨hf.originalVersion, 0, 0, 0⟩]
    version_pos := by simpa using hf.originalVersion_pos
    version_lt := by simpa using hf.originalVersion_lt
    threshold_le := by simp
    increasing := .singleton _ }

/-- The start of `init`: the placeholder, and a state without votes. -/
def reset (hf : HardFork) : HardFork :=
  { hf.clearVotes with
    heights := if hf.heights.entries = [] then hf.placeholder else hf.heights
    currentForkIndex := 0 }

/-- `init`. A database without hard-fork information is reparsed from the
start; the return values of the two loops are ignored. -/
def init (hf : HardFork) (db : BlockchainDb) : Option (HardFork × BlockchainDb) :=
  let hf := hf.reset
  let height := if hf.windowSize < db.height then db.height - (hf.windowSize - 1) else 1
  match db.getHardForkVersion 0 with
  | none => do
    let (_, hf, db) ← hf.reorganizeFromChainHeight db 1
    some (hf, db.setHardForkVersion 0 hf.originalVersion)
  | some _ => do
    let (_, hf) ← hf.rescanFromChainHeight db height
    some (hf, db)

/-! ### What `add` can do -/

variable {hf hf' : HardFork} {b : BlockHeader} {db db' : BlockchainDb}

/-- `add` fails exactly when `check` does. -/
theorem add_of_check (h : hf.check b = true) (db : BlockchainDb) (height : Nat) :
    ∃ hf', hf.add db b height =
      some (hf', db.setHardForkVersion height hf.getCurrentVersion) := by
  unfold add addVersion
  rw [if_pos (show hf.doCheck b.majorVersion b.vote = true from h)]
  exact ⟨_, rfl⟩

/-- A successful `add` records the current version, replaces the votes and lets
them decide. -/
theorem add_inv {height : Nat} (h : hf.add db b height = some (hf', db')) :
    db' = db.setHardForkVersion height hf.getCurrentVersion ∧
      ∃ versions last, hf' =
        ({ hf with versions := versions, lastVersions := last } : HardFork).applyVote (height + 1) := by
  unfold add addVersion at h
  split at h
  · obtain ⟨rfl, rfl⟩ := Prod.mk.inj (Option.some.inj h)
    exact ⟨rfl, _, _, rfl⟩
  · cases h

theorem add_chain {height : Nat} (h : hf.add db b height = some (hf', db')) :
    db'.chain = db.chain := by
  obtain ⟨rfl, -⟩ := add_inv h
  rfl

theorem addBlocks_chain : ∀ (blocks : List StoredBlock) (hf : HardFork) (db : BlockchainDb) (h : Nat),
    (hf.addBlocks db blocks h).2.chain = db.chain
  | [], _, _, _ => rfl
  | b :: rest, hf, db, h => by
    unfold addBlocks
    split
    · exact addBlocks_chain rest hf db (h + 1)
    · rename_i hf' db' hadd
      rw [addBlocks_chain rest hf' db' (h + 1), add_chain hadd]

theorem reorganizeFrom_chain {k : Nat} {r : Bool}
    (h : hf.reorganizeFromChainHeight db k = some (r, hf', db')) : db'.chain = db.chain := by
  unfold reorganizeFromChainHeight reorganizeFromBlockHeight at h
  split at h
  · cases h
    rfl
  split at h
  · cases h
    rfl
  · obtain ⟨v, -, hv⟩ := Option.bind_eq_some_iff.mp h
    cases hv
    exact addBlocks_chain _ _ _ _

end HardFork

end Lethean
