import Lethean.CryptonoteCore.Reorganize

/-!
# Lethean.CryptonoteCore.DifficultyCache

`get_difficulty_for_next_block` keeps the timestamps and difficulties it read
and, when it is next called one block later, only pushes the data of the new top
block. This module compares that with reading the window from the database.

`Effect` lists everything the functions of `Blockchain` do to the chain and to
the cache: ask for a difficulty, drop the cache, push a block, pop one (which
drops the cache), or leave both alone. Every function is a sequence of effects
(`addNewBlock_effects` and the lemmas before it), so an invariant is proved once
per effect. The invariant is `CacheInv`: the cache holds the data of the blocks
just below its height, without gaps.

That does not make the cached window the right one. It has at most one entry
more than the window of the previous call, so it is too short when a fork widens
the window (from 29 blocks at version 3 to 71 at version 4 or 61 at version 5).
`DifficultyCall.Fits` is the exact condition.
-/

namespace Lethean

namespace Blockchain

variable {env : Env} {now : Nat} {bc bc' : Blockchain}

/-! ### Effects -/

/-- Chain, cache and history are the same. -/
structure SameCache (bc bc' : Blockchain) : Prop where
  chain : bc'.db.chain = bc.db.chain
  cachedHeight : bc'.cachedHeight = bc.cachedHeight
  timestamps : bc'.timestamps = bc.timestamps
  difficulties : bc'.difficulties = bc.difficulties
  calls : bc'.difficultyCalls = bc.difficultyCalls

/-- One thing that can happen to the chain or the cache. -/
inductive Effect (env : Env) (bc : Blockchain) : Blockchain → Prop
  | frame {s : Blockchain} (h : SameCache bc s) : Effect env bc s
  | drop : Effect env bc bc.dropCache
  | ask : Effect env bc (bc.getDifficultyForNextBlock env).2
  | push {s : Blockchain} (b : StoredBlock) (chain : s.db.chain = bc.db.chain ++ [b])
      (cachedHeight : s.cachedHeight = bc.cachedHeight)
      (timestamps : s.timestamps = bc.timestamps)
      (difficulties : s.difficulties = bc.difficulties)
      (calls : s.difficultyCalls = bc.difficultyCalls) : Effect env bc s
  | pop {s : Blockchain} (chain : s.db.chain = bc.db.chain.dropLast) (cachedHeight : s.cachedHeight = 0)
      (calls : s.difficultyCalls = bc.difficultyCalls) : Effect env bc s

abbrev Effects (env : Env) : Blockchain → Blockchain → Prop :=
  Relation.ReflTransGen (Effect env)

theorem SameCache.effects (h : SameCache bc bc') : Effects env bc bc' := .single (.frame h)

theorem storeBlock_effects (bc : Blockchain) (b : StoredBlock) :
    Effects env bc (bc.storeBlock b) := by
  unfold storeBlock
  split
  · rename_i hf db hadd
    exact .single (.push b (HardFork.add_chain hadd) rfl rfl rfl rfl)
  · exact .single (.push b rfl rfl rfl rfl rfl)

theorem addInvalid_sameCache (bc : Blockchain) (bei : BlockExtendedInfo) (id : Hash) :
    SameCache bc (bc.addBlockAsInvalid bei id) := by
  unfold addBlockAsInvalid
  split <;> exact ⟨rfl, rfl, rfl, rfl, rfl⟩

theorem storeStep_effects (bc : Blockchain) (bl : Block) (d : Nat) (s : TxLoop) :
    Effects env bc (bc.storeStep env now bl d s).2 := by
  unfold storeStep
  dsimp only
  split
  · exact SameCache.effects ⟨rfl, rfl, rfl, rfl, rfl⟩
  split
  · exact SameCache.effects ⟨rfl, rfl, rfl, rfl, rfl⟩
  · exact SameCache.effects ⟨rfl, rfl, rfl, rfl, rfl⟩
  · have hpool : SameCache bc { bc with blocksTxsCheck := [], txPool := s.pool } :=
      ⟨rfl, rfl, rfl, rfl, rfl⟩
    exact hpool.effects.trans (storeBlock_effects _ _)

theorem connectBlock_effects (bc : Blockchain) (bl : Block) (id : Hash) (d : Nat) :
    Effects env bc (bc.connectBlock env now bl id d).2 := by
  unfold connectBlock
  split
  · split
    · have hinv := addInvalid_sameCache bc ⟨bl, 0, 0⟩ id
      exact hinv.effects.trans (SameCache.effects ⟨rfl, rfl, rfl, rfl, rfl⟩)
    · exact SameCache.effects ⟨rfl, rfl, rfl, rfl, rfl⟩
  · exact storeStep_effects _ _ _ _

/-- Only the refusals before the difficulty is computed leave the cache alone. -/
theorem mainChain_effects (env : Env) (now : Nat) (bc : Blockchain) (bl : Block) (id : Hash) :
    Effects env bc (bc.handleBlockToMainChain env now bl id).2 := by
  have hask : Effects env bc (bc.getDifficultyForNextBlock env).2 := .single .ask
  unfold handleBlockToMainChain
  dsimp only
  split_ifs
  · exact .refl
  · exact .refl
  · exact .refl
  · exact hask
  · exact hask
  · exact hask
  · exact hask
  · exact hask.trans (connectBlock_effects _ _ _ _)

theorem pop_effects {b : Block}
    (h : bc.popBlockFromBlockchain env now = some (b, bc')) : Effects env bc bc' := by
  unfold popBlockFromBlockchain at h
  split at h
  · cases h
  · obtain ⟨-, rfl⟩ := Prod.mk.inj (Option.some.inj h)
    exact .single (.pop rfl rfl rfl)

theorem popBlocks_effects : ∀ {n : Nat} {bc bc' : Blockchain},
    popBlocks env now n bc = some bc' → Effects env bc bc'
  | 0, _, _, h => by
    cases h
    exact .refl
  | n + 1, bc, bc', h => by
    obtain ⟨⟨b, bc1⟩, h1, h⟩ := Option.bind_eq_some_iff.mp h
    exact (pop_effects h1).trans (popBlocks_effects h)

theorem connectBlocks_effects (env : Env) (now : Nat) : ∀ (blocks : List Block) (bc : Blockchain),
    Effects env bc (connectBlocks env now blocks bc).2
  | [], _ => .refl
  | b :: rest, bc => by
    unfold connectBlocks
    dsimp only
    split
    · exact (mainChain_effects env now bc b _).trans (connectBlocks_effects env now rest _)
    · exact mainChain_effects env now bc b _

theorem reorganize_effects {k : Nat} (h : bc.reorganizeHardFork k = some bc') :
    Effects env bc bc' := by
  obtain ⟨⟨r, hf, db⟩, h1, h⟩ := Option.bind_eq_some_iff.mp h
  cases h
  exact SameCache.effects ⟨HardFork.reorganizeFrom_chain h1, rfl, rfl, rfl, rfl⟩

theorem rollback_effects {blocks : List Block} {k : Nat} {r : Bool}
    (h : bc.rollbackBlockchainSwitching env now blocks k = some (r, bc')) : Effects env bc bc' := by
  rcases rollback_inv h with
    ⟨-, -, rfl⟩ | ⟨-, bc1, bc2, bc3, rest, hpop, hreorg, hconn, hend⟩
  · exact .refl
  have hpre : Effects env bc bc2 :=
    ((Relation.ReflTransGen.single .drop).trans (popBlocks_effects hpop)).trans
      (reorganize_effects hreorg)
  have hconn' := connectBlocks_effects env now blocks bc2
  rw [hconn] at hconn'
  rcases hend with ⟨-, -, hreorg'⟩ | ⟨-, -, rfl⟩
  · exact (hpre.trans hconn').trans (reorganize_effects hreorg')
  · exact hpre.trans hconn'

theorem eraseAlts_sameCache (bc : Blockchain) (ids : List Hash) :
    SameCache bc (bc.eraseAlternatives ids) :=
  ⟨rfl, rfl, rfl, rfl, rfl⟩

theorem SameCache.trans {bc1 bc2 bc3 : Blockchain} (h : SameCache bc1 bc2)
    (h' : SameCache bc2 bc3) : SameCache bc1 bc3 where
  chain := h'.chain.trans h.chain
  cachedHeight := h'.cachedHeight.trans h.cachedHeight
  timestamps := h'.timestamps.trans h.timestamps
  difficulties := h'.difficulties.trans h.difficulties
  calls := h'.calls.trans h.calls

theorem markInvalid_sameCache (bc : Blockchain) (entries : List AltEntry) :
    SameCache bc (bc.markInvalid entries) := by
  have hfold : ∀ (l : List AltEntry) (s : Blockchain),
      SameCache s (l.foldl (fun bc e => bc.addBlockAsInvalid e.2 e.1) s) := by
    intro l
    induction l with
    | nil => exact fun s => ⟨rfl, rfl, rfl, rfl, rfl⟩
    | cons e l ih => exact fun s => (addInvalid_sameCache s e.2 e.1).trans (ih _)
  exact (hfold entries bc).trans (eraseAlts_sameCache _ _)

/-- What is asked of the handler that nested calls go to. -/
def HandlerEffects (env : Env) (handler : AltHandler) : Prop :=
  ∀ bc b id o bc', handler bc b id = some (o, bc') → Effects env bc bc'

variable {handler : AltHandler} {branch : List AltEntry} {o : Outcome}

section

variable (hh : HandlerEffects env handler)
include hh

theorem pushAlts_effects :
    ∀ {blocks : List Block} {bc bc' : Blockchain} {r : List Bool},
      pushAlternatives env handler blocks bc = some (r, bc') → Effects env bc bc'
  | [], _, _, _, h => by
    cases h
    exact .refl
  | b :: rest, bc, bc', r, h => by
    obtain ⟨⟨o, bc1⟩, h1, h⟩ := Option.bind_eq_some_iff.mp h
    obtain ⟨⟨r', bc2⟩, h2, h⟩ := Option.bind_eq_some_iff.mp h
    cases h
    exact (hh _ _ _ _ _ h1).trans (pushAlts_effects h2)

theorem switch_effects {discard r : Bool} {l : List Bool}
    (h : bc.switchToAlternativeBlockchain handler env now branch discard = some (r, l, bc')) :
    Effects env bc bc' := by
  have hdrop : Effects env bc bc.dropCache := .single .drop
  rcases switch_inv h with
    ⟨-, rfl, -, -⟩ | ⟨front, rest, disconnected, bc1, refused, bc2, -, -, hpop, hconn, hend⟩
  · exact hdrop
  have hconn' := connectBlocks_effects env now (branch.map (·.2.bl)) bc1
  rw [hconn] at hconn'
  have hpre := (popUntil_keeps (fun _ _ _ h1 he => he.trans (pop_effects h1)) hpop hdrop).trans hconn'
  rcases hend with ⟨-, -, bc3, hkeep, hreorg⟩ | ⟨-, -, rolledBack, bc3, hroll, -, rfl⟩
  · have hpush : Effects env bc2 bc3 := by
      unfold keepDisconnected at hkeep
      split at hkeep
      · cases hkeep
        exact .refl
      · exact pushAlts_effects hh hkeep
    exact ((hpre.trans hpush).trans (eraseAlts_sameCache _ _).effects).trans
      (reorganize_effects hreorg)
  · exact (hpre.trans (rollback_effects hroll)).trans (markInvalid_sameCache _ _).effects

theorem storeAlt_effects {bei : BlockExtendedInfo} {id : Hash} {isACheckpoint : Bool}
    (h : bc.storeAlternative handler env now branch bei id isACheckpoint = some (o, bc')) :
    Effects env bc bc' := by
  have hins : Effects env bc
      { bc with alternativeChains := bc.alternativeChains.insert id bei } :=
    SameCache.effects ⟨rfl, rfl, rfl, rfl, rfl⟩
  rcases storeAlt_inv h with ⟨-, rfl, -⟩ | ⟨-, ⟨rfl, -⟩ | ⟨-, -, h1⟩⟩
  · exact .refl
  · exact hins
  · exact hins.trans (switch_effects hh h1)

theorem extendBranch_effects {b : Block} {id : Hash}
    (h : bc.extendBranch handler env now branch b id = some (o, bc')) : Effects env bc bc' := by
  rcases extendBranch_inv h with ⟨rfl, -⟩ | ⟨height, d, -, -, h1⟩
  · exact .refl
  · exact storeAlt_effects hh h1

end

theorem altBlock_effects : ∀ nesting : Nat,
    HandlerEffects env (handleAlternativeBlock env now nesting)
  | 0 => fun _ _ _ _ _ h => by cases h
  | nesting + 1 => by
    intro bc b id o bc' h
    have hh : HandlerEffects env (handleAlternativeBlock env now nesting) :=
      altBlock_effects nesting
    have hdrop : Effects env bc bc.dropCache := .single .drop
    rcases altBlockWith_inv h with ⟨rfl, -⟩ | ⟨branch, -, -, -, -, h1⟩
    · exact hdrop
    · exact hdrop.trans (extendBranch_effects hh h1)

theorem addNewBlock_effects {nesting : Nat} {bl : Block}
    (h : bc.addNewBlock env now nesting bl = some (o, bc')) : Effects env bc bc' := by
  unfold addNewBlock at h
  dsimp only at h
  split_ifs at h
  · cases h
    exact SameCache.effects ⟨rfl, rfl, rfl, rfl, rfl⟩
  · have := mainChain_effects env now bc bl (env.blockHash bl)
    rwa [Option.some.inj h] at this
  · obtain ⟨⟨o', bc1⟩, h1, h⟩ := Option.bind_eq_some_iff.mp h
    cases h
    exact (altBlock_effects nesting _ _ _ _ _ h1).trans
      (SameCache.effects ⟨rfl, rfl, rfl, rfl, rfl⟩)

/-! ### The cache invariant -/

/-- A used cache holds the data of the blocks right below its height, as far
down as it goes; the genesis block is never among them. -/
def CacheInv (bc : Blockchain) : Prop :=
  bc.cachedHeight ≠ 0 → bc.cachedHeight ≤ bc.db.height ∧
    ∃ w, w <:+ (bc.db.chain.take bc.cachedHeight).tail ∧
      bc.timestamps = w.map (·.timestamp) ∧ bc.difficulties = w.map (·.cumulativeDifficulty)

theorem lastBlocks_eq (chain : List StoredBlock) (n : Nat) :
    lastBlocks chain n = chain.tail.rtake n := by
  unfold lastBlocks
  dsimp only
  rw [List.rtake, List.length_tail, ← List.drop_one, List.drop_drop]
  congr 1
  split <;> omega

theorem cacheUsable_iff : bc.cacheUsable = true ↔
    bc.cachedHeight ≠ 0 ∧ bc.db.height = bc.cachedHeight + 1 := by
  simp [cacheUsable]

/-- A usable cache, with the new top block pushed, still holds the blocks right
below the new height. -/
theorem CacheInv.pushed (hinv : CacheInv bc) (hu : bc.cacheUsable = true) :
    ∃ w top, (w ++ [top]) <:+ bc.db.chain.tail ∧ bc.db.chain.getLast? = some top ∧
      bc.timestamps = w.map (·.timestamp) ∧ bc.difficulties = w.map (·.cumulativeDifficulty) := by
  obtain ⟨hne, hheight⟩ := cacheUsable_iff.mp hu
  obtain ⟨hle, w, hw, hts, hds⟩ := hinv hne
  rcases List.eq_nil_or_concat' bc.db.chain with hnil | ⟨c, top, hc⟩
  · rw [BlockchainDb.height, hnil] at hheight
    exact absurd hheight (by simp)
  have hlen : c.length = bc.cachedHeight := by
    have := hheight
    rw [BlockchainDb.height, hc, List.length_append, List.length_singleton] at this
    omega
  have hcne : c ≠ [] := List.ne_nil_of_length_pos (by omega)
  rw [hc, ← hlen, List.take_left] at hw
  refine ⟨w, top, ?_, by rw [hc, List.getLast?_concat], hts, hds⟩
  obtain ⟨pre, hpre⟩ := hw
  rw [hc, List.tail_append_of_ne_nil hcne]
  exact ⟨pre, by rw [← List.append_assoc, hpre]⟩

theorem CacheInv.refreshCache (hinv : CacheInv bc) : CacheInv bc.refreshCache := by
  intro _
  have hfull : ∀ c : List StoredBlock, c.take c.length = c := fun c => List.take_length
  unfold Blockchain.refreshCache
  split
  · rename_i hu
    obtain ⟨w, top, hsuf, htop, hts, hds⟩ := hinv.pushed hu
    refine ⟨le_rfl, (w ++ [top]).rtake (difficultyBlocks bc.currentVersion), ?_, ?_, ?_⟩
    · simp only [slideCache, BlockchainDb.height, hfull]
      exact (Window.rtake_suffix _ _).trans hsuf
    · simp [slideCache, htop, hts, ← Window.rtake_map]
    · simp [slideCache, htop, hds, ← Window.rtake_map]
  · refine ⟨le_rfl, lastBlocks bc.db.chain (difficultyBlocks bc.currentVersion), ?_, rfl, rfl⟩
    simp only [fillCache, BlockchainDb.height, hfull, lastBlocks_eq]
    exact Window.rtake_suffix _ _

theorem CacheInv.effect (hinv : CacheInv bc) (h : Effect env bc bc') : CacheInv bc' := by
  cases h with
  | frame h =>
    intro hne
    rw [h.cachedHeight] at hne
    rw [BlockchainDb.height, h.chain, h.cachedHeight, h.timestamps, h.difficulties]
    exact hinv hne
  | drop => exact fun hne => absurd rfl hne
  | ask => exact hinv.refreshCache
  | push b hchain hheight hts hds _ =>
    intro hne
    rw [hheight] at hne
    obtain ⟨hle, w, hw, hwts, hwds⟩ := hinv hne
    rw [BlockchainDb.height, hchain, hheight, hts, hds, List.take_append_of_le_length hle]
    exact ⟨hle.trans (by simp [BlockchainDb.height]), w, hw, hwts, hwds⟩
  | pop _ h0 _ => exact fun hne => absurd h0 hne

theorem CacheInv.effects (hinv : CacheInv bc) (h : Effects env bc bc') : CacheInv bc' := by
  induction h with
  | refl => exact hinv
  | tail _ he ih => exact ih.effect he

/-! ### The calls -/

end Blockchain

namespace DifficultyCall

/-- The blocks a call at height `h` is about: heights
`max(1, h - min(h, D(v))) .. h - 1`. -/
def window (c : DifficultyCall) : List StoredBlock :=
  c.chain.drop (max 1 (c.chain.length - min c.chain.length (difficultyBlocks c.version)))

/-- The vectors passed on are those of exactly these blocks. -/
def WindowRight (c : DifficultyCall) : Prop :=
  c.timestamps = c.window.map (·.timestamp) ∧
    c.difficulties = c.window.map (·.cumulativeDifficulty)

/-- The cached branch was not taken, or one more entry makes the cache as long
as the window. -/
def Fits (c : DifficultyCall) : Prop :=
  c.cached = true → min (difficultyBlocks c.version) (c.chain.length - 1) ≤ c.cachedCount + 1

instance (c : DifficultyCall) : Decidable c.WindowRight :=
  inferInstanceAs (Decidable (_ ∧ _))

instance (c : DifficultyCall) : Decidable c.Fits := inferInstanceAs (Decidable (_ → _))

theorem window_eq (c : DifficultyCall) :
    c.window = c.chain.tail.rtake (difficultyBlocks c.version) := by
  rw [← Blockchain.lastBlocks_eq, window, Blockchain.lastBlocks]
  congr 1
  split <;> omega

end DifficultyCall

namespace Blockchain

/-- **One call.** On a cache with the invariant, the window is the right one
exactly when the cache is long enough. -/
theorem windowRight_iff_fits (hinv : CacheInv bc) (result : Nat) :
    (bc.difficultyCall result).WindowRight ↔ (bc.difficultyCall result).Fits := by
  unfold DifficultyCall.WindowRight
  rw [DifficultyCall.window_eq]
  by_cases hu : bc.cacheUsable = true
  · obtain ⟨w, top, hsuf, htop, hts, hds⟩ := hinv.pushed hu
    have hlen : bc.timestamps.length = w.length := by rw [hts, List.length_map]
    have hslide : bc.refreshCache = bc.slideCache (difficultyBlocks bc.currentVersion) := by
      simp [refreshCache, hu]
    simp only [difficultyCall, hslide, slideCache, htop, hts, hds, DifficultyCall.Fits, hu,
      forall_const, Option.map_some, Option.toList_some, List.length_map,
      ← Window.rtake_map, List.map_tail]
    constructor
    · rintro ⟨hwin, -⟩
      by_contra hlt
      refine Window.rtake_ne_of_suffix ?_ hwin
      simp only [List.length_append, List.length_map, List.length_tail, List.length_singleton]
      omega
    · intro hle
      have hmap : ∀ f : StoredBlock → Nat,
          (w.map f ++ [f top]).rtake (difficultyBlocks bc.currentVersion) =
            (bc.db.chain.map f).tail.rtake (difficultyBlocks bc.currentVersion) := by
        intro f
        refine Window.rtake_of_suffix ?_ ?_
        · simpa [List.map_tail] using hsuf.map f
        · simp only [List.length_append, List.length_map, List.length_tail, List.length_singleton]
          omega
      exact ⟨hmap _, hmap _⟩
  · -- the window was just read from the database
    have hfill : bc.refreshCache = bc.fillCache (difficultyBlocks bc.currentVersion) := by
      simp [refreshCache, hu]
    simp [difficultyCall, hfill, fillCache, lastBlocks_eq, DifficultyCall.Fits, hu]

def CallsExact (env : Env) (bc : Blockchain) : Prop :=
  ∀ c ∈ bc.difficultyCalls,
    c.result = nextDifficulty env.lwmaV4 c.version c.timestamps c.difficulties ∧
      (c.WindowRight ↔ c.Fits)

theorem CallsExact.effect (hinv : CacheInv bc) (hcalls : CallsExact env bc)
    (h : Effect env bc bc') : CallsExact env bc' := by
  cases h with
  | frame h => exact fun c hc => hcalls c (h.calls ▸ hc)
  | drop => exact hcalls
  | ask => exact forall_mem_concat.mpr ⟨hcalls, rfl, windowRight_iff_fits hinv _⟩
  | push b _ _ _ _ h => exact fun c hc => hcalls c (h ▸ hc)
  | pop _ _ h => exact fun c hc => hcalls c (h ▸ hc)

theorem CallsExact.effects (hinv : CacheInv bc) (hcalls : CallsExact env bc)
    (h : Effects env bc bc') : CallsExact env bc' := by
  induction h with
  | refl => exact hcalls
  | tail hs he ih => exact ih.effect (hinv.effects hs) he

/-! ### Runs -/

inductive Op
  | addNewBlock (now nesting : Nat) (bl : Block)
  | handleBlockToMainChain (now : Nat) (bl : Block)
  | popBlockFromBlockchain (now : Nat)
  | handleAlternativeBlock (now nesting : Nat) (b : Block)
  | getDifficultyForNextBlock

/-- One operation; `none` when it throws. -/
def Op.run (env : Env) (bc : Blockchain) : Op → Option Blockchain
  | addNewBlock now nesting bl => (bc.addNewBlock env now nesting bl).map Prod.snd
  | handleBlockToMainChain now bl =>
    some (bc.handleBlockToMainChain env now bl (env.blockHash bl)).2
  | popBlockFromBlockchain now => (bc.popBlockFromBlockchain env now).map Prod.snd
  | handleAlternativeBlock now nesting b =>
    (Blockchain.handleAlternativeBlock env now nesting bc b (env.blockHash b)).map Prod.snd
  | getDifficultyForNextBlock => some (bc.getDifficultyForNextBlock env).2

def runOps (env : Env) (bc : Blockchain) (ops : List Op) : Option Blockchain :=
  ops.foldlM (Op.run env) bc

theorem Op.run_effects {op : Op} (h : op.run env bc = some bc') : Effects env bc bc' := by
  cases op with
  | addNewBlock now nesting bl =>
    obtain ⟨⟨o, s⟩, hs, rfl⟩ := Option.map_eq_some_iff.mp h
    exact addNewBlock_effects hs
  | handleBlockToMainChain now bl =>
    obtain rfl := Option.some.inj h
    exact mainChain_effects env now bc bl _
  | popBlockFromBlockchain now =>
    obtain ⟨⟨b, s⟩, hs, rfl⟩ := Option.map_eq_some_iff.mp h
    exact pop_effects hs
  | handleAlternativeBlock now nesting b =>
    obtain ⟨⟨o, s⟩, hs, rfl⟩ := Option.map_eq_some_iff.mp h
    exact altBlock_effects nesting _ _ _ _ _ hs
  | getDifficultyForNextBlock =>
    obtain rfl := Option.some.inj h
    exact .single .ask

theorem runOps_effects : ∀ {ops : List Op} {bc : Blockchain},
    runOps env bc ops = some bc' → Effects env bc bc'
  | [], bc, h => by
    cases h
    exact .refl
  | op :: ops, bc, h => by
    obtain ⟨s, hs, h⟩ := Option.bind_eq_some_iff.mp h
    exact (Op.run_effects hs).trans (runOps_effects h)

/-- **Every call of every run.** Start a node on any chain, with any fork
table, and let it run any sequence of operations. Each call of
`get_difficulty_for_next_block` passes on the data of exactly the blocks of its
window if and only if its cache was not used or was long enough, and then it
returns what a freshly started node returns. -/
theorem difficulty_calls_exact (env : Env) (hf : HardFork) (db : BlockchainDb)
    (checkpoints : Checkpoints) (ops : List Op) {bc : Blockchain}
    (hrun : runOps env (start hf db checkpoints) ops = some bc) :
    ∀ c ∈ bc.difficultyCalls, (c.WindowRight ↔ c.Fits) ∧
      (c.Fits → c.result = nextDifficulty env.lwmaV4 c.version (c.window.map (·.timestamp))
        (c.window.map (·.cumulativeDifficulty))) := by
  intro c hc
  have hstart : CacheInv (start hf db checkpoints) := fun hne => absurd rfl hne
  have hnone : CallsExact env (start hf db checkpoints) := fun _ h => absurd h List.not_mem_nil
  obtain ⟨hres, hiff⟩ := (hnone.effects hstart (runOps_effects hrun)) c hc
  refine ⟨hiff, fun hfit => ?_⟩
  obtain ⟨hts, hds⟩ := hiff.mpr hfit
  rw [hres, hts, hds]

def wideningTable : ForkTable :=
  ⟨[⟨1, 0, 1, 0⟩, ⟨3, 0, 2, 1⟩, ⟨5, 0, 34, 2⟩], by decide, by decide, by decide, by decide⟩

/-- Block `i` of a chain for `wideningTable` that slows down at height 20. -/
def slowingBlock (i : Nat) : Block :=
  sampleBlock (if i < 2 then 1 else 3) i (i - 1) i
    (if i < 20 then 10 * i else 200 + 60 * (i - 20))

def wideningNode : Blockchain := startEmpty wideningTable

/-- The blocks up to height 33, one after the other, and one more call at
height 34, where the fork is active. -/
def wideningOps : List Op :=
  (List.range 34).map (fun i => .handleBlockToMainChain 10000 (slowingBlock i)) ++
    [.getDifficultyForNextBlock]

/-- The run above exists, and its calls are as the theorem says. -/
theorem difficulty_calls_exact_widening :
    ∃ bc, runOps .permissive wideningNode wideningOps = some bc ∧ bc.db.height = 34 ∧
      ∀ c ∈ bc.difficultyCalls, (c.WindowRight ↔ c.Fits) ∧
        (c.Fits → c.result = nextDifficulty (fun _ _ => 1) c.version
          (c.window.map (·.timestamp)) (c.window.map (·.cumulativeDifficulty))) := by
  obtain ⟨bc, hbc, hheight⟩ := (Option.any_eq_true _ _).mp (by decide +kernel :
    (runOps .permissive wideningNode wideningOps).any (fun bc => bc.db.height = 34) = true)
  exact ⟨bc, hbc, of_decide_eq_true hheight, difficulty_calls_exact .permissive _ _ _ _ hbc⟩

/-- At the fork the cached window has 30 entries instead of 33: the running
node asks for difficulty 61466438, a restarted one for 58833753. -/
theorem cached_difficulty_differs :
    ∃ bc c, runOps .permissive wideningNode wideningOps = some bc ∧ c ∈ bc.difficultyCalls ∧
      c.result = 61466438 ∧
      nextDifficulty (fun _ _ => 1) c.version (c.window.map (·.timestamp))
        (c.window.map (·.cumulativeDifficulty)) = 58833753 := by
  obtain ⟨bc, hbc, hcall⟩ := (Option.any_eq_true _ _).mp (by decide +kernel :
    (runOps .permissive wideningNode wideningOps).any (fun bc =>
      bc.difficultyCalls.any fun c => c.result = 61466438 ∧
        nextDifficulty (fun _ _ => 1) c.version (c.window.map (·.timestamp))
          (c.window.map (·.cumulativeDifficulty)) = 58833753) = true)
  obtain ⟨c, hc, hres⟩ := List.any_eq_true.mp hcall
  exact ⟨bc, c, hbc, hc, of_decide_eq_true hres⟩

end Blockchain

end Lethean
