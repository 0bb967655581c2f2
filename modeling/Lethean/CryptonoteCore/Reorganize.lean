import Lethean.CryptonoteCore.Blockchain

/-!
# Lethean.CryptonoteCore.Reorganize

Alternative blocks and chain switching: `handle_alternative_block`,
`get_next_difficulty_for_alternative_chain`, `switch_to_alternative_blockchain`,
`rollback_blockchain_switching` and `add_new_block`.

A successful switch calls `handle_alternative_block` again for every block of
the chain it disconnected, and that may switch in turn. The recursion is open
here: `switchToAlternativeBlockchain` takes the handler it calls, and
`handleAlternativeBlock` closes the knot with a bound on the nesting. Results
are optional: `none` stands for an exception of the storage, for undefined
behaviour, or for a nesting deeper than the bound.
-/

namespace Lethean

/-- An entry of `m_alternative_chains`, with its key. -/
abbrev AltEntry := Hash × BlockExtendedInfo

namespace Blockchain

/-! ### The branch a block extends -/

/-- The loop of `handle_alternative_block` that follows the parents of a block
through `m_alternative_chains`. The list runs from the main chain to the block
with the given id. -/
def altChainLoop (alts : Finmap fun _ : Hash => BlockExtendedInfo) : Nat → Hash → List AltEntry
  | 0, _ => []
  | n + 1, id =>
    match alts.lookup id with
    | none => []
    | some bei => altChainLoop alts n bei.bl.prevId ++ [(id, bei)]

/-- The branch that ends in the given id, empty if the id is not an
alternative block. No branch has more blocks than the container. -/
def altChain (bc : Blockchain) (id : Hash) : List AltEntry :=
  altChainLoop bc.alternativeChains bc.alternativeChains.keys.card id

/-- The checks that a branch connects to the main chain. -/
def altConnects (bc : Blockchain) (front : BlockExtendedInfo) : Bool :=
  front.height < bc.db.height && bc.db.blockExists front.bl.prevId &&
    bc.db.getBlockHashFromHeight (front.height - 1) = some front.bl.prevId

/-- `complete_timestamps_vector`. Heights are walked downwards, and the last
one, `stop_offset`, is not read. -/
def completeTimestampsVector (version : Nat) (chain : List StoredBlock) (startTopHeight : Nat)
    (timestamps : List Nat) : List Nat :=
  let window := timestampCheckWindow version
  if window ≤ timestamps.length then timestamps
  else if chain.length ≤ startTopHeight then timestamps
  else
    let needElements := window - timestamps.length
    let stopOffset := if needElements < startTopHeight then startTopHeight - needElements else 0
    timestamps ++
      (((chain.take (startTopHeight + 1)).drop (stopOffset + 1)).map (·.timestamp)).reverse

/-- The id of the main-chain block on which a branch, or a block that extends
none, is built. -/
def splitId (branch : List AltEntry) (prevId : Hash) : Hash :=
  match branch with
  | [] => prevId
  | front :: _ => front.2.bl.prevId

/-- The vector `handle_alternative_block` checks the timestamp against: the
branch from its head down, then the main chain from the split point down. -/
def altTimestamps (bc : Blockchain) (branch : List AltEntry) (prevId : Hash) : List Nat :=
  completeTimestampsVector bc.currentVersion bc.db.chain
    ((bc.db.getBlockHeight (splitId branch prevId)).getD 0)
    (branch.map fun e => e.2.bl.timestamp).reverse

/-- `main_chain_stop_offset`: the height at which the branch leaves the main
chain. -/
def mainChainStopOffset (branch : List AltEntry) (height : Nat) : Nat :=
  match branch with
  | [] => height
  | front :: _ => front.2.height

/-- The blocks `get_next_difficulty_for_alternative_chain` looks at, as pairs
of timestamp and cumulative difficulty. -/
def altWindow (chain : List StoredBlock) (branch : List AltEntry) (height n : Nat) :
    List (Nat × Nat) :=
  let branchData := branch.map fun e => (e.2.bl.timestamp, e.2.cumulativeDifficulty)
  if branch.length < n then
    let stop := mainChainStopOffset branch height
    let mainChainCount := min (n - min n branch.length) stop
    let start := stop - mainChainCount
    let start := if start = 0 then 1 else start
    ((chain.take stop).drop start).map
      (fun b => (b.timestamp, b.cumulativeDifficulty)) ++ branchData
  else branchData.rtake n

def getNextDifficultyForAlternativeChain (env : Env) (bc : Blockchain) (branch : List AltEntry)
    (height : Nat) : Nat :=
  let version := bc.hardfork.getIdealVersion height
  let window := altWindow bc.db.chain branch height (difficultyBlocks version)
  nextDifficulty env.lwmaV4 version (window.map Prod.fst) (window.map Prod.snd)

/-! ### Switching -/

/-- `while (m_db->top_block_hash() != id) pop_block_from_blockchain()`, for at
most as many blocks as there are. Returns the popped blocks, lowest first. -/
def popUntil (env : Env) (now : Nat) (id : Hash) : Nat → Blockchain →
    Option (List Block × Blockchain)
  | 0, _ => none
  | n + 1, bc =>
    if bc.db.topBlockHash = id then some ([], bc)
    else do
      let (b, bc) ← bc.popBlockFromBlockchain env now
      let (popped, bc) ← popUntil env now id n bc
      some (popped ++ [b], bc)

/-- `pop_block_from_blockchain` a given number of times. -/
def popBlocks (env : Env) (now : Nat) : Nat → Blockchain → Option Blockchain
  | 0, bc => some bc
  | n + 1, bc => do
    let (_, bc) ← bc.popBlockFromBlockchain env now
    popBlocks env now n bc

/-- Adding blocks to the main chain until one is refused. Returns the blocks
from the refused one on. -/
def connectBlocks (env : Env) (now : Nat) : List Block → Blockchain → List Block × Blockchain
  | [], bc => ([], bc)
  | b :: rest, bc =>
    let (o, bc) := bc.handleBlockToMainChain env now b (env.blockHash b)
    if o.ret && o.bvc.addedToMainChain then connectBlocks env now rest bc
    else (b :: rest, bc)

/-- `m_hardfork->reorganize_from_chain_height(height)`. -/
def reorganizeHardFork (bc : Blockchain) (height : Nat) : Option Blockchain := do
  let (_, hf, db) ← bc.hardfork.reorganizeFromChainHeight bc.db height
  some { bc with hardfork := hf, db := db }

def rollbackBlockchainSwitching (env : Env) (now : Nat) (bc : Blockchain)
    (originalChain : List Block) (rollbackHeight : Nat) : Option (Bool × Blockchain) :=
  if bc.db.height < rollbackHeight then some (true, bc)
  else do
    let bc ← bc.dropCache.popBlocks env now (bc.db.height - rollbackHeight)
    let bc ← bc.reorganizeHardFork rollbackHeight
    match bc.connectBlocks env now originalChain with
    | ([], bc) => do
      let bc ← bc.reorganizeHardFork rollbackHeight
      some (true, bc)
    | (_ :: _, bc) => some (false, bc)

/-- Erasing entries from `m_alternative_chains`. -/
def eraseAlternatives (bc : Blockchain) (ids : List Hash) : Blockchain :=
  { bc with alternativeChains := ids.foldl (fun m id => m.erase id) bc.alternativeChains }

/-- The blocks of a branch from the refused one on become invalid blocks. -/
def markInvalid (bc : Blockchain) (entries : List AltEntry) : Blockchain :=
  (entries.foldl (fun bc e => bc.addBlockAsInvalid e.2 e.1) bc).eraseAlternatives
    (entries.map Prod.fst)

/-- `handle_alternative_block(b, id, bvc)`, as a function that may be called again. -/
abbrev AltHandler := Blockchain → Block → Hash → Option (Outcome × Blockchain)

/-- Pushing the disconnected blocks as alternative ones; what the handler
returns for a block is ignored. -/
def pushAlternatives (env : Env) (handler : AltHandler) : List Block → Blockchain →
    Option (List Bool × Blockchain)
  | [], bc => some ([], bc)
  | b :: rest, bc => do
    let (o, bc) ← handler bc b (env.blockHash b)
    let (rollbacks, bc) ← pushAlternatives env handler rest bc
    some (o.rollbacks ++ rollbacks, bc)

/-- `if(!discard_disconnected_chain)`: keep the disconnected blocks as
alternative ones. -/
def keepDisconnected (handler : AltHandler) (env : Env) (discardDisconnectedChain : Bool)
    (disconnected : List Block) (bc : Blockchain) : Option (List Bool × Blockchain) :=
  if discardDisconnectedChain then some ([], bc)
  else bc.pushAlternatives env handler disconnected

/-- `switch_to_alternative_blockchain`: its return value, the results of the
rollbacks, and the new state. -/
def switchToAlternativeBlockchain (handler : AltHandler) (env : Env) (now : Nat) (bc : Blockchain)
    (branch : List AltEntry) (discardDisconnectedChain : Bool) :
    Option (Bool × List Bool × Blockchain) :=
  let bc := bc.dropCache
  match branch with
  | [] => some (false, [], bc)
  | front :: _ =>
    if bc.db.blockExists front.2.bl.prevId = false then some (false, [], bc)
    else do
      let (disconnected, bc) ← bc.popUntil env now front.2.bl.prevId (bc.db.height + 1)
      let splitHeight := bc.db.height
      match bc.connectBlocks env now (branch.map (·.2.bl)) with
      | ([], bc) => do
        let (rollbacks, bc) ←
          bc.keepDisconnected handler env discardDisconnectedChain disconnected
        let bc ← (bc.eraseAlternatives (branch.map Prod.fst)).reorganizeHardFork splitHeight
        some (true, rollbacks, bc)
      | (rest, bc) => do
        let (r, bc) ← bc.rollbackBlockchainSwitching env now disconnected splitHeight
        some (false, [r], bc.markInvalid (branch.drop (branch.length - rest.length)))

/-! ### Alternative blocks -/

/-- The end of `handle_alternative_block`: store the block, and switch when its
branch has become the heavier one or reached a checkpoint. -/
def storeAlternative (handler : AltHandler) (env : Env) (now : Nat) (bc : Blockchain)
    (branch : List AltEntry) (bei : BlockExtendedInfo) (id : Hash) (isACheckpoint : Bool) :
    Option (Outcome × Blockchain) :=
  if id ∈ bc.alternativeChains then some (.reject, bc)
  else
    let mainChainCumulativeDifficulty := topCumulativeDifficulty bc.db
    let bc := { bc with alternativeChains := bc.alternativeChains.insert id bei }
    if isACheckpoint || mainChainCumulativeDifficulty < bei.cumulativeDifficulty then do
      let (r, rollbacks, bc) ←
        bc.switchToAlternativeBlockchain handler env now (branch ++ [(id, bei)]) isACheckpoint
      let bvc : Bvc := if r then { addedToMainChain := true } else { verifivationFailed := true }
      some ({ ret := r, bvc, rollbacks }, bc)
    else some ({ ret := true }, bc)

def parentHeight (bc : Blockchain) (branch : List AltEntry) (prevId : Hash) : Nat :=
  match branch.getLast? with
  | some prev => prev.2.height
  | none => (bc.db.getBlockHeight prevId).getD 0

def parentCumulativeDifficulty (bc : Blockchain) (branch : List AltEntry) (prevId : Hash) : Nat :=
  match branch.getLast? with
  | some prev => prev.2.cumulativeDifficulty
  | none =>
    (bc.db.getBlockCumulativeDifficulty ((bc.db.getBlockHeight prevId).getD 0)).getD 0

/-- `handle_alternative_block` for a block whose branch connects. -/
def extendBranch (handler : AltHandler) (env : Env) (now : Nat) (bc : Blockchain)
    (branch : List AltEntry) (b : Block) (id : Hash) : Option (Outcome × Blockchain) := do
  let timestampOk ←
    checkTimestamps bc.currentVersion (bc.altTimestamps branch b.prevId) b.toBlockHeader
  if timestampOk = false then some (.fail, bc)
  else
    let height := bc.parentHeight branch b.prevId + 1
    let (checkpointOk, isACheckpoint) := bc.checkpoints.checkBlock height id
    if checkpointOk = false then some (.fail, bc)
    else
      let currentDiff := bc.getNextDifficultyForAlternativeChain env branch height
      if currentDiff = 0 then some (.reject, bc)
      else if env.checkProofOfWork b currentDiff height = false then some (.fail, bc)
      else if prevalidateMinerTransaction b height = false then some (.fail, bc)
      else
        let cumulativeDifficulty := u64 (bc.parentCumulativeDifficulty branch b.prevId + currentDiff)
        bc.storeAlternative handler env now branch ⟨b, height, cumulativeDifficulty⟩ id isACheckpoint

/-- `handle_alternative_block`, with the handler for nested calls. -/
def handleAlternativeBlockWith (handler : AltHandler) (env : Env) (now : Nat) : AltHandler :=
  fun bc b id =>
    let bc := bc.dropCache
    let blockHeight := b.getBlockHeight
    if blockHeight = 0 then some (.fail, bc)
    else if bc.checkpoints.isAlternativeBlockAllowed bc.db.height blockHeight = false then
      some (.fail, bc)
    else if bc.hardfork.checkForHeight b.toBlockHeader blockHeight = false then some (.fail, bc)
    else
      match bc.altChain b.prevId with
      | [] =>
        if bc.db.blockExists b.prevId then bc.extendBranch handler env now [] b id
        else some ({ ret := true, bvc := { markedAsOrphaned := true } }, bc)
      | front :: rest =>
        if bc.altConnects front.2 then bc.extendBranch handler env now (front :: rest) b id
        else some (.reject, bc)

/-- `handle_alternative_block`, with at most `nesting` nested levels. -/
def handleAlternativeBlock (env : Env) (now : Nat) : Nat → AltHandler
  | 0 => fun _ _ _ => none
  | nesting + 1 =>
    handleAlternativeBlockWith (handleAlternativeBlock env now nesting) env now

/-! ### New blocks -/

def haveBlock (bc : Blockchain) (id : Hash) : Bool :=
  bc.db.blockExists id || id ∈ bc.alternativeChains || id ∈ bc.invalidBlocks

def addNewBlock (env : Env) (now nesting : Nat) (bc : Blockchain) (bl : Block) :
    Option (Outcome × Blockchain) :=
  let id := env.blockHash bl
  if bc.haveBlock id then
    some ({ ret := false, bvc := { alreadyExists := true } }, { bc with blocksTxsCheck := [] })
  else if bl.prevId = bc.db.topBlockHash then some (bc.handleBlockToMainChain env now bl id)
  else do
    let (o, bc) ← handleAlternativeBlock env now nesting bc bl id
    some (o, { bc with blocksTxsCheck := [] })

/-! ### What the handlers can do -/

variable {handler : AltHandler} {env : Env} {now : Nat} {bc bc' : Blockchain} {b : Block}
  {id : Hash} {o : Outcome}

/-- What every pop keeps, the loop keeps. -/
theorem popUntil_keeps {P : Blockchain → Prop} {n : Nat} {popped : List Block}
    (hpop : ∀ bc b bc', bc.popBlockFromBlockchain env now = some (b, bc') → P bc → P bc')
    (h : popUntil env now id n bc = some (popped, bc')) (hp : P bc) : P bc' := by
  induction n generalizing bc popped with
  | zero => cases h
  | succ n ih =>
    unfold popUntil at h
    split at h
    · cases h
      exact hp
    · obtain ⟨⟨b, bc1⟩, h1, h⟩ := Option.bind_eq_some_iff.mp h
      obtain ⟨⟨l, bc2⟩, h2, h⟩ := Option.bind_eq_some_iff.mp h
      cases h
      exact ih h2 (hpop _ _ _ h1 hp)

/-- The branch that `handle_alternative_block` extends: it ends in the parent,
and it hangs on the main chain. -/
structure Connected (bc : Blockchain) (branch : List AltEntry) (prevId : Hash) : Prop where
  branch_eq : branch = bc.altChain prevId
  inMain : branch = [] → bc.db.blockExists prevId = true
  front : ∀ e ∈ branch.head?, bc.altConnects e.2 = true

/-- `handle_alternative_block` refuses a block without touching anything but
the cache, or extends the connected branch of its parent. -/
theorem altBlockWith_inv (h : handleAlternativeBlockWith handler env now bc b id = some (o, bc')) :
    (bc' = bc.dropCache ∧ o.bvc.addedToMainChain = false ∧ o.rollbacks = []) ∨
    ∃ branch, Connected bc.dropCache branch b.prevId ∧ b.getBlockHeight ≠ 0 ∧
      bc.checkpoints.isAlternativeBlockAllowed bc.db.height b.getBlockHeight = true ∧
      bc.hardfork.checkForHeight b.toBlockHeader b.getBlockHeight = true ∧
      bc.dropCache.extendBranch handler env now branch b id = some (o, bc') := by
  unfold handleAlternativeBlockWith at h
  dsimp only at h
  split at h
  · cases h
    exact .inl ⟨rfl, rfl, rfl⟩
  rename_i h0
  split at h
  · cases h
    exact .inl ⟨rfl, rfl, rfl⟩
  rename_i hcp
  split at h
  · cases h
    exact .inl ⟨rfl, rfl, rfl⟩
  rename_i hver
  have hcp' := Bool.eq_true_of_not_eq_false hcp
  have hver' := Bool.eq_true_of_not_eq_false hver
  split at h
  · rename_i hbr
    split at h
    · rename_i hmain
      exact .inr ⟨[], ⟨hbr.symm, fun _ => hmain, by simp⟩, h0, hcp', hver', h⟩
    · cases h
      exact .inl ⟨rfl, rfl, rfl⟩
  · rename_i front rest hbr
    split at h
    · rename_i hconn
      refine .inr ⟨front :: rest, ⟨hbr.symm, by simp, ?_⟩, h0, hcp', hver', h⟩
      intro e he
      obtain rfl : front = e := by simpa using he
      exact hconn
    · cases h
      exact .inl ⟨rfl, rfl, rfl⟩

/-- The checks of `handle_alternative_block` on a block that extends a branch. -/
structure AltAccepted (env : Env) (bc : Blockchain) (branch : List AltEntry) (b : Block)
    (height : Nat) (currentDiff : Nat) : Prop where
  height_eq : height = bc.parentHeight branch b.prevId + 1
  timestamp : checkTimestamps bc.currentVersion (bc.altTimestamps branch b.prevId)
    b.toBlockHeader = some true
  difficulty_eq : currentDiff = bc.getNextDifficultyForAlternativeChain env branch height
  difficulty_ne : currentDiff ≠ 0
  pow : env.checkProofOfWork b currentDiff height = true
  miner : prevalidateMinerTransaction b height = true

/-- `handle_alternative_block` on a connected branch refuses the block and
changes nothing, or it passes every check and is stored. -/
theorem extendBranch_inv {branch : List AltEntry}
    (h : bc.extendBranch handler env now branch b id = some (o, bc')) :
    (bc' = bc ∧ o.bvc.addedToMainChain = false ∧ o.rollbacks = []) ∨
    ∃ height currentDiff, AltAccepted env bc branch b height currentDiff ∧
      (bc.checkpoints.checkBlock height id).1 = true ∧
      bc.storeAlternative handler env now branch
        ⟨b, height, u64 (bc.parentCumulativeDifficulty branch b.prevId + currentDiff)⟩ id
        (bc.checkpoints.checkBlock height id).2 = some (o, bc') := by
  obtain ⟨ok, hok, h⟩ := Option.bind_eq_some_iff.mp h
  dsimp only at h
  split at h
  · cases h
    exact .inl ⟨rfl, rfl, rfl⟩
  rename_i hts
  split at h
  · cases h
    exact .inl ⟨rfl, rfl, rfl⟩
  rename_i hcp
  split at h
  · cases h
    exact .inl ⟨rfl, rfl, rfl⟩
  rename_i hdiff
  split at h
  · cases h
    exact .inl ⟨rfl, rfl, rfl⟩
  rename_i hpow
  split at h
  · cases h
    exact .inl ⟨rfl, rfl, rfl⟩
  rename_i hminer
  rw [Bool.eq_true_of_not_eq_false hts] at hok
  exact .inr ⟨_, _, ⟨rfl, hok, rfl, hdiff, Bool.eq_true_of_not_eq_false hpow,
    Bool.eq_true_of_not_eq_false hminer⟩, Bool.eq_true_of_not_eq_false hcp, h⟩

/-- Storing an alternative block: refused as known, kept, or switched to. -/
theorem storeAlt_inv {branch : List AltEntry} {bei : BlockExtendedInfo}
    {isACheckpoint : Bool}
    (h : bc.storeAlternative handler env now branch bei id isACheckpoint = some (o, bc')) :
    (id ∈ bc.alternativeChains ∧ bc' = bc ∧ o.bvc.addedToMainChain = false ∧ o.rollbacks = []) ∨
    id ∉ bc.alternativeChains ∧
      ((bc' = { bc with alternativeChains := bc.alternativeChains.insert id bei } ∧
          isACheckpoint = false ∧
          bei.cumulativeDifficulty ≤ topCumulativeDifficulty bc.db ∧
          o.bvc.addedToMainChain = false ∧ o.rollbacks = []) ∨
        ((isACheckpoint = true ∨ topCumulativeDifficulty bc.db < bei.cumulativeDifficulty) ∧
          o.bvc.addedToMainChain = o.ret ∧
          switchToAlternativeBlockchain handler env now
            { bc with alternativeChains := bc.alternativeChains.insert id bei }
            (branch ++ [(id, bei)]) isACheckpoint = some (o.ret, o.rollbacks, bc'))) := by
  unfold storeAlternative at h
  split at h
  · rename_i hmem
    cases h
    exact .inl ⟨hmem, rfl, rfl, rfl⟩
  rename_i hmem
  refine .inr ⟨hmem, ?_⟩
  dsimp only at h
  split at h
  · rename_i hsw
    obtain ⟨⟨r, l, bc1⟩, h1, h⟩ := Option.bind_eq_some_iff.mp h
    cases h
    refine .inr ⟨by simpa using hsw, ?_, h1⟩
    cases r <;> rfl
  · rename_i hsw
    cases h
    rw [Bool.or_eq_true, not_or, decide_eq_true_eq] at hsw
    exact .inl ⟨rfl, Bool.eq_false_of_not_eq_true hsw.1, Nat.le_of_not_lt hsw.2, rfl, rfl⟩

/-- Rolling back does nothing above the chain; else it pops down to the height,
and adds blocks of the original chain until one is refused. -/
theorem rollback_inv {originalChain : List Block} {rollbackHeight : Nat}
    {r : Bool}
    (h : bc.rollbackBlockchainSwitching env now originalChain rollbackHeight = some (r, bc')) :
    (bc.db.height < rollbackHeight ∧ r = true ∧ bc' = bc) ∨
    rollbackHeight ≤ bc.db.height ∧ ∃ bc1 bc2 bc3 rest,
      bc.dropCache.popBlocks env now (bc.db.height - rollbackHeight) = some bc1 ∧
      bc1.reorganizeHardFork rollbackHeight = some bc2 ∧
      bc2.connectBlocks env now originalChain = (rest, bc3) ∧
      ((rest = [] ∧ r = true ∧ bc3.reorganizeHardFork rollbackHeight = some bc') ∨
        (rest ≠ [] ∧ r = false ∧ bc' = bc3)) := by
  unfold rollbackBlockchainSwitching at h
  split at h
  · rename_i hlow
    cases h
    exact .inl ⟨hlow, rfl, rfl⟩
  rename_i hlow
  obtain ⟨bc1, hpop, h⟩ := Option.bind_eq_some_iff.mp h
  obtain ⟨bc2, hreorg, h⟩ := Option.bind_eq_some_iff.mp h
  refine .inr ⟨Nat.le_of_not_lt hlow, bc1, bc2, ?_⟩
  split at h
  · rename_i bc3 hconn
    obtain ⟨bc4, hreorg', h⟩ := Option.bind_eq_some_iff.mp h
    cases h
    exact ⟨bc3, [], hpop, hreorg, hconn, .inl ⟨rfl, rfl, hreorg'⟩⟩
  · rename_i b rest bc3 hconn
    obtain ⟨rfl, rfl⟩ := Prod.mk.inj (Option.some.inj h)
    exact ⟨_, b :: rest, hpop, hreorg, hconn, .inr ⟨by simp, rfl, rfl⟩⟩

/-- A switch gives up at once, or pops down to the parent of the branch and
connects the branch. Either all its blocks are accepted, or one is refused and
the switch is rolled back. -/
theorem switch_inv {branch : List AltEntry} {discard r : Bool}
    {rollbacks : List Bool}
    (h : bc.switchToAlternativeBlockchain handler env now branch discard =
      some (r, rollbacks, bc')) :
    ((∀ e ∈ branch.head?, bc.db.blockExists e.2.bl.prevId = false) ∧
      bc' = bc.dropCache ∧ r = false ∧ rollbacks = []) ∨
    ∃ front rest disconnected bc1 refused bc2, branch = front :: rest ∧
      bc.db.blockExists front.2.bl.prevId = true ∧
      popUntil env now front.2.bl.prevId (bc.db.height + 1) bc.dropCache =
        some (disconnected, bc1) ∧
      bc1.connectBlocks env now (branch.map (·.2.bl)) = (refused, bc2) ∧
      ((refused = [] ∧ r = true ∧ ∃ bc3,
          bc2.keepDisconnected handler env discard disconnected = some (rollbacks, bc3) ∧
          (bc3.eraseAlternatives (branch.map Prod.fst)).reorganizeHardFork bc1.db.height =
            some bc') ∨
        (refused ≠ [] ∧ r = false ∧ ∃ rolledBack bc3,
          bc2.rollbackBlockchainSwitching env now disconnected bc1.db.height =
            some (rolledBack, bc3) ∧ rollbacks = [rolledBack] ∧
          bc' = bc3.markInvalid (branch.drop (branch.length - refused.length)))) := by
  unfold switchToAlternativeBlockchain at h
  dsimp only at h
  split at h
  · cases h
    exact .inl ⟨by simp, rfl, rfl, rfl⟩
  rename_i front rest
  split at h
  · rename_i hmissing
    cases h
    have hmissing' : bc.db.blockExists front.2.bl.prevId = false := hmissing
    exact .inl ⟨by simpa using hmissing', rfl, rfl, rfl⟩
  rename_i hexists
  obtain ⟨⟨disconnected, bc1⟩, hpop, h⟩ := Option.bind_eq_some_iff.mp h
  refine .inr ⟨front, rest, disconnected, bc1, ?_⟩
  have hexists' := Bool.eq_true_of_not_eq_false hexists
  split at h
  · rename_i bc2 hconn
    obtain ⟨⟨l, bc3⟩, hkeep, h⟩ := Option.bind_eq_some_iff.mp h
    obtain ⟨bc4, hreorg, h⟩ := Option.bind_eq_some_iff.mp h
    cases h
    exact ⟨[], bc2, rfl, hexists', hpop, hconn, .inl ⟨rfl, rfl, bc3, hkeep, hreorg⟩⟩
  · rename_i refused bc2 hne hconn
    obtain ⟨⟨rolledBack, bc3⟩, hroll, h⟩ := Option.bind_eq_some_iff.mp h
    cases h
    refine ⟨refused, bc2, rfl, hexists', hpop, hconn, .inr ⟨?_, rfl, rolledBack, bc3, hroll, rfl, rfl⟩⟩
    rintro rfl
    exact hne rfl

end Blockchain

end Lethean
