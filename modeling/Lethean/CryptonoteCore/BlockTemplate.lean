import Lethean.CryptonoteCore.MinerTx

/-!
# Lethean.CryptonoteCore.BlockTemplate

`create_block_template`: the block a node gives its miners to work on. It takes
transactions from the pool until the block is full (`fill_block_template`),
builds the miner transaction for the size it guesses the block to have, and pads
the extra bytes or guesses again until the size is right.

What is not a function of the chain and the pool is collected in `TemplateArgs`:
the clock, the random keys, the size limit kept in a member variable, the order
in which the sorted container is walked and `is_transaction_ready_to_go`, which
reads fields of the pool metadata that are left out here.
-/

namespace Lethean

open Crypto

/-- `HardFork::get_ideal_version()`, the version of the last fork. -/
def HardFork.lastForkVersion (hf : HardFork) : Nat :=
  (hf.heights.entries.getLast?.map (·.version)).getD 0

/-! ### Filling a block from the pool -/

/-- `template_accept_threshold`. The product with `1.0f` rounds the amount to the
24 bits of a `float`, to the nearest and ties to even. -/
def templateAcceptThreshold (amount : Nat) : Nat :=
  if amount < 2 ^ 24 then amount
  else
    let unit := 2 ^ (Nat.log2 amount - 23)
    let q := amount / unit
    let r := amount % unit
    if unit < 2 * r ∨ unit = 2 * r ∧ q % 2 = 1 then (q + 1) * unit else q * unit

def maxTotalSize (medianSize version : Nat) : Nat :=
  if 4 ≤ version then subU64 (u64 (2 * medianSize)) coinbaseBlobReservedSize
  else subU64 (u64 (130 * medianSize) / 100) coinbaseBlobReservedSize

namespace TxPool

/-- `have_key_images`. It returns `false` at an input of another type. -/
def haveKeyImages (kImages : List KeyImage) : List TxIn → Bool
  | .toKey _ _ kImage :: vin => kImage ∈ kImages || haveKeyImages kImages vin
  | _ => false

/-- `append_key_images`. It stops at an input of another type and at an image
that is there already. -/
def appendKeyImages (kImages : List KeyImage) : List TxIn → List KeyImage
  | .toKey _ _ kImage :: vin =>
    if kImage ∈ kImages then kImages else appendKeyImages (kImage :: kImages) vin
  | _ => kImages

/-- The variables of the loop of `fill_block_template`. -/
structure FillState where
  txHashes : List Hash
  totalSize : Nat
  fee : Nat
  bestCoinbase : Nat
  kImages : List KeyImage

/-- What the loop does with a transaction: leave it out, leave it and all that
follow out, or take it, with the coinbase that the block has then. -/
inductive FillChoice
  | skip
  | stop
  | take (coinbase : Nat)

/-- The body of the loop up to the point where the block changes. Before version
4 `coinbase` is never set. -/
def fillChoice (medianSize alreadyGeneratedCoins version : Nat) (ready : Bool) (st : FillState)
    (ptx : PoolTx) : FillChoice :=
  if maxTotalSize medianSize version < u64 (st.totalSize + ptx.blobSize) then .skip
  else if 4 ≤ version then
    match getBlockReward medianSize (u64 (st.totalSize + ptx.blobSize)) alreadyGeneratedCoins
        version with
    | none => .skip
    | some blockReward =>
      if u64 (blockReward + st.fee + ptx.fee) < templateAcceptThreshold st.bestCoinbase then .skip
      else if ready && !haveKeyImages st.kImages ptx.tx.vin then
        .take (u64 (blockReward + st.fee + ptx.fee))
      else .skip
  else if medianSize < st.totalSize then .stop
  else if ready && !haveKeyImages st.kImages ptx.tx.vin then .take 0
  else .skip

def FillState.take (st : FillState) (id : Hash) (ptx : PoolTx) (coinbase : Nat) : FillState :=
  { txHashes := st.txHashes ++ [id]
    totalSize := u64 (st.totalSize + ptx.blobSize)
    fee := u64 (st.fee + ptx.fee)
    bestCoinbase := coinbase
    kImages := appendKeyImages st.kImages ptx.tx.vin }

/-- The loop of `fill_block_template`, over the ids still to come. An id without a
row throws. -/
def fillLoop (pool : TxPool) (readyToGo : Hash → PoolTx → Bool)
    (medianSize alreadyGeneratedCoins version : Nat) : List Hash → FillState → Option FillState
  | [], st => some st
  | id :: walk, st =>
    match pool.table.lookup id with
    | none => none
    | some ptx =>
      match fillChoice medianSize alreadyGeneratedCoins version (readyToGo id ptx) st ptx with
      | .skip => fillLoop pool readyToGo medianSize alreadyGeneratedCoins version walk st
      | .stop => some st
      | .take coinbase =>
        fillLoop pool readyToGo medianSize alreadyGeneratedCoins version walk
          (st.take id ptx coinbase)

/-- `fill_block_template`. The coinbase of an empty block is its reward. -/
def fillBlockTemplate (pool : TxPool) (walk : List Hash) (readyToGo : Hash → PoolTx → Bool)
    (medianSize alreadyGeneratedCoins version : Nat) : Option FillState :=
  pool.fillLoop readyToGo medianSize alreadyGeneratedCoins version walk
    { txHashes := [], totalSize := 0, fee := 0
      bestCoinbase := (getBlockReward medianSize 0 alreadyGeneratedCoins version).getD 0
      kImages := [] }

def blobSizes (pool : TxPool) (ids : List Hash) : Nat :=
  (ids.map fun id => ((pool.table.lookup id).map (·.blobSize)).getD 0).sum

def fees (pool : TxPool) (ids : List Hash) : Nat :=
  (ids.map fun id => ((pool.table.lookup id).map (·.fee)).getD 0).sum

end TxPool

/-! ### The template -/

/-- What a call of `create_block_template` depends on besides the chain and the
pool. -/
structure TemplateArgs where
  /-- `time(NULL)` -/
  now : Nat
  /-- `m_current_block_cumul_sz_limit` -/
  cumulSzLimit : Nat
  /-- The ids of `m_txs_by_fee_and_receive_time`, in its order -/
  walk : List Hash
  /-- `is_transaction_ready_to_go` -/
  readyToGo : Hash → PoolTx → Bool
  /-- The keys of each call of `construct_miner_tx` -/
  keys : Nat → MinerKeys

/-- What `create_block_template` returns. -/
structure BlockTemplate where
  block : Block
  difficulty : Nat
  height : Nat
  expectedReward : Nat

def Transaction.padExtra (tx : Transaction) (delta : Nat) : Transaction :=
  tx.withExtra (tx.extra ++ List.replicate delta 0)

namespace Blockchain

/-- The loop that looks for the size of the block, `n` tries before it gives up.
The size of the extra bytes is a varint, so padding by `delta` bytes can make the
transaction grow by one byte more. -/
def fitLoop (env : Env) (construct : Nat → Nat → Option Transaction) (txsSize : Nat) :
    Nat → Nat → Nat → Option Transaction
  | 0, _, _ => none
  | n + 1, tryCount, cumulativeSize =>
    match construct tryCount cumulativeSize with
    | none => none
    | some tx =>
      let room := subU64 cumulativeSize txsSize
      let delta := room - env.blobSize tx
      if room < env.blobSize tx then
        fitLoop env construct txsSize n (tryCount + 1) (u64 (txsSize + env.blobSize tx))
      else if delta = 0 then
        if cumulativeSize = u64 (txsSize + env.blobSize tx) then some tx else none
      else if cumulativeSize = u64 (txsSize + env.blobSize (tx.padExtra delta)) then
        some (tx.padExtra delta)
      else if u64 (cumulativeSize + 1) ≠ u64 (txsSize + env.blobSize (tx.padExtra delta)) then
        none
      else if cumulativeSize = u64 (txsSize + env.blobSize (tx.padExtra (delta - 1))) then
        some (tx.padExtra (delta - 1))
      else
        fitLoop env construct txsSize n (tryCount + 1) (u64 (cumulativeSize + (delta - 1)))

/-- `update_next_cumulative_size_limit`: the new value of
`m_current_block_cumul_sz_limit`. -/
def updateNextCumulativeSizeLimit (bc : Blockchain) : Nat :=
  if 3 ≤ bc.currentVersion ∧ bc.currentVersion ≤ 8 then
    u64 (20 * 1024 +
      u64 (bc.db.height * (if bc.db.height % 5 = 0 then 35 * 100 * 1024 else 100 * 1024)) /
        (365 * 24 * 60 * 60 / 120))
  else
    u64 (max (median (lastBlocksSizes bc.db.chain)) (getMinBlockSize bc.currentVersion) * 2)

/-- `median_size`. -/
def templateMedian (bc : Blockchain) (cumulSzLimit : Nat) : Nat :=
  let medianSize := max (median (lastBlocksSizes bc.db.chain)) (getMinBlockSize bc.currentVersion)
  if bc.currentVersion < 6 ∧ cumulSzLimit / 2 < medianSize then cumulSzLimit / 2 else medianSize

/-- The timestamps that `check_block_timestamp` looks at. -/
def timestampWindow (bc : Blockchain) : List Nat :=
  (bc.db.chain.rtake (timestampCheckWindow bc.currentVersion)).map (·.timestamp)

def fallbackTimestamp (bc : Blockchain) : Nat :=
  max (median bc.timestampWindow)
    (subU64 ((bc.db.chain.getLast?.map (·.timestamp)).getD 0) blockFutureTimeLimit)

/-- The parent block of a merge-mined template, which has nothing but a tag of depth
0. -/
def templateParent : BytecoinBlock :=
  { BytecoinBlock.null with
    majorVersion := 1
    numberOfTransactions := 1
    minerTx :=
      { Transaction.null with extra := (TxExtraField.mergeMiningTag ⟨0, nullHash⟩).write } }

def templateBase (bc : Blockchain) (timestamp : Nat) : Block :=
  let header : BlockHeader :=
    { majorVersion := bc.currentVersion
      minorVersion := bc.hardfork.lastForkVersion
      timestamp := timestamp
      prevId := bc.db.topBlockHash
      nonce := 0 }
  if isMergeMined header then
    { Block.ofHeader { header with minorVersion := 0 } with parentBlock := templateParent }
  else Block.ofHeader header

def templateTimestamp (bc : Blockchain) (now : Nat) : Nat :=
  if bc.checkBlockTimestamp now (bc.templateBase now).toBlockHeader then now
  else bc.fallbackTimestamp

/-- A call of `construct_miner_tx` for a template with the given fees. -/
def templateConstruct (bc : Blockchain) (args : TemplateArgs) (exNonce : List UInt8)
    (coins fee : Nat) (call size : Nat) : Option Transaction :=
  constructMinerTx bc.db.height (bc.templateMedian args.cumulSzLimit) coins size fee
    (args.keys call) .null exNonce
    (if 4 ≤ bc.currentVersion then 1 else if bc.db.height = 1 then 16 else 11) bc.currentVersion

/-- The miner transaction of a template: one call to learn its size, then the
loop. -/
def templateMinerTx (env : Env) (bc : Blockchain) (args : TemplateArgs) (exNonce : List UInt8)
    (coins : Nat) (filled : TxPool.FillState) : Option Transaction :=
  match bc.templateConstruct args exNonce coins filled.fee 0 filled.totalSize with
  | none => none
  | some tx =>
    fitLoop env (fun tryCount => bc.templateConstruct args exNonce coins filled.fee (tryCount + 1))
      filled.totalSize 10 0 (u64 (filled.totalSize + env.blobSize tx))

/-- `create_block_template` from the choice of the transactions on. Reading the
coins of the top block throws on an empty chain. -/
def fillTemplate (env : Env) (bc : Blockchain) (args : TemplateArgs) (exNonce : List UInt8)
    (difficulty : Nat) : Option BlockTemplate := do
  let coins ← bc.db.getBlockAlreadyGeneratedCoins (bc.db.height - 1)
  let filled ← bc.txPool.fillBlockTemplate args.walk args.readyToGo
    (bc.templateMedian args.cumulSzLimit) coins bc.currentVersion
  let minerTx ← bc.templateMinerTx env args exNonce coins filled
  some
    { block := (bc.templateBase (bc.templateTimestamp args.now)).withTxs minerTx filled.txHashes
      difficulty := difficulty
      height := bc.db.height
      expectedReward := filled.bestCoinbase }

/-- `create_block_template`, for a default-constructed block. It refreshes the
difficulty cache. -/
def createBlockTemplate (env : Env) (bc : Blockchain) (args : TemplateArgs)
    (exNonce : List UInt8) : Option BlockTemplate × Blockchain :=
  let next := bc.getDifficultyForNextBlock env
  (if next.1 = 0 then none else bc.fillTemplate env args exNonce next.1, next.2)

/-! ### What a template is -/

end Blockchain

namespace TxPool

variable {pool : TxPool} {readyToGo : Hash → PoolTx → Bool}
  {medianSize coins version : Nat} {st st' : FillState}

/-- The sums that the loop keeps are those of the transactions it has taken. -/
structure FillState.Sums (pool : TxPool) (st : FillState) : Prop where
  totalSize : st.totalSize = u64 (pool.blobSizes st.txHashes)
  fee : st.fee = u64 (pool.fees st.txHashes)

theorem FillState.Sums.take (h : st.Sums pool) {id : Hash} {ptx : PoolTx}
    (hrow : pool.table.lookup id = some ptx) (coinbase : Nat) :
    (st.take id ptx coinbase).Sums pool where
  totalSize := by
    simp [FillState.take, h.totalSize, blobSizes, hrow, u64, Nat.mod_add_mod]
  fee := by
    simp [FillState.take, h.fee, fees, hrow, u64, Nat.mod_add_mod]

/-- What a step of the loop keeps holds at its end; `P` may speak of the ids still to come. -/
theorem fillLoop_rule {P : List Hash → FillState → Prop}
    (hskip : ∀ {id walk st}, P (id :: walk) st → P walk st) (hstop : ∀ {walk st}, P walk st → P [] st)
    (htake : ∀ {id walk st ptx coinbase}, P (id :: walk) st → pool.table.lookup id = some ptx →
      fillChoice medianSize coins version (readyToGo id ptx) st ptx = .take coinbase →
      P walk (st.take id ptx coinbase)) {walk : List Hash} {st : FillState} (h : P walk st)
    (hloop : pool.fillLoop readyToGo medianSize coins version walk st = some st') : P [] st' := by
  induction walk generalizing st with
  | nil =>
    cases hloop
    exact h
  | cons id walk ih =>
    rw [fillLoop] at hloop
    split at hloop
    · cases hloop
    rename_i ptx hrow
    cases hchoice : fillChoice medianSize coins version (readyToGo id ptx) st ptx with
    | skip => exact ih (hskip h) (by simpa [hchoice] using hloop)
    | stop =>
      simp only [hchoice, Option.some.injEq] at hloop
      exact hloop ▸ hstop h
    | take coinbase => exact ih (htake h hrow hchoice) (by simpa [hchoice] using hloop)

theorem fillBlockTemplate_sums {walk : List Hash}
    (h : pool.fillBlockTemplate walk readyToGo medianSize coins version = some st) :
    st.Sums pool :=
  fillLoop_rule (P := fun _ st => st.Sums pool) id id (fun h hrow _ => h.take hrow _) ⟨rfl, rfl⟩ h

/-! ### What is chosen -/

variable {id : Hash} {ptx : PoolTx} {coinbase : Nat}

theorem fillChoice_take {ready : Bool}
    (h : fillChoice medianSize coins version ready st ptx = .take coinbase) :
    u64 (st.totalSize + ptx.blobSize) ≤ maxTotalSize medianSize version ∧ ready = true ∧
      haveKeyImages st.kImages ptx.tx.vin = false ∧ (4 ≤ version → ∃ reward,
        getBlockReward medianSize (u64 (st.totalSize + ptx.blobSize)) coins version = some reward ∧
          coinbase = u64 (reward + u64 (st.fee + ptx.fee))) := by
  unfold fillChoice at h
  split at h
  · cases h
  rename_i hmax
  refine ⟨Nat.le_of_not_lt hmax, ?_⟩
  split at h
  · split at h
    · cases h
    rename_i reward hreward
    split_ifs at h with _ htake
    cases h
    simp only [Bool.and_eq_true, Bool.not_eq_true'] at htake
    exact ⟨htake.1, htake.2, fun _ => ⟨reward, hreward, by simp [u64, Nat.add_assoc]⟩⟩
  · rename_i hversion
    split_ifs at h with _ htake
    simp only [Bool.and_eq_true, Bool.not_eq_true'] at htake
    exact ⟨htake.1, htake.2, fun hfour => absurd hfour hversion⟩

theorem fillLoop_isSome {walk : List Hash}
    (hrows : ∀ id ∈ walk, ∃ ptx, pool.table.lookup id = some ptx) (st : FillState) :
    (pool.fillLoop readyToGo medianSize coins version walk st).isSome = true := by
  induction walk generalizing st with
  | nil => rfl
  | cons id walk ih =>
    obtain ⟨ptx, hrow⟩ := hrows id (by simp)
    have hrest := ih fun i hi => hrows i (by simp [hi])
    simp only [fillLoop, hrow]
    split
    · exact hrest st
    · rfl
    · exact hrest _

section

variable {kImages : List KeyImage} {vin : List TxIn}
  (htypes : ∀ i ∈ vin, i.keyImage?.isSome = true)
include htypes

theorem haveKeyImages_eq_false_iff :
    haveKeyImages kImages vin = false ↔ ∀ k ∈ vin.filterMap TxIn.keyImage?, k ∉ kImages := by
  induction vin with
  | nil => simp [haveKeyImages]
  | cons i vin ih =>
    cases i with
    | toKey => simp [haveKeyImages, TxIn.keyImage?, ih fun i hi => htypes i (by simp [hi])]
    | _ => simp [TxIn.keyImage?] at htypes

theorem mem_appendKeyImages (hnodup : (vin.filterMap TxIn.keyImage?).Nodup)
    (hnew : ∀ k ∈ vin.filterMap TxIn.keyImage?, k ∉ kImages) (k : KeyImage) :
    k ∈ appendKeyImages kImages vin ↔ k ∈ kImages ∨ k ∈ vin.filterMap TxIn.keyImage? := by
  induction vin generalizing kImages with
  | nil => simp [appendKeyImages]
  | cons i vin ih =>
    cases i with
    | toKey amount offsets kImage =>
      simp only [List.filterMap_cons, TxIn.keyImage?, List.nodup_cons, List.forall_mem_cons] at *
      rw [appendKeyImages, if_neg hnew.1, ih htypes.2 hnodup.2]
      · simp [or_left_comm, or_assoc]
      · intro k hk hmem
        rcases List.mem_cons.mp hmem with rfl | hmem
        · exact hnodup.1 hk
        · exact hnew.2 k hk hmem
    | _ => simp [TxIn.keyImage?] at htypes

end

/-- A walk over the pool: every id comes once and has a row, with inputs that have passed
`check_tx_semantic`. -/
structure Walk (pool : TxPool) (walk : List Hash) : Prop where
  nodup : walk.Nodup
  rows : ∀ id ∈ walk, ∃ ptx, pool.table.lookup id = some ptx ∧
    ptx.tx.checkInputsTypesSupported = true ∧ ptx.tx.keyImages.Nodup

/-- The coinbase that is kept is the reward of a block of the size so far, and the fees. -/
def FillState.RewardKept (medianSize coins version : Nat) (st : FillState) : Prop :=
  ∃ reward, getBlockReward medianSize st.totalSize coins version = some reward ∧
    st.bestCoinbase = u64 (reward + st.fee)

theorem rewardKept_empty (medianSize coins version : Nat) : FillState.RewardKept medianSize coins
    version ⟨[], 0, 0, (getBlockReward medianSize 0 coins version).getD 0, []⟩ := by
  have hempty : getBlockReward medianSize 0 coins version = some (baseRewardOf coins version) := by
    rw [getBlockReward_eq, if_pos (Nat.zero_le _)]
  have hbase := baseRewardOf_le coins version
  refine ⟨_, hempty, ?_⟩
  rw [hempty, Option.getD_some, Nat.add_zero,
    u64_of_lt (by unfold premineReward at hbase; omega)]

/-- A block as it is filled, with the ids still to come. -/
structure Filling (pool : TxPool) (readyToGo : Hash → PoolTx → Bool)
    (medianSize coins version : Nat) (walk left : List Hash) (st : FillState) : Prop where
  sublist : (st.txHashes ++ left).Sublist walk
  ready : ∀ id ∈ st.txHashes, ∃ ptx, pool.table.lookup id = some ptx ∧ readyToGo id ptx = true
  apart : st.txHashes.Pairwise fun id id' => ∀ ptx ptx', pool.table.lookup id = some ptx →
    pool.table.lookup id' = some ptx' → ptx.tx.keyImages.Disjoint ptx'.tx.keyImages
  sums : st.Sums pool
  size_le : st.totalSize ≤ maxTotalSize medianSize version
  reward : 4 ≤ version → st.RewardKept medianSize coins version
  images : ∀ id ∈ st.txHashes, ∀ ptx, pool.table.lookup id = some ptx →
    ∀ k ∈ ptx.tx.keyImages, k ∈ st.kImages

theorem Filling.take {walk left : List Hash} (hwalk : pool.Walk walk)
    (h : Filling pool readyToGo medianSize coins version walk (id :: left) st)
    (hrow : pool.table.lookup id = some ptx)
    (hchoice : fillChoice medianSize coins version (readyToGo id ptx) st ptx = .take coinbase) :
    Filling pool readyToGo medianSize coins version walk left (st.take id ptx coinbase) := by
  obtain ⟨hsize, hready, hhave, hreward⟩ := fillChoice_take hchoice
  obtain ⟨ptx0, hrow0, htypes, hnodup⟩ := hwalk.rows id (h.sublist.subset (by simp))
  cases hrow.symm.trans hrow0
  have htypes := List.all_eq_true.mp htypes
  have hnew := (haveKeyImages_eq_false_iff htypes).mp hhave
  refine ⟨by simpa [FillState.take] using h.sublist, ?_, ?_, h.sums.take hrow coinbase, hsize,
    hreward, ?_⟩
  · simpa [FillState.take, or_imp, forall_and, hrow, hready] using h.ready
  · refine List.pairwise_append.mpr ⟨h.apart, List.pairwise_singleton _ _, ?_⟩
    intro id' hid' _ hid ptx' ptx'' hrow' hrow'' k hk hk'
    cases List.mem_singleton.mp hid
    cases hrow.symm.trans hrow''
    exact hnew k hk' (h.images id' hid' ptx' hrow' k hk)
  · intro id' hid' ptx' hrow' k hk
    refine (mem_appendKeyImages htypes hnodup hnew k).mpr ?_
    rcases List.mem_append.mp hid' with hid' | hid'
    · exact .inl (h.images id' hid' ptx' hrow' k hk)
    · cases List.mem_singleton.mp hid'
      cases hrow.symm.trans hrow'
      exact .inr hk

/-- Every part of the result is right: what is chosen, the sums and the reward. -/
def FilledRight (pool : TxPool) (walk : List Hash) (readyToGo : Hash → PoolTx → Bool)
    (medianSize coins version : Nat) : Prop :=
  ∃ st, pool.fillBlockTemplate walk readyToGo medianSize coins version = some st ∧
    Filling pool readyToGo medianSize coins version walk [] st ∧ st.txHashes.Nodup ∧
    st.RewardKept medianSize coins version

/-- The transaction would be chosen for an empty block: it is ready and not too large. -/
def Eligible (pool : TxPool) (readyToGo : Hash → PoolTx → Bool) (medianSize version : Nat)
    (id : Hash) : Prop :=
  ∃ ptx, pool.table.lookup id = some ptx ∧ readyToGo id ptx = true ∧
    u64 ptx.blobSize ≤ maxTotalSize medianSize version

theorem haveKeyImages_nil (vin : List TxIn) : haveKeyImages [] vin = false := by
  induction vin with
  | nil => rfl
  | cons i vin ih => cases i <;> simp [haveKeyImages, ih]

/-- Before version 4 an empty block takes what is ready and fits, and the coinbase is lost. -/
theorem fillChoice_empty {ready : Bool} (hversion : version < 4) (hsize : st.totalSize = 0)
    (himages : st.kImages = []) : fillChoice medianSize coins version ready st ptx =
      if u64 ptx.blobSize ≤ maxTotalSize medianSize version ∧ ready = true then .take 0
      else .skip := by
  simp only [fillChoice, hsize, himages, haveKeyImages_nil, Nat.zero_add, Nat.not_lt_zero,
    if_neg (not_le.mpr hversion), if_false, Bool.not_false, Bool.and_true]
  by_cases hfits : u64 ptx.blobSize ≤ maxTotalSize medianSize version
  · simp [hfits, not_lt.mpr hfits]
  · simp [hfits, not_le.mp hfits]

/-- Nothing eligible, nothing chosen. -/
theorem fillLoop_none_eligible (hversion : version < 4) (hsize : st.totalSize = 0)
    (himages : st.kImages = []) {walk : List Hash}
    (hnone : ∀ id ∈ walk, ¬ pool.Eligible readyToGo medianSize version id)
    (hloop : pool.fillLoop readyToGo medianSize coins version walk st = some st') : st' = st := by
  induction walk with
  | nil =>
    cases hloop
    rfl
  | cons id walk ih =>
    rw [fillLoop] at hloop
    split at hloop
    · cases hloop
    rename_i ptx hrow
    have hskip : ¬ (u64 ptx.blobSize ≤ maxTotalSize medianSize version ∧
        readyToGo id ptx = true) :=
      fun h => hnone id (by simp) ⟨ptx, hrow, h.2, h.1⟩
    simp only [fillChoice_empty hversion hsize himages, if_neg hskip] at hloop
    exact ih (fun i hi => hnone i (by simp [hi])) hloop

/-- Once something is chosen the coinbase is 0. -/
theorem fillLoop_coinbase_lost (hversion : version < 4) {walk : List Hash}
    (h : st.bestCoinbase = 0 ∨ (st.totalSize = 0 ∧ st.kImages = []) ∧
      ∃ id ∈ walk, pool.Eligible readyToGo medianSize version id)
    (hloop : pool.fillLoop readyToGo medianSize coins version walk st = some st') :
    st'.bestCoinbase = 0 := by
  induction walk generalizing st with
  | nil =>
    cases hloop
    simpa using h
  | cons id walk ih =>
    rw [fillLoop] at hloop
    split at hloop
    · cases hloop
    rename_i ptx hrow
    rcases h with hlost | ⟨⟨hsize, himages⟩, hmem⟩
    · split at hloop
      · exact ih (.inl hlost) hloop
      · cases hloop
        exact hlost
      · rename_i coinbase hchoice
        refine ih (.inl ?_) hloop
        unfold fillChoice at hchoice
        rw [if_neg (not_le.mpr hversion)] at hchoice
        split_ifs at hchoice
        cases hchoice
        rfl
    · rw [fillChoice_empty hversion hsize himages] at hloop
      split_ifs at hloop with htake
      · exact ih (.inl rfl) hloop
      · refine ih (.inr ⟨⟨hsize, himages⟩, ?_⟩) hloop
        -- the eligible transaction is not the one that was skipped
        obtain ⟨id', hid', ptx', hrow', hready, hfits⟩ := hmem
        rcases List.mem_cons.mp hid' with rfl | hid'
        · cases hrow.symm.trans hrow'
          exact absurd ⟨hfits, hready⟩ htake
        · exact ⟨id', hid', ptx', hrow', hready, hfits⟩

/-- Filling succeeds, within the limits. -/
theorem Walk.filling {walk : List Hash} (hwalk : pool.Walk walk) (readyToGo : Hash → PoolTx → Bool)
    (medianSize coins version : Nat) : ∃ st,
      pool.fillBlockTemplate walk readyToGo medianSize coins version = some st ∧
      Filling pool readyToGo medianSize coins version walk [] st ∧ st.txHashes.Nodup := by
  obtain ⟨st, hst⟩ : ∃ st, pool.fillBlockTemplate walk readyToGo medianSize coins version =
      some st :=
    Option.isSome_iff_exists.mp
      (fillLoop_isSome (fun id hid => (hwalk.rows id hid).imp fun _ h => h.1) _)
  have hfilling : Filling pool readyToGo medianSize coins version walk [] st := by
    refine fillLoop_rule (fun h => { h with sublist := .trans ?_ h.sublist })
      (fun h => { h with sublist := .trans ?_ h.sublist }) (fun h => h.take hwalk) ?_ hst
    · simp
    · simp
    · exact ⟨.refl _, by simp, .nil, ⟨rfl, rfl⟩, Nat.zero_le _,
        fun _ => rewardKept_empty medianSize coins version, by simp⟩
  exact ⟨st, hst, hfilling, hwalk.nodup.sublist (by simpa using hfilling.sublist)⟩

/-- **Blocks are filled within the limits, with the right reward**, if the version is 4 or later or
no transaction that is walked is chosen. Otherwise the reward is lost: for medians and fees in
range, that is the exact condition. -/
theorem block_filling_iff {walk : List Hash} (hwalk : pool.Walk walk)
    (readyToGo : Hash → PoolTx → Bool) (medianSize coins version : Nat) :
    ((4 ≤ version ∨ ∀ id ∈ walk, ¬ pool.Eligible readyToGo medianSize version id) →
      FilledRight pool walk readyToGo medianSize coins version) ∧
    (1000 ≤ 2 * medianSize → medianSize < 2 ^ 31 → pool.fees walk < 2 ^ 63 →
      FilledRight pool walk readyToGo medianSize coins version →
        4 ≤ version ∨ ∀ id ∈ walk, ¬ pool.Eligible readyToGo medianSize version id) := by
  constructor
  · intro hcond
    obtain ⟨st, hst, hfilling, hnodup⟩ := hwalk.filling readyToGo medianSize coins version
    refine ⟨st, hst, hfilling, hnodup, ?_⟩
    rcases Nat.lt_or_ge version 4 with hversion | hversion
    · obtain rfl := fillLoop_none_eligible hversion rfl rfl (hcond.resolve_left (by omega)) hst
      exact rewardKept_empty medianSize coins version
    · exact hfilling.reward hversion
  · rintro hmin hmedian hfees ⟨st, hst, hfilling, -, reward, hreward, hbest⟩
    by_contra! hno
    obtain ⟨hversion, heligible⟩ := hno
    have hlost := fillLoop_coinbase_lost hversion (.inr ⟨⟨rfl, rfl⟩, heligible⟩) hst
    have hsize : 100 * st.totalSize ≤ 130 * medianSize := by
      have hle := hfilling.size_le
      rw [maxTotalSize, if_neg (not_le.mpr hversion), u64_of_lt (by omega),
        subU64_of_le (by unfold coinbaseBlobReservedSize; omega) (by omega)] at hle
      omega
    have hzone : max medianSize (getMinBlockSize version) < 2 ^ 32 - 1 := by
      unfold getMinBlockSize
      split_ifs <;> omega
    have hpos := getBlockReward_pos (hzone.trans (by decide)) (hsize.trans (by omega)) hreward
    have hle := getBlockReward_le (fun _ => ⟨hzone, by omega⟩) hreward
    have hpaid : st.fee < 2 ^ 63 := by
      rw [hfilling.sums.fee]
      have hsub : st.txHashes.Sublist walk := by simpa using hfilling.sublist
      exact (Nat.mod_le _ _).trans_lt
        (((hsub.map _).sum_le_sum fun _ _ => Nat.zero_le _).trans_lt hfees)
    rw [hlost, u64_of_lt (by unfold premineReward at hle; omega)] at hbest
    omega

def spendingRow (number : Nat) : PoolTx :=
  ⟨{ Transaction.null with vin := [.toKey 5 [0] (numberedHash 9)], unlockTime := number },
    100 * number, 7, false, true, false, 0⟩

/-- Two transactions that spend one key image. -/
def conflictingPool : TxPool :=
  { TxPool.empty with
    table := (Finmap.singleton (numberedHash 1) (spendingRow 1)).insert (numberedHash 2)
      (spendingRow 2) }

theorem block_filling_iff_conflict :
    FilledRight conflictingPool [numberedHash 1, numberedHash 2] (fun _ _ => true) 1000 0 4 ∧
    ¬ FilledRight conflictingPool [numberedHash 1, numberedHash 2] (fun _ _ => true) 1000 0 3 := by
  have hwalk : conflictingPool.Walk [numberedHash 1, numberedHash 2] := by
    refine ⟨by decide, List.forall_mem_cons.mpr ⟨⟨spendingRow 1, rfl, rfl, by decide⟩, ?_⟩⟩
    exact List.forall_mem_singleton.mpr ⟨spendingRow 2, rfl, rfl, by decide⟩
  refine ⟨(block_filling_iff hwalk _ 1000 0 4).1 (.inl le_rfl), fun h => ?_⟩
  rcases (block_filling_iff hwalk _ 1000 0 3).2 (by decide) (by decide) (by decide) h with h | h
  · exact absurd h (by decide)
  · exact h (numberedHash 1) (by simp) ⟨spendingRow 1, rfl, rfl, by decide⟩

def oneRowPool : TxPool :=
  { TxPool.empty with
    table := Finmap.singleton (numberedHash 1) ⟨.null, 100, 7, false, true, false, 0⟩ }

/-- At version 3 the block with the only transaction of the pool is expected to pay nothing. -/
theorem expected_reward_lost :
    (oneRowPool.fillBlockTemplate [numberedHash 1] (fun _ _ => true) 1000 0 3).map
      (fun st => (st.txHashes, st.totalSize, st.fee, st.bestCoinbase)) =
        some ([numberedHash 1], 100, 7, 0) := by
  decide +kernel

end TxPool

namespace Blockchain

variable {env : Env} {bc : Blockchain} {args : TemplateArgs} {exNonce : List UInt8}
  {t : BlockTemplate}

theorem padExtra_zero (tx : Transaction) : tx.padExtra 0 = tx := by
  simp [Transaction.padExtra, Transaction.withExtra]

/-- The loop ends with a transaction it constructed for the size that the block
has with it, padded or not. -/
theorem fitLoop_spec {construct : Nat → Nat → Option Transaction} {txsSize : Nat}
    {tx : Transaction} (n : Nat) {tryCount cumulativeSize : Nat}
    (h : fitLoop env construct txsSize n tryCount cumulativeSize = some tx) :
    ∃ call tx1 delta, construct call (u64 (txsSize + env.blobSize tx)) = some tx1 ∧
      tx = tx1.padExtra delta := by
  induction n generalizing tryCount cumulativeSize with
  | zero =>
    cases h
  | succ n ih =>
    rw [fitLoop] at h
    split at h
    · cases h
    rename_i tx1 hcons
    generalize subU64 cumulativeSize txsSize = room at h
    dsimp only at h
    -- each way out has compared the size it tried with the size it got
    split at h
    · exact ih h
    split at h
    · by_cases hsize : cumulativeSize = u64 (txsSize + env.blobSize tx1)
      · rw [if_pos hsize] at h
        cases h
        exact ⟨tryCount, tx, 0, hsize ▸ hcons, (padExtra_zero tx).symm⟩
      · rw [if_neg hsize] at h
        cases h
    split at h
    · rename_i hsize
      cases h
      exact ⟨tryCount, tx1, _, hsize ▸ hcons, rfl⟩
    split at h
    · cases h
    split at h
    · rename_i hless
      cases h
      exact ⟨tryCount, tx1, _, hless ▸ hcons, rfl⟩
    · exact ih h

def templateSize (env : Env) (pool : TxPool) (b : Block) : Nat :=
  u64 (pool.blobSizes b.txHashes + env.blobSize b.minerTx)

def templateFee (pool : TxPool) (b : Block) : Nat := u64 (pool.fees b.txHashes)

/-- What `create_block_template` returns: the base with a miner transaction that
`construct_miner_tx` made for the size and the fees of the block. -/
structure IsTemplate (env : Env) (bc : Blockchain) (args : TemplateArgs) (exNonce : List UInt8)
    (b : Block) (key : PublicKey) (delta reward : Nat) : Prop where
  base : b = (bc.templateBase (bc.templateTimestamp args.now)).withTxs b.minerTx b.txHashes
  nonempty : bc.db.chain ≠ []
  extra : ∃ extra, minerExtra key exNonce = some extra ∧
    b.minerTx.extra = extra ++ List.replicate delta 0
  reward_eq : getBlockReward (bc.templateMedian args.cumulSzLimit) (templateSize env bc.txPool b)
    (topCoins bc.db) bc.currentVersion = some reward
  pays : PaysMiner bc.db.height bc.currentVersion
    (claimedReward bc.currentVersion reward (templateFee bc.txPool b)) .null b.minerTx

@[simp] theorem templateBase_timestamp (timestamp : Nat) :
    (bc.templateBase timestamp).timestamp = timestamp := by
  unfold templateBase
  dsimp only
  split <;> rfl

@[simp] theorem templateBase_majorVersion (timestamp : Nat) :
    (bc.templateBase timestamp).majorVersion = bc.currentVersion := by
  unfold templateBase
  dsimp only
  split <;> rfl

@[simp] theorem templateBase_nonce (timestamp : Nat) : (bc.templateBase timestamp).nonce = 0 := by
  unfold templateBase
  dsimp only
  split <;> rfl

theorem templateBase_minorVersion_le (timestamp : Nat) :
    (bc.templateBase timestamp).minorVersion ≤ bc.hardfork.lastForkVersion := by
  unfold templateBase
  dsimp only
  split
  · exact Nat.zero_le _
  · exact le_rfl

theorem templateBase_parentBlock {timestamp : Nat}
    (h : isMergeMined (bc.templateBase timestamp).toBlockHeader = true) :
    (bc.templateBase timestamp).parentBlock = templateParent := by
  unfold templateBase at h ⊢
  dsimp only at h ⊢
  split
  · rfl
  · rename_i hmined
    rw [if_neg hmined] at h
    exact absurd h hmined

theorem IsTemplate.header_eq {b : Block} {key : PublicKey} {delta reward : Nat}
    (h : IsTemplate env bc args exNonce b key delta reward) :
    b.toBlockHeader = (bc.templateBase (bc.templateTimestamp args.now)).toBlockHeader ∧
      b.parentBlock = (bc.templateBase (bc.templateTimestamp args.now)).parentBlock := by
  rw [h.base]
  exact ⟨rfl, rfl⟩

theorem IsTemplate.timestamp {b : Block} {key : PublicKey} {delta reward : Nat}
    (h : IsTemplate env bc args exNonce b key delta reward) :
    b.timestamp = bc.templateTimestamp args.now :=
  (congrArg BlockHeader.timestamp h.header_eq.1).trans (templateBase_timestamp _)

theorem template_spec (h : (bc.createBlockTemplate env args exNonce).1 = some t) :
    ∃ key delta reward, IsTemplate env bc args exNonce t.block key delta reward := by
  unfold createBlockTemplate at h
  dsimp only at h
  split at h
  · cases h
  obtain ⟨coins, hcoins, h⟩ := Option.bind_eq_some_iff.mp h
  obtain ⟨filled, hfilled, h⟩ := Option.bind_eq_some_iff.mp h
  obtain ⟨minerTx, hminerTx, h⟩ := Option.bind_eq_some_iff.mp h
  cases h
  have hsums := TxPool.fillBlockTemplate_sums hfilled
  have hnonempty : bc.db.chain ≠ [] := by
    intro hnil
    simp [BlockchainDb.getBlockAlreadyGeneratedCoins, hnil] at hcoins
  have htop : coins = topCoins bc.db := by
    rw [BlockchainDb.getBlockAlreadyGeneratedCoins, BlockchainDb.height,
      ← List.getLast?_eq_getElem?] at hcoins
    rw [topCoins, hcoins]
    rfl
  unfold templateMinerTx at hminerTx
  split at hminerTx
  · cases hminerTx
  obtain ⟨call, tx1, delta, hconstruct, rfl⟩ := fitLoop_spec 10 hminerTx
  obtain ⟨hextra, reward, hreward, hpays⟩ := constructMinerTx_spec hconstruct
  refine ⟨(args.keys (call + 1)).txPub, delta, reward, rfl, hnonempty,
    ⟨tx1.extra, hextra, rfl⟩, ?_, ?_⟩
  · have hsize : u64 (filled.totalSize + env.blobSize (tx1.padExtra delta)) =
        u64 (bc.txPool.blobSizes filled.txHashes + env.blobSize (tx1.padExtra delta)) := by
      simp [hsums.totalSize, u64]
    rw [← htop, ← hreward, hsize]
    rfl
  · rw [hsums.fee] at hpays
    exact hpays.withExtra _

end Blockchain

end Lethean
