import Lethean.Wallet.Selection

/-!
# Lethean.Wallet.Payments

`create_transactions_2`, which pays a list of destinations with as many transactions
as it takes. Outputs are drawn one by one. Each pays what is left of the first
destination, and the next ones with what remains of it. When all is paid, or the
transaction is large enough, the transaction is made; if its fee is missing, it is
taken from the destination that is paid in part, or more outputs are drawn for it.
A RingCT transaction with a single input gets a second one.

The loop is a state machine: `PayCall.turn` is one turn on a `PayState`.
-/

namespace Lethean

/-! ### What can be spent -/

def cryptonoteMaxBlockNumber : Nat := 500000000

def cryptonoteLockedTxAllowedDeltaBlocks : Nat := 1

def cryptonoteLockedTxAllowedDeltaSecondsV1 : Nat := 120 * cryptonoteLockedTxAllowedDeltaBlocks

def cryptonoteDefaultTxSpendableAge : Nat := 0

/-- `is_tx_spendtime_unlocked`, at a given time. -/
def Wallet2.isTxSpendtimeUnlocked (w : Wallet2) (currentTime unlockTime : Nat) : Bool :=
  if unlockTime < cryptonoteMaxBlockNumber then
    -- the size minus 1 wraps for an empty chain
    unlockTime ≤ u64 (w.blockchain.length + (2 ^ 64 - 1) + cryptonoteLockedTxAllowedDeltaBlocks)
  else unlockTime ≤ u64 (currentTime + cryptonoteLockedTxAllowedDeltaSecondsV1)

def Wallet2.isTransferUnlocked (w : Wallet2) (currentTime : Nat) (td : TransferDetails) : Bool :=
  w.isTxSpendtimeUnlocked currentTime td.tx.unlockTime &&
    td.blockHeight + cryptonoteDefaultTxSpendableAge ≤ w.blockchain.length

def Wallet2.spendable (w : Wallet2) (currentTime : Nat) (td : TransferDetails) : Bool :=
  !td.spent && w.isTransferUnlocked currentTime td

def Wallet2.unlockedBalance (w : Wallet2) (currentTime : Nat) : UInt64 :=
  ((w.transfers.filter (w.spendable currentTime)).map (·.money)).sum

/-- `is_valid_decomposed_amount`: the amounts with a single digit that is not 0. -/
def isValidDecomposedAmount (amount : UInt64) : Bool :=
  (List.range 20).any fun k => (List.range 9).any fun d => amount.toNat = (d + 1) * 10 ^ k

def Wallet2.indicesOf (w : Wallet2) (p : TransferDetails → Bool) : List Nat :=
  (List.range w.transfers.length).filter fun idx => (w.transfers[idx]?).any p

/-- `unused_transfers_indices` before the first turn. -/
def Wallet2.unusedTransfersIndices (w : Wallet2) (currentTime : Nat) (useRct : Bool) : List Nat :=
  w.indicesOf fun td => w.spendable currentTime td && (useRct || !td.rct) &&
    (td.rct || isValidDecomposedAmount td.money)

/-- `unused_dust_indices` before the first turn. -/
def Wallet2.unusedDustIndices (w : Wallet2) (currentTime : Nat) (useRct : Bool) : List Nat :=
  w.indicesOf fun td => w.spendable currentTime td && (useRct || !td.rct) &&
    !(td.rct || isValidDecomposedAmount td.money)

/-! ### Preferred inputs -/

/-- The loop over the pairs of `pick_preferred_rct_inputs`, with the picks so far and
how related they are. -/
def Wallet2.pickPair (w : Wallet2) (suitable : TransferDetails → Bool) (neededMoney : UInt64) :
    List (Nat × Nat) → Nat → List Nat → List Nat
  | [], _, picks => picks
  | (i, j) :: pairs, best, picks =>
    match w.transfers[i]?, w.transfers[j]? with
    | some td, some td2 =>
      let relatedness := getOutputRelatedness td td2
      if suitable td && suitable td2 && neededMoney ≤ td.money + td2.money &&
          relatedness < best then
        if relatedness = 0 then [i, j]
        else w.pickPair suitable neededMoney pairs relatedness [i, j]
      else w.pickPair suitable neededMoney pairs best picks
    | _, _ => w.pickPair suitable neededMoney pairs best picks

/-- `pick_preferred_rct_inputs`: one RingCT output that is enough, or two. -/
def Wallet2.pickPreferredRctInputs (w : Wallet2) (currentTime : Nat) (neededMoney : UInt64) :
    List Nat :=
  let suitable := fun td : TransferDetails => w.spendable currentTime td && td.rct
  match w.indicesOf fun td => suitable td && neededMoney ≤ td.money with
  | i :: _ => [i]
  | [] =>
    let n := w.transfers.length
    w.pickPair suitable neededMoney
      ((List.range n).flatMap fun i => ((List.range n).filter (i < ·)).map (i, ·)) 10 []

def Wallet2.isRctAt (w : Wallet2) (idx : Nat) : Bool := (w.transfers[idx]?).any (·.rct)

def Wallet2.moneyAt (w : Wallet2) (idx : Nat) : UInt64 := ((w.transfers[idx]?).map (·.money)).getD 0

def Wallet2.shouldPickASecondOutput (w : Wallet2) (useRct : Bool) (nTransfers : Nat)
    (unusedTransfers unusedDust : List Nat) : Bool :=
  useRct && nTransfers ≤ 1 && (unusedDust.any w.isRctAt || unusedTransfers.any w.isRctAt)

def Wallet2.getOnlyRct (w : Wallet2) (unusedDust unusedTransfers : List Nat) : List Nat :=
  unusedDust.filter w.isRctAt ++ unusedTransfers.filter w.isRctAt

def Wallet2.getCountAbove (w : Wallet2) (indices : List Nat) (threshold : UInt64) : Nat :=
  (indices.filter fun idx => threshold ≤ w.moneyAt idx).length

/-! ### Settings -/

/-- The settings of the wallet, and what the clock and the daemon say. -/
structure PaySettings where
  /-- `m_merge_destinations` -/
  mergeDestinations : Bool
  /-- `m_min_output_count` -/
  minOutputCount : Nat
  /-- `m_min_output_value` -/
  minOutputValue : UInt64
  /-- `m_default_priority` -/
  defaultPriority : Nat
  /-- `get_fee_algorithm()` -/
  feeAlgorithm : Fin 3
  currentTime : Nat
  /-- `get_num_rct_outputs()` -/
  numRctOutputs : Nat

def feeMultipliers : Fin 3 → List UInt64
  | 0 => [1, 2, 3]
  | 1 => [1, 20, 166]
  | 2 => [1, 4, 20, 166]

/-- `get_fee_multiplier`. The exception for a priority that is too large is never
thrown. -/
def PaySettings.getFeeMultiplier (settings : PaySettings) (priority : Nat) : UInt64 :=
  let priority := if priority = 0 then settings.defaultPriority else priority
  let priority :=
    if priority = 0 then (if settings.feeAlgorithm = 2 then 2 else 1) else priority
  (feeMultipliers settings.feeAlgorithm).getD (priority - 1) 1

def samplePaySettings (mergeDestinations : Bool) : PaySettings where
  mergeDestinations
  minOutputCount := 0
  minOutputValue := 0
  defaultPriority := 1
  feeAlgorithm := 0
  currentTime := 0
  numRctOutputs := 1000

/-! ### Destinations of a transaction -/

def TxDestinationEntry.more (d : TxDestinationEntry) (amount : UInt64) : TxDestinationEntry :=
  ⟨d.amount + amount, d.addr⟩

/-- `TX::add` with destinations merged. -/
def addMerged (paid : List TxDestinationEntry) (addr : AccountPublicAddress) (amount : UInt64) :
    List TxDestinationEntry :=
  match paid.findIdx? (·.addr = addr) with
  | none => paid ++ [⟨amount, addr⟩]
  | some i => paid.modify i (·.more amount)

/-- `TX::add` without merging: the destination has the index that it has in the
request. -/
def addIndexed (paid : List TxDestinationEntry) (addr : AccountPublicAddress) (amount : UInt64)
    (originalOutputIndex : Nat) : Except SpendError (List TxDestinationEntry) :=
  if paid.length < originalOutputIndex then .error .originalOutputIndex
  else
    let paid := if originalOutputIndex = paid.length then paid ++ [⟨0, addr⟩] else paid
    match paid[originalOutputIndex]? with
    | none => .error .undefined
    | some d =>
      if d.addr ≠ addr then .error .mismatchedDestination
      else .ok (paid.modify originalOutputIndex (·.more amount))

/-- `TX::add`. -/
def addDestination (mergeDestinations : Bool) (paid : List TxDestinationEntry)
    (addr : AccountPublicAddress) (amount : UInt64) (originalOutputIndex : Nat) :
    Except SpendError (List TxDestinationEntry) :=
  if mergeDestinations then .ok (addMerged paid addr amount)
  else addIndexed paid addr amount originalOutputIndex

/-- What an input is spent on: what is left to pay, what the transaction pays, and
what is left of the input. -/
structure Paying where
  dsts : List TxDestinationEntry
  paid : List TxDestinationEntry
  availableAmount : UInt64
  originalOutputIndex : Nat

/-- The loop that pays destinations fully, for at most as many as there are. `room`
tells if the transaction may have more than a number of destinations. -/
def payFully (mergeDestinations : Bool) (room : Nat → Bool) :
    Nat → Paying → Except SpendError Paying
  | 0, p => .ok p
  | n + 1, p =>
    match p.dsts with
    | [] => .ok p
    | d :: _ =>
      if d.amount ≤ p.availableAmount && room p.paid.length then do
        let paid ← addDestination mergeDestinations p.paid d.addr d.amount p.originalOutputIndex
        payFully mergeDestinations room n
          { dsts := Draw.swapRemove p.dsts 0
            paid
            availableAmount := p.availableAmount - d.amount
            originalOutputIndex := p.originalOutputIndex + 1 }
      else .ok p

def payPartly (mergeDestinations : Bool) (room : Nat → Bool) (p : Paying) :
    Except SpendError Paying :=
  match p.dsts with
  | [] => .ok p
  | d :: dsts =>
    if 0 < p.availableAmount && room p.paid.length then do
      let paid ←
        addDestination mergeDestinations p.paid d.addr p.availableAmount p.originalOutputIndex
      pure
        { dsts := ⟨d.amount - p.availableAmount, d.addr⟩ :: dsts
          paid
          availableAmount := 0
          originalOutputIndex := p.originalOutputIndex }
    else .ok p

/-! ### The state machine -/

section

variable {ℓ : Nat} {Point : Type} [AddCommGroup Point] [Module (ZMod ℓ) Point]

/-- `TX`. Without a transaction that was made, `ptx` is not set. -/
structure PayTx (ℓ : Nat) (Point : Type) where
  selectedTransfers : List Nat
  dsts : List TxDestinationEntry
  ptx : Option (PendingTx ℓ Point)

/-- A new `TX`. -/
def PayTx.empty : PayTx ℓ Point := ⟨[], [], none⟩

/-- The variables of the loop. `tx` is the last of `txes`. -/
structure PayState (ℓ : Nat) (Point : Type) where
  unusedTransfers : List Nat
  unusedDust : List Nat
  preferredInputs : List Nat
  /-- What is left to pay -/
  dsts : List TxDestinationEntry
  done : List (PendingTx ℓ Point)
  tx : PayTx ℓ Point
  addingFee : Bool
  neededFee : UInt64
  availableForFee : UInt64
  accumulatedFee : UInt64
  originalOutputIndex : Nat
  calls : Nat
  picks : Nat

/-- What does not change during a call. -/
structure PayCall (ℓ : Nat) (Point : Type) where
  env : SpendEnv ℓ Point
  random : SpendRandom ℓ
  w : Wallet2
  settings : PaySettings
  args : SpendArgs
  neededMoney : UInt64

/-- The amount of the first destination. Behind the last one that was paid there is
an amount of 0. -/
def PayState.firstAmount (s : PayState ℓ Point) : UInt64 := ((s.dsts.head?).map (·.amount)).getD 0

namespace PayCall

variable (c : PayCall ℓ Point)

def continues (s : PayState ℓ Point) : Bool :=
  0 < s.firstAmount || s.addingFee ||
    c.w.shouldPickASecondOutput c.args.useRct s.tx.selectedTransfers.length s.unusedTransfers
      s.unusedDust

def notPossible (s : PayState ℓ Point) : SpendError :=
  .txNotPossible (c.w.unlockedBalance c.settings.currentTime) c.neededMoney
    (s.accumulatedFee + s.neededFee)

structure Drawn (ℓ : Nat) (Point : Type) where
  idx : Nat
  rest : PayState ℓ Point

def takeOut (s : PayState ℓ Point) (idx : Nat) : PayState ℓ Point :=
  { s with
    unusedTransfers := Draw.removeIfPresent s.unusedTransfers idx
    unusedDust := Draw.removeIfPresent s.unusedDust idx }

/-- Is the second output not worth it? There have to be enough large outputs left, and
it has to be unrelated to the first one. -/
def notWorthIt (s : PayState ℓ Point) (td first : TransferDetails) : Bool :=
  c.settings.minOutputValue ≤ td.money &&
      c.w.getCountAbove s.unusedTransfers c.settings.minOutputValue < c.settings.minOutputCount ||
    0 < getOutputRelatedness td first

/-- The second output of a RingCT transaction that is made; none ends the loop. -/
def drawSecond (s : PayState ℓ Point) : Except SpendError (Option (Drawn ℓ Point)) := do
  let (idx, _) ← c.w.popBestValue (c.w.getOnlyRct s.unusedDust s.unusedTransfers)
    s.tx.selectedTransfers true (c.random.picks s.picks)
  let tds ← c.w.detailsAt (idx :: s.tx.selectedTransfers.take 1)
  match tds with
  | [td, first] => pure (if c.notWorthIt s td first then none else some ⟨idx, takeOut s idx⟩)
  | _ => .error .undefined

def drawUnused (s : PayState ℓ Point) : Except SpendError (Option (Drawn ℓ Point)) :=
  if s.unusedTransfers = [] then
    (c.w.popBestValue s.unusedDust s.tx.selectedTransfers false (c.random.picks s.picks)).map
      fun r => some ⟨r.1, { s with unusedDust := r.2 }⟩
  else
    (c.w.popBestValue s.unusedTransfers s.tx.selectedTransfers false (c.random.picks s.picks)).map
      fun r => some ⟨r.1, { s with unusedTransfers := r.2 }⟩

def draw (s : PayState ℓ Point) : Except SpendError (Option (Drawn ℓ Point)) :=
  if s.firstAmount = 0 && !s.addingFee then c.drawSecond s
  else
    match s.preferredInputs.getLast? with
    | some idx =>
      .ok (some ⟨idx, takeOut { s with preferredInputs := s.preferredInputs.dropLast } idx⟩)
    | none => c.drawUnused s

def select (d : Drawn ℓ Point) : PayState ℓ Point :=
  { d.rest with
    tx := { d.rest.tx with selectedTransfers := d.rest.tx.selectedTransfers ++ [d.idx] }
    picks := d.rest.picks + 1 }

def estimatedSize (s : PayState ℓ Point) (nOutputs : Nat) : Nat :=
  (estimateTxSize c.args.useRct (.ofNat s.tx.selectedTransfers.length)
    (.ofNat c.args.fakeOutsCount) (.ofNat nOutputs)).toNat

def room (s : PayState ℓ Point) (nOutputs : Nat) : Bool :=
  c.estimatedSize s nOutputs < txSizeTarget c.env.upperTransactionSizeLimit

def payDestinations (s : PayState ℓ Point) (availableAmount : UInt64) :
    Except SpendError (PayState ℓ Point) := do
  let p ← payFully c.settings.mergeDestinations (c.room s) s.dsts.length
    ⟨s.dsts, s.tx.dsts, availableAmount, s.originalOutputIndex⟩
  let p ← payPartly c.settings.mergeDestinations (c.room s) p
  pure
    { s with
      dsts := p.dsts
      tx := { s.tx with dsts := p.paid }
      originalOutputIndex := p.originalOutputIndex }

/-- The input is spent: for the fee, or for destinations. -/
def spend (s : PayState ℓ Point) (idx : Nat) : Except SpendError (PayState ℓ Point) :=
  if s.addingFee then .ok { s with availableForFee := s.availableForFee + c.w.moneyAt idx }
  else c.payDestinations s (c.w.moneyAt idx)

def tryTx (s : PayState ℓ Point) : Bool :=
  if s.addingFee then s.neededFee ≤ s.availableForFee
  else s.dsts = [] || !c.room s s.tx.dsts.length

/-- The fee that is missing is taken from the destination that is paid in part, if it
is large enough. -/
def carveFee (s : PayState ℓ Point) : Except SpendError (PayState ℓ Point) :=
  match s.dsts with
  | [] => .ok s
  | d :: dsts =>
    if s.availableForFee < s.neededFee && 0 < d.amount then
      match s.tx.dsts.findIdx? (·.addr = d.addr) with
      | none => .error .paidAddressNotFound
      | some i =>
        let paid := ((s.tx.dsts[i]?).map (·.amount)).getD 0
        let newPaidAmount := paid - s.neededFee
        if s.neededFee < paid then
          .ok
            { s with
              dsts := ⟨d.amount + (paid - newPaidAmount), d.addr⟩ :: dsts
              tx := { s.tx with dsts := s.tx.dsts.modify i fun e => ⟨newPaidAmount, e.addr⟩ }
              availableForFee := s.neededFee }
        else .ok s
    else .ok s

/-- The transaction is made with its fee, and another one is started if there is more
to pay. -/
def save (s : PayState ℓ Point) (outs : List (List GetOutsEntry)) :
    Except SpendError (PayState ℓ Point) := do
  let (ptx, calls) ← c.env.adjust c.random c.w c.args (fun _ => s.tx.dsts) s.tx.selectedTransfers
    (2 ^ 64) s.neededFee outs s.calls
  let s : PayState ℓ Point :=
    { s with
      calls
      neededFee := c.env.requiredFee c.args ptx
      accumulatedFee := s.accumulatedFee + ptx.fee
      addingFee := false }
  pure
    (if s.dsts = [] then { s with tx := { s.tx with ptx := some ptx } }
    else { s with done := s.done ++ [ptx], tx := PayTx.empty })

/-- What the attempt without a fee tells: the fee that is needed, and what there is
for it. -/
def measured (s : PayState ℓ Point) (test : PendingTx ℓ Point) : PayState ℓ Point :=
  { s with
    calls := s.calls + 1
    neededFee := c.env.requiredFee c.args test
    availableForFee :=
      test.fee + test.changeDts.amount + if test.dustAddedToFee then 0 else test.dust }

/-- The transaction is tried without a fee. If the fee is missing, more is drawn for
it. -/
def make (s : PayState ℓ Point) : Except SpendError (PayState ℓ Point) := do
  let (test, outs) ← c.env.attempt c.args.useRct (c.random.calls s.calls) c.w
    (c.args.transfer s.tx.dsts s.tx.selectedTransfers 0) []
  let s ← carveFee (c.measured s test)
  if s.availableForFee < s.neededFee then pure { s with addingFee := true } else c.save s outs

/-- The rest of a turn, after the draw. -/
def spendDrawn (d : Drawn ℓ Point) : Except SpendError (PayState ℓ Point) := do
  let s ← c.spend (select d) d.idx
  if c.tryTx s then c.make s else pure s

/-- One turn of the loop; none ends it. -/
def turn (s : PayState ℓ Point) : Except SpendError (Option (PayState ℓ Point)) :=
  if s.unusedTransfers = [] ∧ s.unusedDust = [] then .error (c.notPossible s)
  else
    match c.draw s with
    | .error e => .error e
    | .ok none => .ok none
    | .ok (some d) => (c.spendDrawn d).map some

def loop : Nat → PayState ℓ Point → Except SpendError (PayState ℓ Point)
  | fuel, s =>
    if !c.continues s then .ok s
    else
      match fuel with
      | 0 => .error .outOfFuel
      | fuel + 1 =>
        match c.turn s with
        | .error e => .error e
        | .ok none => .ok s
        | .ok (some s) => loop fuel s

def collect (s : PayState ℓ Point) : Except SpendError (List (PendingTx ℓ Point)) :=
  if s.addingFee then .error (c.notPossible s)
  else
    match s.tx.ptx with
    | none => .error .undefined
    | some ptx => .ok (s.done ++ [ptx])

def preferredInputs : List Nat :=
  if c.args.useRct && 2 * (c.args.fakeOutsCount + 1) + 100 ≤ c.settings.numRctOutputs then
    let estimatedFee := calculateFee c.args.feePerKb
      (estimateRctTxSize 2 (.ofNat (c.args.fakeOutsCount + 1)) 2).toNat c.args.feeMultiplier
    c.w.pickPreferredRctInputs c.settings.currentTime (c.neededMoney + estimatedFee)
  else []

def start (dsts : List TxDestinationEntry) : PayState ℓ Point where
  unusedTransfers := c.w.unusedTransfersIndices c.settings.currentTime c.args.useRct
  unusedDust := c.w.unusedDustIndices c.settings.currentTime c.args.useRct
  preferredInputs := c.preferredInputs
  dsts
  done := []
  tx := PayTx.empty
  addingFee := false
  neededFee := 0
  availableForFee := 0
  accumulatedFee := 0
  originalOutputIndex := 0
  calls := 0
  picks := 0

/-- An upper bound for the number of turns. -/
def turns (s : PayState ℓ Point) : Nat :=
  s.unusedTransfers.length + s.unusedDust.length + s.preferredInputs.length + 1

def run (dsts : List TxDestinationEntry) : Except SpendError (List (PendingTx ℓ Point)) := do
  let s ← c.loop (turns (c.start dsts)) (c.start dsts)
  c.collect s

end PayCall

def payArgs (settings : PaySettings) (args : SpendArgs) (priority : Nat) : SpendArgs :=
  { args with feeMultiplier := settings.getFeeMultiplier priority }

/-- `needed_money`, and the checks on it. -/
def requestedMoney (w : Wallet2) (settings : PaySettings) (dsts : List TxDestinationEntry) :
    Except SpendError UInt64 := do
  if dsts = [] then
    throw .zeroDestination
  let neededMoney ← neededMoney 0 dsts
  if neededMoney = 0 then
    throw .zeroDestination
  if w.unlockedBalance settings.currentTime < neededMoney then
    throw (.notEnoughMoney (w.unlockedBalance settings.currentTime) neededMoney 0)
  pure neededMoney

def SpendEnv.createTransactions2 (env : SpendEnv ℓ Point) (random : SpendRandom ℓ) (w : Wallet2)
    (settings : PaySettings) (args : SpendArgs) (priority : Nat) (dsts : List TxDestinationEntry) :
    Except SpendError (List (PendingTx ℓ Point)) := do
  let neededMoney ← requestedMoney w settings dsts
  let c : PayCall ℓ Point :=
    ⟨env, random, w, settings, payArgs settings args priority, neededMoney⟩
  if (c.start dsts).unusedTransfers = [] ∧ (c.start dsts).unusedDust = [] then
    pure []
  else c.run dsts

end

end Lethean
