import Lethean.CryptonoteCore.MinerTx
import Lethean.Wallet.Wallet2

/-!
# Lethean.Wallet.Transfer

`transfer_selected` and `transfer_selected_rct`: a pending transaction from
transfers that are already chosen. The difference between what the transfers have
and what is needed goes back to the wallet as change; in a transaction of version 1
the digits of the change that are dust go to the fee.

What a call asks the daemon for and what it draws at random is a `CallRandom`.
Amounts are `uint64_t` and sums wrap, as in the source.
-/

namespace Lethean

/-! ### Data -/

/-- `get_outs_entry`: a ring member. -/
structure GetOutsEntry where
  globalOutputIndex : Nat
  key : PublicKey
  mask : RctKey

/-- What is random in one call, and what the daemon answers. -/
structure CallRandom (ℓ : Nat) where
  /-- `get_outs`; `none` if it throws -/
  getOuts : List Nat → Nat → Option (List (List GetOutsEntry))
  /-- The address that zero change is sent to -/
  dummyAddress : AccountPublicAddress
  tx : (n : Nat) → TxRandom ℓ n

/-- A wallet that can spend: its keys, and the answers of the daemon that do not
change during a call. -/
structure SpendEnv (ℓ : Nat) (Point : Type) where
  crypto : TxCrypto ℓ Point
  /-- `m_account.get_keys()` -/
  keys : AccountKeys ℓ
  maskScalar : RctKey → ZMod ℓ
  /-- `get_object_blobsize`, and the size of `t_serializable_object_to_blob` -/
  blobSize : BuiltTx ℓ Point → Nat
  /-- `get_upper_transaction_size_limit()` -/
  upperTransactionSizeLimit : Nat

/-- The exceptions of the functions that make transactions. Those with a text are a
`wallet_internal_error`. -/
inductive SpendError
  | zeroDestination
  | txSumOverflow
  | notEnoughMoney (available txAmount fee : UInt64)
  /-- An exception of `get_outs` -/
  | getOuts
  | realOutputNotFound
  /-- "invalid dust value: dust = ..., dust_threshold = ..." -/
  | invalidDust (dust dustThreshold : UInt64)
  | txNotConstructed
  | txTooBig
  | unexpectedTxinType
  | txNotPossible (available txAmount fee : UInt64)
  /-- "Transaction cannot pay for itself" -/
  | cannotPayForItself
  /-- "original_output_index too large" -/
  | originalOutputIndex
  /-- "Mismatched destination address" -/
  | mismatchedDestination
  /-- "paid address not found in outputs" -/
  | paidAddressNotFound
  /-- An index out of range, or a failed `boost::get` -/
  | undefined
  /-- A loop that does not end: it is shown that this is never thrown. -/
  | outOfFuel
  deriving DecidableEq

structure TxConstructionData (ℓ : Nat) where
  sources : List (TxSourceEntry ℓ)
  changeDts : TxDestinationEntry
  splittedDsts : List TxDestinationEntry
  selectedTransfers : List Nat
  extra : List UInt8
  unlockTime : Nat
  useRct : Bool
  dests : List TxDestinationEntry

structure PendingTx (ℓ : Nat) (Point : Type) where
  tx : BuiltTx ℓ Point
  dust : UInt64
  fee : UInt64
  dustAddedToFee : Bool
  changeDts : TxDestinationEntry
  selectedTransfers : List Nat
  keyImages : List KeyImage
  txKey : ZMod ℓ
  dests : List TxDestinationEntry
  constructionData : TxConstructionData ℓ

structure TxDustPolicy where
  dustThreshold : UInt64
  addToFee : Bool
  addrForDust : AccountPublicAddress

def AccountPublicAddress.null : AccountPublicAddress := ⟨nullBlob 32, nullBlob 32, false⟩

/-- `tx_dust_policy(::config::DEFAULT_DUST_THRESHOLD)`. -/
def TxDustPolicy.default : TxDustPolicy :=
  ⟨UInt64.ofNat defaultDustThreshold, true, AccountPublicAddress.null⟩

def amountSum (dsts : List TxDestinationEntry) : Nat := (dsts.map (·.amount.toNat)).sum

/-! ### Sums -/

def neededMoney : UInt64 → List TxDestinationEntry → Except SpendError UInt64
  | needed, [] => .ok needed
  | needed, dt :: dsts =>
    if dt.amount = 0 then .error .zeroDestination
    else if needed + dt.amount < dt.amount then .error .txSumOverflow
    else neededMoney (needed + dt.amount) dsts

def Wallet2.detailsAt (w : Wallet2) : List Nat → Except SpendError (List TransferDetails)
  | [] => .ok []
  | idx :: selected =>
    match w.transfers[idx]? with
    | none => .error .undefined
    | some td => (w.detailsAt selected).map (td :: ·)

def TransferDetails.money (td : TransferDetails) : UInt64 := UInt64.ofNat td.amount

/-- The sum of the transfers at the given indices, as the source adds them up. -/
def Wallet2.foundMoney (w : Wallet2) (selected : List Nat) : UInt64 :=
  (selected.map fun idx => ((w.transfers[idx]?).map (·.money)).getD 0).sum

/-- What the transfers at the given indices have, which need not fit into a word. -/
def Wallet2.inputTotal (w : Wallet2) (selected : List Nat) : Nat :=
  (selected.map fun idx => UInt64.toNat (((w.transfers[idx]?).map (·.money)).getD 0)).sum

/-! ### Sources -/

section

variable {ℓ : Nat} {Point : Type} [AddCommGroup Point] [Module (ZMod ℓ) Point]

/-- One round of the loop that prepares the inputs: the ring of the daemon, with the
real output in its place. -/
def SpendEnv.prepareSource (env : SpendEnv ℓ Point) (fakeOutputsCount : Nat) (useRct : Bool)
    (td : TransferDetails) (outs : List GetOutsEntry) : Except SpendError (TxSourceEntry ℓ) :=
  if outs.length < fakeOutputsCount + 1 then .error .undefined
  else
    let outputs : List (Nat × Ringct.CtKey PublicKey) :=
      (outs.take (fakeOutputsCount + 1)).map fun out => (out.globalOutputIndex, ⟨out.key, out.mask⟩)
    match outputs.findIdx? (·.1 = td.globalOutputIndex) with
    | none => .error .realOutputNotFound
    | some realOutput =>
      match td.getPublicKey with
      | none => .error .undefined
      | some key =>
        let mask := env.crypto.ofPoint (env.crypto.genC (env.maskScalar td.mask) td.money)
        .ok
          { outputs := outputs.set realOutput (td.globalOutputIndex, ⟨key, mask⟩)
            realOutput := realOutput
            realOutTxKey := (txPubKeys td.tx.extra).getD td.pkIndex (nullBlob 32)
            realOutputInTxIndex := td.internalOutputIndex
            amount := td.money
            rct := td.rct
            -- without RingCT it is not set
            mask := if useRct then env.maskScalar td.mask else 0 }

def SpendEnv.prepareSources (env : SpendEnv ℓ Point) (fakeOutputsCount : Nat) (useRct : Bool) :
    List TransferDetails → List (List GetOutsEntry) → Except SpendError (List (TxSourceEntry ℓ))
  | [], _ => .ok []
  | _ :: _, [] => .error .undefined
  | td :: tds, row :: outs => do
    let src ← env.prepareSource fakeOutputsCount useRct td row
    let sources ← prepareSources env fakeOutputsCount useRct tds outs
    pure (src :: sources)

/-! ### Transfers -/

structure TransferArgs where
  dsts : List TxDestinationEntry
  selectedTransfers : List Nat
  fakeOutputsCount : Nat
  unlockTime : Nat
  fee : UInt64
  extra : List UInt8

/-- What both functions compute first: the money that is needed and found, the ring
members and the sources. -/
structure Prepared (ℓ : Nat) where
  neededMoney : UInt64
  foundMoney : UInt64
  outs : List (List GetOutsEntry)
  sources : List (TxSourceEntry ℓ)

/-- The ring members: those of an earlier attempt, or new ones. -/
def ringMembers (call : CallRandom ℓ) (args : TransferArgs) (outs : List (List GetOutsEntry)) :
    Except SpendError (List (List GetOutsEntry)) :=
  if outs = [] then
    match call.getOuts args.selectedTransfers args.fakeOutputsCount with
    | none => .error .getOuts
    | some outs => .ok outs
  else .ok outs

@[inherit_doc Prepared]
def SpendEnv.prepare (env : SpendEnv ℓ Point) (call : CallRandom ℓ) (w : Wallet2) (useRct : Bool)
    (args : TransferArgs) (outs : List (List GetOutsEntry)) : Except SpendError (Prepared ℓ) := do
  if args.dsts = [] then
    throw .zeroDestination
  let needed ← neededMoney args.fee args.dsts
  let tds ← w.detailsAt args.selectedTransfers
  let found := (tds.map (·.money)).sum
  if found < needed then
    throw (.notEnoughMoney found (needed - args.fee) args.fee)
  let outs ← ringMembers call args outs
  let sources ← env.prepareSources args.fakeOutputsCount useRct tds outs
  pure ⟨needed, found, outs, sources⟩

/-- The key images of the inputs, if all of them are `txin_to_key`. -/
def keyImagesOf : List TxIn → Except SpendError (List KeyImage)
  | [] => .ok []
  | .toKey _ _ kImage :: vin => (keyImagesOf vin).map (kImage :: ·)
  | _ => .error .unexpectedTxinType

/-- What both functions do last: the transaction, and the key images of its
inputs. -/
def SpendEnv.construct (env : SpendEnv ℓ Point) (call : CallRandom ℓ) (args : TransferArgs)
    (sources : List (TxSourceEntry ℓ)) (splittedDsts : List TxDestinationEntry) (useRct : Bool) :
    Except SpendError (BuiltTx ℓ Point × List KeyImage) :=
  match env.crypto.constructTxAndGetTxKey env.keys sources splittedDsts args.extra args.unlockTime
      useRct (call.tx splittedDsts.length) with
  | .error _ => .error .txNotConstructed
  | .ok tx =>
    if env.upperTransactionSizeLimit ≤ env.blobSize tx then .error .txTooBig
    else (keyImagesOf tx.tx.vin).map fun keyImages => (tx, keyImages)

/-- `construction_data`, whose extra bytes are those of the transaction. -/
def constructionDataOf (args : TransferArgs) (sources : List (TxSourceEntry ℓ))
    (changeDts : TxDestinationEntry) (splittedDsts : List TxDestinationEntry)
    (tx : BuiltTx ℓ Point) (useRct : Bool) : TxConstructionData ℓ :=
  { sources, changeDts, splittedDsts
    selectedTransfers := args.selectedTransfers
    extra := tx.tx.extra
    unlockTime := args.unlockTime
    useRct
    dests := args.dsts }

/-- The change of `transfer_selected_rct`. Zero change goes to an address of no one. -/
def rctChange (keys : AccountKeys ℓ) (call : CallRandom ℓ) (amount : UInt64) :
    TxDestinationEntry :=
  ⟨amount, if amount = 0 then call.dummyAddress else keys.accountAddress⟩

/-- `transfer_selected_rct`: the pending transaction, and the ring members. -/
def SpendEnv.transferSelectedRct (env : SpendEnv ℓ Point) (call : CallRandom ℓ) (w : Wallet2)
    (args : TransferArgs) (outs : List (List GetOutsEntry)) :
    Except SpendError (PendingTx ℓ Point × List (List GetOutsEntry)) := do
  let p ← env.prepare call w true args outs
  let changeDts := rctChange env.keys call (p.foundMoney - p.neededMoney)
  let splittedDsts := args.dsts ++ [changeDts]
  let (tx, keyImages) ← env.construct call args p.sources splittedDsts true
  let ptx : PendingTx ℓ Point :=
    { tx, keyImages, changeDts
      dust := 0
      fee := args.fee
      dustAddedToFee := false
      selectedTransfers := args.selectedTransfers
      txKey := (call.tx splittedDsts.length).txKey
      dests := args.dsts
      constructionData := constructionDataOf args p.sources changeDts splittedDsts tx true }
  pure (ptx, p.outs)

/-- The digits of an amount for an address. With a threshold of 0 no part is dust. -/
def digitDsts (dt : TxDestinationEntry) : List TxDestinationEntry :=
  (decomposeAmountIntoDigits dt.amount.toNat 0).map fun chunk => ⟨UInt64.ofNat chunk, dt.addr⟩

/-- `digit_split_strategy`: the destinations, and the dust of the change. -/
def digitSplitStrategy (dsts : List TxDestinationEntry) (changeDst : TxDestinationEntry)
    (dustThreshold : UInt64) : List TxDestinationEntry × List TxDestinationEntry :=
  (dsts.flatMap digitDsts ++ (digitDsts changeDst).filter (dustThreshold < ·.amount),
    (digitDsts changeDst).filter (·.amount ≤ dustThreshold))

/-- The change of `transfer_selected`. -/
def plainChange (keys : AccountKeys ℓ) (p : Prepared ℓ) : TxDestinationEntry :=
  if p.neededMoney < p.foundMoney then ⟨p.foundMoney - p.neededMoney, keys.accountAddress⟩
  else ⟨0, AccountPublicAddress.null⟩

def dustSentElsewhere (policy : TxDustPolicy) (changeDts : TxDestinationEntry) : Bool :=
  policy.addrForDust.viewPublicKey ≠ changeDts.addr.viewPublicKey ||
    policy.addrForDust.spendPublicKey ≠ changeDts.addr.spendPublicKey

def checkDust (policy : TxDustPolicy) (dustDsts : List TxDestinationEntry) :
    Except SpendError Unit :=
  match dustDsts.find? (policy.dustThreshold < ·.amount) with
  | some d => .error (.invalidDust d.amount policy.dustThreshold)
  | none => .ok ()

/-- The destinations of the transaction: dust that is not added to the fee has an
address of its own. -/
def withDust (policy : TxDustPolicy) (splittedDsts dustDsts : List TxDestinationEntry) :
    List TxDestinationEntry :=
  if policy.addToFee then splittedDsts
  else splittedDsts ++ dustDsts.map fun d => ⟨d.amount, policy.addrForDust⟩

/-- `transfer_selected` with `digit_split_strategy`. -/
def SpendEnv.transferSelected (env : SpendEnv ℓ Point) (call : CallRandom ℓ) (w : Wallet2)
    (args : TransferArgs) (outs : List (List GetOutsEntry)) (policy : TxDustPolicy) :
    Except SpendError (PendingTx ℓ Point × List (List GetOutsEntry)) := do
  let p ← env.prepare call w false args outs
  let change := plainChange env.keys p
  let split := digitSplitStrategy args.dsts change policy.dustThreshold
  checkDust policy split.2
  let splittedDsts := withDust policy split.1 split.2
  let dust := (split.2.map (·.amount)).sum
  let (tx, keyImages) ← env.construct call args p.sources splittedDsts false
  let taken := policy.addToFee || dustSentElsewhere policy change
  let changeDts : TxDestinationEntry :=
    ⟨if taken then change.amount - dust else change.amount, change.addr⟩
  let ptx : PendingTx ℓ Point :=
    { tx, keyImages, changeDts
      dust := if taken then dust else 0
      fee := if policy.addToFee then args.fee + dust else args.fee
      dustAddedToFee := policy.addToFee
      selectedTransfers := args.selectedTransfers
      txKey := (call.tx splittedDsts.length).txKey
      dests := args.dsts
      constructionData := constructionDataOf args p.sources changeDts splittedDsts tx false }
  pure (ptx, p.outs)

end

/-! ### What a sum is -/

theorem toNat_sum_of_lt {l : List UInt64} (h : (l.map (·.toNat)).sum < 2 ^ 64) :
    l.sum.toNat = (l.map (·.toNat)).sum := by
  induction l with
  | nil => rfl
  | cons a l ih =>
    rw [List.map_cons, List.sum_cons] at h ⊢
    rw [List.sum_cons, UInt64.toNat_add, ih (by omega), Nat.mod_eq_of_lt h]

theorem Wallet2.toNat_foundMoney (w : Wallet2) (selected : List Nat) :
    (w.foundMoney selected).toNat = w.inputTotal selected % 2 ^ 64 := by
  induction selected with
  | nil => rfl
  | cons idx selected ih =>
    rw [Wallet2.foundMoney, List.map_cons, List.sum_cons, UInt64.toNat_add]
    rw [Wallet2.foundMoney] at ih
    rw [ih, Wallet2.inputTotal, Wallet2.inputTotal, List.map_cons, List.sum_cons, Nat.add_mod_mod]

theorem amountSum_append (dsts dsts' : List TxDestinationEntry) :
    amountSum (dsts ++ dsts') = amountSum dsts + amountSum dsts' := by
  simp [amountSum]

theorem toNat_sum_amounts (dsts : List TxDestinationEntry) (h : amountSum dsts < 2 ^ 64) :
    UInt64.toNat (dsts.map (·.amount)).sum = amountSum dsts := by
  rw [amountSum] at h ⊢
  rw [toNat_sum_of_lt (by rwa [List.map_map]), List.map_map]
  rfl

/-- The sum of the destinations is checked for an overflow at every step. -/
theorem neededMoney_ok {fee needed : UInt64} {dsts : List TxDestinationEntry}
    (h : neededMoney fee dsts = .ok needed) :
    needed.toNat = fee.toNat + amountSum dsts ∧ ∀ d ∈ dsts, d.amount ≠ 0 := by
  induction dsts generalizing fee with
  | nil =>
    cases h
    simp [amountSum]
  | cons dt dsts ih =>
    rw [neededMoney] at h
    split at h
    · cases h
    rename_i hzero
    split at h
    · cases h
    rename_i hwrap
    obtain ⟨hsum, hpos⟩ := ih h
    have hadd : (fee + dt.amount).toNat = fee.toNat + dt.amount.toNat := by
      rw [UInt64.lt_iff_toNat_lt, UInt64.toNat_add] at hwrap
      rw [UInt64.toNat_add]
      have := fee.toNat_lt
      have := dt.amount.toNat_lt
      omega
    refine ⟨?_, List.forall_mem_cons.mpr ⟨hzero, hpos⟩⟩
    rw [hsum, hadd, amountSum, amountSum, List.map_cons, List.sum_cons]
    omega

theorem Wallet2.detailsAt_ok {w : Wallet2} {selected : List Nat} {tds : List TransferDetails}
    (h : w.detailsAt selected = .ok tds) :
    (tds.map (·.money)).sum = w.foundMoney selected := by
  induction selected generalizing tds with
  | nil =>
    cases h
    rfl
  | cons idx selected ih =>
    rw [Wallet2.detailsAt] at h
    split at h
    · cases h
    rename_i td htd
    obtain ⟨rest, hrest, rfl⟩ := Ringct.map_eq_ok.mp h
    rw [List.map_cons, List.sum_cons, ih hrest]
    simp [Wallet2.foundMoney, htd]

/-! ### The digits of an amount -/

theorem amountSum_digitDsts (dt : TxDestinationEntry) :
    amountSum (digitDsts dt) = dt.amount.toNat := by
  have hsum := sum_digits 0 dt.amount.toNat_lt
  have hlt : ∀ chunk ∈ decomposeAmountIntoDigits dt.amount.toNat 0, chunk < 2 ^ 64 := by
    intro chunk hchunk
    have := List.le_sum_of_mem hchunk
    have := dt.amount.toNat_lt
    omega
  rw [amountSum, digitDsts, List.map_map]
  conv => rhs; rw [← hsum]
  refine congrArg List.sum ((List.map_congr_left fun chunk hchunk => ?_).trans (List.map_id _))
  exact UInt64.toNat_ofNat_of_lt' (hlt chunk hchunk)

/-! ### What a pending transaction is made of -/

theorem SpendError.check_eq_ok {α : Type} {p : Prop} [Decidable p] {e : SpendError}
    {x : Except SpendError α} {a : α} :
    (if p then .error e else x) = .ok a ↔ ¬ p ∧ x = .ok a := by
  by_cases hp : p
  · simp [hp]
  · simp [hp]

section

variable {ℓ : Nat} {Point : Type} [AddCommGroup Point] [Module (ZMod ℓ) Point]
  {env : SpendEnv ℓ Point} {call : CallRandom ℓ} {w : Wallet2} {useRct : Bool}
  {args : TransferArgs} {outs : List (List GetOutsEntry)}

variable {sources : List (TxSourceEntry ℓ)} {ptx : PendingTx ℓ Point}
  {outs' : List (List GetOutsEntry)}

/-- What is known once the inputs are prepared. -/
structure Prepared.Of (w : Wallet2) (args : TransferArgs) (p : Prepared ℓ) : Prop where
  needed_eq : p.neededMoney.toNat = args.fee.toNat + amountSum args.dsts
  found_eq : p.foundMoney = w.foundMoney args.selectedTransfers
  needed_le : p.neededMoney.toNat ≤ p.foundMoney.toNat

theorem prepare_ok {p : Prepared ℓ} (h : env.prepare call w useRct args outs = .ok p) :
    p.Of w args := by
  unfold SpendEnv.prepare at h
  obtain ⟨-, h⟩ := SpendError.check_eq_ok.mp h
  obtain ⟨-, -, h⟩ := Ringct.bind_eq_ok.mp h
  obtain ⟨needed, hneeded, h⟩ := Ringct.bind_eq_ok.mp h
  obtain ⟨tds, htds, h⟩ := Ringct.bind_eq_ok.mp h
  obtain ⟨hlt, h⟩ := SpendError.check_eq_ok.mp h
  obtain ⟨-, -, h⟩ := Ringct.bind_eq_ok.mp h
  obtain ⟨rows, -, h⟩ := Ringct.bind_eq_ok.mp h
  obtain ⟨sources, -, h⟩ := Ringct.bind_eq_ok.mp h
  cases h
  exact
    { needed_eq := (neededMoney_ok hneeded).1
      found_eq := w.detailsAt_ok htds
      needed_le := UInt64.le_iff_toNat_le.mp (UInt64.not_lt.mp hlt) }

/-- What `transfer_selected` and `transfer_selected_rct` put into a pending
transaction. -/
structure PendingTx.Made (w : Wallet2) (args : TransferArgs) (ptx : PendingTx ℓ Point) : Prop where
  selected_eq : ptx.selectedTransfers = args.selectedTransfers
  dests_eq : ptx.dests = args.dsts
  fee_le : args.fee ≤ ptx.fee
  /-- The inputs sum up to the destinations, the change and the fee. -/
  balance : (w.foundMoney args.selectedTransfers).toNat =
    amountSum args.dsts + ptx.changeDts.amount.toNat + ptx.fee.toNat
  /-- The destinations come first; what is behind them has the amount of the change. -/
  splitted_eq : ∃ first rest, ptx.constructionData.splittedDsts = first ++ rest ∧
    (∀ d ∈ first, ∃ d' ∈ args.dsts, d.addr = d'.addr) ∧ amountSum rest = ptx.changeDts.amount.toNat

theorem transferSelectedRct_made (h : env.transferSelectedRct call w args outs = .ok (ptx, outs')) :
    ptx.Made w args := by
  unfold SpendEnv.transferSelectedRct at h
  obtain ⟨p, hp, h⟩ := Ringct.bind_eq_ok.mp h
  obtain ⟨⟨tx, keyImages⟩, -, h⟩ := Ringct.bind_eq_ok.mp h
  have hof := prepare_ok hp
  cases h
  have hchange : (p.foundMoney - p.neededMoney).toNat =
      p.foundMoney.toNat - p.neededMoney.toNat :=
    UInt64.toNat_sub_of_le _ _ (UInt64.le_iff_toNat_le.mpr hof.needed_le)
  have hneeded := hof.needed_eq
  have hle := hof.needed_le
  exact
    { selected_eq := rfl
      dests_eq := rfl
      fee_le := UInt64.le_refl _
      balance := by
        rw [← hof.found_eq]
        show _ = amountSum args.dsts + (p.foundMoney - p.neededMoney).toNat + args.fee.toNat
        omega
      splitted_eq := ⟨args.dsts, [_], rfl, fun d hd => ⟨d, hd, rfl⟩, by simp [amountSum]⟩ }

/-- Every destination gets all its digits, and the change is cut into those and
dust. -/
theorem amountSum_digitSplitStrategy (changeDst : TxDestinationEntry) (dustThreshold : UInt64) :
    amountSum ((digitDsts changeDst).filter (dustThreshold < ·.amount)) +
        amountSum ((digitDsts changeDst).filter (·.amount ≤ dustThreshold)) =
      changeDst.amount.toNat := by
  have hnot : ∀ d : TxDestinationEntry,
      decide (d.amount ≤ dustThreshold) = !decide (dustThreshold < d.amount) := by
    intro d
    rw [← decide_not, decide_eq_decide, UInt64.not_lt]
  simp only [hnot]
  rw [← amountSum_append]
  have hperm := List.filter_append_perm (fun d => decide (dustThreshold < d.amount))
    (digitDsts changeDst)
  rw [amountSum, (hperm.map _).sum_eq]
  exact amountSum_digitDsts changeDst

theorem toNat_plainChange {p : Prepared ℓ} (keys : AccountKeys ℓ)
    (hle : p.neededMoney.toNat ≤ p.foundMoney.toNat) :
    (plainChange keys p).amount.toNat = p.foundMoney.toNat - p.neededMoney.toNat := by
  unfold plainChange
  split
  · exact UInt64.toNat_sub_of_le _ _ (UInt64.le_iff_toNat_le.mpr hle)
  · rename_i hnot
    have hge := UInt64.le_iff_toNat_le.mp (UInt64.not_lt.mp hnot)
    show 0 = _
    omega

theorem transferSelected_made {policy : TxDustPolicy} (hpolicy : policy.addToFee = true)
    (h : env.transferSelected call w args outs policy = .ok (ptx, outs')) :
    ptx.Made w args := by
  unfold SpendEnv.transferSelected at h
  obtain ⟨p, hp, h⟩ := Ringct.bind_eq_ok.mp h
  have hof := prepare_ok hp
  have hchange := toNat_plainChange env.keys hof.needed_le
  generalize plainChange env.keys p = change at h hchange
  have hsplit := amountSum_digitSplitStrategy change policy.dustThreshold
  have hsplitted : withDust policy (digitSplitStrategy args.dsts change policy.dustThreshold).1
      (digitSplitStrategy args.dsts change policy.dustThreshold).2 =
        args.dsts.flatMap digitDsts ++
          (digitDsts change).filter (policy.dustThreshold < ·.amount) := by
    rw [withDust, if_pos hpolicy]
    rfl
  have hdustDsts : (digitSplitStrategy args.dsts change policy.dustThreshold).2 =
      (digitDsts change).filter (·.amount ≤ policy.dustThreshold) := rfl
  dsimp only at h
  rw [hsplitted, hdustDsts, hpolicy, Bool.true_or] at h
  simp only [if_true] at h
  generalize (digitDsts change).filter (policy.dustThreshold < ·.amount) = kept at h hsplit
  have hdust := toNat_sum_amounts ((digitDsts change).filter (·.amount ≤ policy.dustThreshold))
    (by have := change.amount.toNat_lt; omega)
  generalize (digitDsts change).filter (·.amount ≤ policy.dustThreshold) = dustDsts
    at h hsplit hdust
  generalize (dustDsts.map (·.amount)).sum = dust at h hdust
  obtain ⟨-, -, h⟩ := Ringct.bind_eq_ok.mp h
  obtain ⟨⟨tx, keyImages⟩, -, h⟩ := Ringct.bind_eq_ok.mp h
  cases h
  have hneeded := hof.needed_eq
  have hle := hof.needed_le
  have hfound := p.foundMoney.toNat_lt
  have hfee : (args.fee + dust).toNat = args.fee.toNat + dust.toNat := by
    rw [UInt64.toNat_add]
    omega
  have hkept : (change.amount - dust).toNat = change.amount.toNat - dust.toNat :=
    UInt64.toNat_sub_of_le _ _ (UInt64.le_iff_toNat_le.mpr (by omega))
  exact
    { selected_eq := rfl
      dests_eq := rfl
      fee_le := by
        rw [UInt64.le_iff_toNat_le]
        show args.fee.toNat ≤ (args.fee + dust).toNat
        omega
      balance := by
        rw [← hof.found_eq]
        show _ = amountSum args.dsts + (change.amount - dust).toNat + (args.fee + dust).toNat
        omega
      splitted_eq := by
        refine ⟨args.dsts.flatMap digitDsts, kept, rfl, ?_, ?_⟩
        · intro d hd
          obtain ⟨d', hd', hmem⟩ := List.mem_flatMap.mp hd
          obtain ⟨chunk, -, rfl⟩ := List.mem_map.mp hmem
          exact ⟨d', hd', rfl⟩
        · show amountSum kept = (change.amount - dust).toNat
          omega }

/-! ### Errors of the loops -/

/-- The errors that only the loops over inputs throw. -/
def SpendError.ofLoop : SpendError → Bool
  | .outOfFuel | .originalOutputIndex => true
  | _ => false

/-- The computation does not throw the error. -/
def Avoids {α : Type} (e : SpendError) (x : Except SpendError α) : Prop := x ≠ .error e

theorem avoids_ok {α : Type} (e : SpendError) (a : α) : Avoids e (.ok a : Except SpendError α) :=
  nofun

theorem avoids_error {α : Type} {e e' : SpendError} (he : e.ofLoop = true)
    (h : e'.ofLoop = false) : Avoids e (.error e' : Except SpendError α) := by
  rintro ⟨⟩
  rw [he] at h
  cases h

theorem Avoids.error {α β : Type} {e e' : SpendError}
    (h : Avoids e (.error e' : Except SpendError α)) :
    Avoids e (.error e' : Except SpendError β) := by
  rintro ⟨⟩
  exact h rfl

theorem Avoids.bind {α β : Type} {e : SpendError} {x : Except SpendError α}
    {f : α → Except SpendError β} (hx : Avoids e x) (hf : ∀ a, x = .ok a → Avoids e (f a)) :
    Avoids e (x >>= f) := by
  cases x with
  | error e' => exact hx.error
  | ok a => exact hf a rfl

theorem Avoids.map {α β : Type} {e : SpendError} {x : Except SpendError α} (hx : Avoids e x)
    (f : α → β) : Avoids e (x.map f) := by
  cases x with
  | error e' => exact hx.error
  | ok a => exact avoids_ok e (f a)

section

variable {e : SpendError} (he : e.ofLoop = true)
include he

theorem avoids_neededMoney (fee : UInt64) (dsts : List TxDestinationEntry) :
    Avoids e (neededMoney fee dsts) := by
  induction dsts generalizing fee with
  | nil => exact avoids_ok e fee
  | cons dt dsts ih =>
    rw [neededMoney]
    split
    · exact avoids_error he rfl
    split
    · exact avoids_error he rfl
    · exact ih _

theorem Wallet2.avoids_detailsAt (w : Wallet2) (selected : List Nat) :
    Avoids e (w.detailsAt selected) := by
  induction selected with
  | nil => exact avoids_ok e []
  | cons idx selected ih =>
    rw [Wallet2.detailsAt]
    split
    · exact avoids_error he rfl
    · exact ih.map _

theorem avoids_prepareSource (env : SpendEnv ℓ Point) (fake : Nat) (useRct : Bool)
    (td : TransferDetails) (row : List GetOutsEntry) :
    Avoids e (env.prepareSource fake useRct td row) := by
  unfold SpendEnv.prepareSource
  dsimp only
  split
  · exact avoids_error he rfl
  split
  · exact avoids_error he rfl
  split
  · exact avoids_error he rfl
  · exact avoids_ok e _

theorem avoids_prepareSources (env : SpendEnv ℓ Point) (fake : Nat) (useRct : Bool)
    (tds : List TransferDetails) (outs : List (List GetOutsEntry)) :
    Avoids e (env.prepareSources fake useRct tds outs) := by
  induction tds generalizing outs with
  | nil => exact avoids_ok e []
  | cons td tds ih =>
    cases outs with
    | nil => exact avoids_error he rfl
    | cons row outs =>
      exact (avoids_prepareSource he env fake useRct td row).bind fun _ _ =>
        (ih outs).bind fun _ _ => avoids_ok e _

theorem avoids_ringMembers (call : CallRandom ℓ) (args : TransferArgs)
    (outs : List (List GetOutsEntry)) : Avoids e (ringMembers call args outs) := by
  unfold ringMembers
  split
  · split
    · exact avoids_error he rfl
    · exact avoids_ok e _
  · exact avoids_ok e _

theorem avoids_prepare (env : SpendEnv ℓ Point) (call : CallRandom ℓ) (w : Wallet2) (useRct : Bool)
    (args : TransferArgs) (outs : List (List GetOutsEntry)) :
    Avoids e (env.prepare call w useRct args outs) := by
  unfold SpendEnv.prepare
  split
  · exact avoids_error he rfl
  refine (avoids_neededMoney he _ _).bind fun needed _ => (w.avoids_detailsAt he _).bind fun tds _ => ?_
  dsimp only
  split
  · exact avoids_error he rfl
  exact (avoids_ringMembers he call args outs).bind fun _ _ =>
    (avoids_prepareSources he _ _ _ _ _).bind fun _ _ => avoids_ok e _

theorem avoids_keyImagesOf (vin : List TxIn) : Avoids e (keyImagesOf vin) := by
  induction vin with
  | nil => exact avoids_ok e []
  | cons input vin ih =>
    cases input with
    | toKey amount offsets kImage => exact ih.map _
    | _ => exact avoids_error he rfl

theorem avoids_construct (env : SpendEnv ℓ Point) (call : CallRandom ℓ) (args : TransferArgs)
    (sources : List (TxSourceEntry ℓ)) (splittedDsts : List TxDestinationEntry) (useRct : Bool) :
    Avoids e (env.construct call args sources splittedDsts useRct) := by
  unfold SpendEnv.construct
  split
  · exact avoids_error he rfl
  split
  · exact avoids_error he rfl
  · exact (avoids_keyImagesOf he _).map _

theorem avoids_transferSelectedRct (env : SpendEnv ℓ Point) (call : CallRandom ℓ) (w : Wallet2)
    (args : TransferArgs) (outs : List (List GetOutsEntry)) :
    Avoids e (env.transferSelectedRct call w args outs) :=
  (avoids_prepare he env call w true args outs).bind fun _ _ =>
    (avoids_construct he env call args _ _ true).bind fun _ _ => avoids_ok e _

theorem avoids_checkDust (policy : TxDustPolicy) (dustDsts : List TxDestinationEntry) :
    Avoids e (checkDust policy dustDsts) := by
  unfold checkDust
  split
  · exact avoids_error he rfl
  · exact avoids_ok e _

theorem avoids_transferSelected (env : SpendEnv ℓ Point) (call : CallRandom ℓ) (w : Wallet2)
    (args : TransferArgs) (outs : List (List GetOutsEntry)) (policy : TxDustPolicy) :
    Avoids e (env.transferSelected call w args outs policy) :=
  (avoids_prepare he env call w false args outs).bind fun _ _ =>
    (avoids_checkDust he policy _).bind fun _ _ =>
      (avoids_construct he env call args _ _ false).bind fun _ _ => avoids_ok e _

end

end

end Lethean
