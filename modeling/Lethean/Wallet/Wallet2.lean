import Lethean.CryptonoteBasic.BasicImpl
import Lethean.CryptonoteCore.ConstructTx
import Lethean.Lib.Frame

/-!
# Lethean.Wallet.Wallet2

The state of a wallet, and `process_new_transaction`, which looks for outputs that
are paid to the wallet and for inputs that spend what it has.

The outputs are scanned once for each public key in the extra bytes. Two totals
are kept on the way: `tx_money_got_in_outs` counts what the scans find,
`total_received_1` what is entered into the transfers. When they differ at the
end, the process exits.

The wallet's secret keys enter through `WalletEnv`. An exception leaves the state
as it is at that point, so computations are in `EStateM`.
-/

namespace Lethean

/-! ### The state -/

structure TransferDetails where
  blockHeight : Nat
  tx : TransactionPrefix
  txid : Hash
  internalOutputIndex : Nat
  globalOutputIndex : Nat
  spent : Bool
  spentHeight : Nat
  keyImage : KeyImage
  mask : RctKey
  amount : Nat
  rct : Bool
  keyImageKnown : Bool
  pkIndex : Nat
  deriving DecidableEq

/-- The key of a `txout_to_key`. -/
def TxoutTarget.key? : TxoutTarget → Option PublicKey
  | .toKey key => some key
  | _ => none

def TransferDetails.getPublicKey (td : TransferDetails) : Option PublicKey :=
  td.tx.vout[td.internalOutputIndex]?.bind (·.target.key?)

/-- A transfer that is spent at a height. -/
def TransferDetails.spentAt (td : TransferDetails) (height : Nat) : TransferDetails :=
  { td with spent := true, spentHeight := height }

structure PaymentDetails where
  txHash : Hash
  amount : Nat
  blockHeight : Nat
  unlockTime : Nat
  timestamp : Nat
  deriving DecidableEq

inductive TransferState
  | pending
  | pendingNotInPool
  | failed
  deriving DecidableEq

/-- `wallet2::unconfirmed_transfer_details`, as far as it is read. -/
structure UnconfirmedTransferDetails where
  tx : TransactionPrefix
  amountIn : Nat
  amountOut : Nat
  change : Nat
  dests : List TxDestinationEntry
  paymentId : Hash
  state : TransferState
  timestamp : Nat

structure ConfirmedTransferDetails where
  amountIn : Nat
  amountOut : Nat
  change : Nat
  blockHeight : Nat
  dests : List TxDestinationEntry
  paymentId : Hash
  timestamp : Nat
  unlockTime : Nat
  deriving DecidableEq

/-- `wallet2`. The maps are functions, the two multimaps of payments lists. -/
@[ext] structure Wallet2 where
  blockchain : List Hash
  transfers : List TransferDetails
  keyImages : KeyImage → Option Nat
  pubKeys : PublicKey → Option Nat
  payments : List (Hash × PaymentDetails)
  unconfirmedPayments : List (Hash × PaymentDetails)
  confirmedTxs : Hash → Option ConfirmedTransferDetails
  unconfirmedTxs : List (Hash × UnconfirmedTransferDetails)
  localBcHeight : Nat

inductive RefreshType
  | full
  | optimizeCoinbase
  | noCoinbase
  deriving DecidableEq

/-- What a wallet can do with its keys, and its settings. -/
structure WalletEnv where
  /-- `generate_key_image_helper`. The key is also the one that
  `is_out_to_acc_precomp` compares with, from the same derivation. -/
  ephemeral : PublicKey → Nat → Option (PublicKey × KeyImage)
  /-- `decodeRct`: the amount and the mask of an output -/
  decodeRct : RctSig → PublicKey → Nat → Nat × RctKey
  decodeRct_lt : ∀ rct txPubKey i, (decodeRct rct txPubKey i).1 < 2 ^ 64
  decryptPaymentId : Hash8 → PublicKey → Option Hash8
  /-- `m_watch_only` -/
  watchOnly : Bool
  /-- `m_refresh_type` -/
  refreshType : RefreshType
  /-- `get_max_concurrency()` -/
  threads : Nat
  /-- `m_store_tx_info` -/
  storeTxInfo : Bool
  /-- `get_createtime()` -/
  createtime : Nat
  /-- `m_refresh_from_block_height` -/
  refreshFromBlockHeight : Nat

/-- The exceptions of the wallet. Those with a text are a `wallet_internal_error`. -/
inductive WalletError
  /-- `acc_outs_lookup_error` -/
  | accOutsLookup
  /-- `block_parse_error` and `tx_parse_error` -/
  | parse
  /-- "Overflow in received amounts" -/
  | receivedOverflow
  /-- "transactions outputs size=... not match with daemon response size=..." -/
  | outputCount (outputs indices : Nat)
  /-- "Unexpected transfer index from public key: got ..., m_transfers.size() is ..." -/
  | transferIndex (got size : Nat)
  /-- "Unexpected values of new and old outputs" -/
  | unexpectedValues
  | inconsistentPublicKeys
  /-- "Inconsistent amount in tx input: got ..., expected ..." -/
  | inputAmount (got expected : Nat)
  /-- "block transactions=... not match with daemon response size=..." -/
  | blockTransactions (txs indices : Nat)
  /-- "Wrong amount of transactions for block" -/
  | blockTxHashes
  /-- "wrong daemon response: split starts from the first block in response ..." -/
  | splitAtFirst (id : Hash) (height : Nat)
  | keyImageNotFound
  | publicKeyNotFound
  /-- "tx with no outputs at index ..." -/
  | noOutputs (index : Nat)
  /-- "Transaction extra has unsupported format at index ..." -/
  | extraFormat (index : Nat)
  /-- "Public key wasn't found in the transaction extra" -/
  | noPublicKey
  /-- "Public key yielding at least one output wasn't found in the transaction extra" -/
  | noKeyYieldsOutput
  /-- "key_image generated ephemeral public key not matched with output_key at index ..." -/
  | ephemeralKey (index : Nat)
  /-- "The blockchain is out of date compared to the signed key images" -/
  | outOfDate
  /-- "Non txout_to_key output found" -/
  | nonKeyOutput
  /-- "Key image out of validity domain: input .../..., key image ..." -/
  | keyImageDomain (n size : Nat) (keyImage : KeyImage)
  /-- "Signature check failed: input .../..., key image ..., signature ..., pubkey ..." -/
  | signatureCheck (n size : Nat) (keyImage : KeyImage) (signature : Signature) (key : PublicKey)
  /-- `no_connection_to_daemon` -/
  | noConnection
  | daemonBusy
  /-- `is_key_image_spent_error` -/
  | isKeyImageSpent (status : String)
  /-- "daemon returned wrong response for is_key_image_spent, wrong amounts count = ...,
  expected ..." -/
  | spentStatusCount (got expected : Nat)
  deriving DecidableEq

/-- How a call ends other than by returning. -/
inductive Halt
  | error (e : WalletError)
  /-- `exit(1)` -/
  | exit
  /-- An index out of range, or a failed `boost::get`. -/
  | undefined
  deriving DecidableEq

abbrev WalletM := EStateM Halt Wallet2

namespace Wallet2

def setTransfer (w : Wallet2) (idx : Nat) (td : TransferDetails) : Wallet2 :=
  { w with transfers := w.transfers.set idx td }

def setSpent (w : Wallet2) (idx height : Nat) : Wallet2 :=
  { w with transfers := w.transfers.modify idx (·.spentAt height) }

@[simp] theorem setSpent_keyImages (w : Wallet2) (idx height : Nat) :
    (w.setSpent idx height).keyImages = w.keyImages := rfl

theorem getElem?_setSpent (w : Wallet2) (idx height j : Nat) :
    (w.setSpent idx height).transfers[j]? =
      (w.transfers[j]?).map fun td => if idx = j then td.spentAt height else td := by
  rw [setSpent, List.getElem?_modify]
  by_cases h : idx = j <;> simp [h]

def withKeyImages (w : Wallet2) (keyImages : KeyImage → Option Nat) : Wallet2 :=
  { w with keyImages }

def withPubKeys (w : Wallet2) (pubKeys : PublicKey → Option Nat) : Wallet2 :=
  { w with pubKeys }

def withTransfers (w : Wallet2) (transfers : List TransferDetails) : Wallet2 :=
  { w with transfers }

/-- A new transfer, with its entries in the maps. -/
def pushTransfer (w : Wallet2) (pub : PublicKey) (td : TransferDetails) : Wallet2 :=
  { w with
    transfers := w.transfers ++ [td]
    keyImages := Function.update w.keyImages td.keyImage (some w.transfers.length)
    pubKeys := Function.update w.pubKeys pub (some w.transfers.length) }

@[simp] theorem pushTransfer_transfers (w : Wallet2) (pub : PublicKey) (td : TransferDetails) :
    (w.pushTransfer pub td).transfers = w.transfers ++ [td] := rfl

@[simp] theorem pushTransfer_keyImages (w : Wallet2) (pub : PublicKey) (td : TransferDetails) :
    (w.pushTransfer pub td).keyImages =
      Function.update w.keyImages td.keyImage (some w.transfers.length) := rfl

@[simp] theorem pushTransfer_pubKeys (w : Wallet2) (pub : PublicKey) (td : TransferDetails) :
    (w.pushTransfer pub td).pubKeys = Function.update w.pubKeys pub (some w.transfers.length) := rfl

def balance (w : Wallet2) : Nat :=
  u64 (((w.transfers.filter (!·.spent)).map (·.amount)).sum +
    ((w.unconfirmedTxs.filter (·.2.state ≠ .failed)).map (·.2.change)).sum)

end Wallet2

/-! ### Scanning the outputs -/

/-- The arguments of `process_new_transaction`. -/
structure NewTransaction where
  txid : Hash
  tx : Transaction
  oIndices : List Nat
  height : Nat
  ts : Nat
  minerTx : Bool
  pool : Bool

/-- An output that is paid to the wallet: what the scan leaves in `in_ephemeral`,
`ki`, `amount` and `mask` at its index. -/
structure FoundOut where
  index : Nat
  out : TxOut
  pub : PublicKey
  keyImage : KeyImage
  amount : Nat
  mask : RctKey

namespace WalletEnv

variable (env : WalletEnv)

/-- `check_acc_out_precomp`, and what is done with an output it takes: `none` if
the output is of the wrong type, `some none` if it is not paid to the wallet.
`decode` says whether a hidden amount is decoded. -/
def checkAccOutPrecomp (rct : RctSig) (decode : Bool) (txPubKey : PublicKey) (i : Nat)
    (o : TxOut) : Option (Option FoundOut) :=
  match o.target with
  | .toKey key =>
    match env.ephemeral txPubKey i with
    | none => some none
    | some (pub, ki) =>
      if pub = key then
        if o.amount = 0 ∧ decode then
          some (some ⟨i, o, pub, ki, (env.decodeRct rct txPubKey i).1,
            (env.decodeRct rct txPubKey i).2⟩)
        else some (some ⟨i, o, pub, ki, o.amount, nullBlob 32⟩)
      else some none
  | _ => none

/-- The loop over the outputs from index `i` on. It is the same in all branches:
threads only fill the results of `check_acc_out_precomp` in advance. -/
def scanLoop (rct : RctSig) (decode : Bool) (txPubKey : PublicKey) :
    Nat → List TxOut → List FoundOut → Nat → Except WalletError (List FoundOut × Nat)
  | _, [], outs, got => .ok (outs, got)
  | i, o :: vout, outs, got =>
    match env.checkAccOutPrecomp rct decode txPubKey i o with
    | none => .error .accOutsLookup
    | some none => scanLoop rct decode txPubKey (i + 1) vout outs got
    | some (some found) =>
      if 2 ^ 64 - 1 - found.amount ≤ got then .error .receivedOverflow
      else
        scanLoop rct decode txPubKey (i + 1) vout (outs ++ [found]) (got + found.amount)

/-- The scan of a miner transaction that pays a single address: the others are
looked at only if the first output is paid to the wallet. -/
def scanCoinbase (tx : Transaction) (txPubKey : PublicKey) (got : Nat) :
    Except WalletError (List FoundOut × Nat) :=
  match tx.vout with
  | [] => .ok ([], got)
  | o :: vout =>
    match env.checkAccOutPrecomp tx.rctSignatures true txPubKey 0 o with
    | none => .error .accOutsLookup
    | some none => .ok ([], got)
    | some (some found) =>
      env.scanLoop tx.rctSignatures true txPubKey 1 vout [found] found.amount

/-- The scan for one public key: the outputs found, and `tx_money_got_in_outs`. With
more than one thread it is counted from 0 again. -/
def scanOuts (tx : Transaction) (minerTx : Bool) (txPubKey : PublicKey) (got : Nat) :
    Except WalletError (List FoundOut × Nat) :=
  if minerTx ∧ env.refreshType = .noCoinbase then .ok ([], got)
  else if minerTx ∧ env.refreshType = .optimizeCoinbase then env.scanCoinbase tx txPubKey got
  else if 1 < tx.vout.length ∧ 1 < env.threads then
    env.scanLoop tx.rctSignatures (!minerTx) txPubKey 0 tx.vout [] 0
  else env.scanLoop tx.rctSignatures (!minerTx) txPubKey 0 tx.vout [] got

/-! ### Entering what was found -/

/-- The running totals `tx_money_got_in_outs` and `total_received_1`. -/
structure Totals where
  got : Nat
  received : Nat
  deriving DecidableEq

/-- `m_mask` and `m_rct` of a transfer. -/
def maskAndRct (t : NewTransaction) (found : FoundOut) (identity : RctKey) : RctKey × Bool :=
  if found.out.amount = 0 then (found.mask, true)
  else if t.minerTx ∧ t.tx.version = 2 then (identity, true)
  else (identity, false)

end WalletEnv

/-- `rct::identity()`. -/
def rctIdentity : RctKey := ⟨1 :: List.replicate 31 0, rfl⟩

def FoundOut.amountS (found : FoundOut) : Nat :=
  if found.out.amount ≠ 0 then found.out.amount else found.amount

def newTransfer (env : WalletEnv) (t : NewTransaction) (pkIndex : Nat) (found : FoundOut) :
    TransferDetails :=
  { blockHeight := t.height
    tx := t.tx.toTransactionPrefix
    txid := t.txid
    internalOutputIndex := found.index
    globalOutputIndex := t.oIndices.getD found.index 0
    spent := false
    spentHeight := 0
    keyImage := found.keyImage
    mask := (WalletEnv.maskAndRct t found rctIdentity).1
    amount := found.amountS
    rct := (WalletEnv.maskAndRct t found rctIdentity).2
    keyImageKnown := !env.watchOnly
    pkIndex := pkIndex }

def replacedTransfer (t : NewTransaction) (pkIndex : Nat) (found : FoundOut)
    (td : TransferDetails) : TransferDetails :=
  { td with
    blockHeight := t.height
    tx := t.tx.toTransactionPrefix
    txid := t.txid
    internalOutputIndex := found.index
    globalOutputIndex := t.oIndices.getD found.index 0
    mask := (WalletEnv.maskAndRct t found rctIdentity).1
    amount := found.amountS
    rct := (WalletEnv.maskAndRct t found rctIdentity).2
    pkIndex := pkIndex }

open WalletEnv (Totals)

/-- The body of the loop over `outs`. An output with a known key is ignored unless
its clear amount is larger than the amount of the unspent transfer. Two more checks
of the source repeat what the branch has established. -/
def recordOut (env : WalletEnv) (t : NewTransaction) (pkIndex : Nat) (found : FoundOut)
    (totals : Totals) : WalletM Totals := do
  let w ← get
  match w.pubKeys found.pub with
  | none =>
    if t.pool = false then
      modify fun w => w.pushTransfer found.pub (newTransfer env t pkIndex found)
    return { totals with received := u64 (totals.received + found.amountS) }
  | some idx =>
    match w.transfers[idx]? with
    | none => throw (.error (.transferIndex idx w.transfers.length))
    | some td =>
      if td.spent ∨ found.out.amount ≤ td.amount then return totals
      else if totals.got < found.out.amount then throw (.error .unexpectedValues)
      else
        if t.pool = false then
          modify fun w => w.setTransfer idx (replacedTransfer t pkIndex found td)
          if (replacedTransfer t pkIndex found td).getPublicKey ≠ some found.pub then
            throw (.error .inconsistentPublicKeys)
        return ⟨totals.got - td.amount, u64 (totals.received + (found.amountS - td.amount))⟩

/-- The loop over `outs`. -/
def recordOuts (env : WalletEnv) (t : NewTransaction) (pkIndex : Nat) :
    List FoundOut → Totals → WalletM Totals
  | [], totals => pure totals
  | found :: outs, totals => do
    let totals ← recordOut env t pkIndex found totals
    recordOuts env t pkIndex outs totals

/-- One turn of the loop over the public keys. -/
def scanPubKey (env : WalletEnv) (t : NewTransaction) (pkIndex : Nat) (txPubKey : PublicKey)
    (totals : Totals) : WalletM Totals :=
  match env.scanOuts t.tx t.minerTx txPubKey totals.got with
  | .error e => throw (.error e)
  | .ok (outs, got) =>
    if outs ≠ [] ∧ t.pool = false ∧ t.tx.vout.length ≠ t.oIndices.length then
      throw (.error (.outputCount t.tx.vout.length t.oIndices.length))
    else recordOuts env t pkIndex outs { totals with got }

/-- The loop over the public keys from number `pkIndex` on. -/
def scanPubKeys (env : WalletEnv) (t : NewTransaction) :
    Nat → List PublicKey → Totals → WalletM Totals
  | _, [], totals => pure totals
  | pkIndex, txPubKey :: keys, totals => do
    let totals ← scanPubKey env t pkIndex txPubKey totals
    scanPubKeys env t (pkIndex + 1) keys totals

/-! ### Spends and payments -/

/-- The body of the loop over the inputs, with `tx_money_spent_in_ins`. -/
def spendInput (t : NewTransaction) (i : TxIn) (spent : Nat) : WalletM Nat :=
  match i with
  | .toKey amount _ kImage => do
    let w ← get
    match w.keyImages kImage with
    | none => return spent
    | some idx =>
      match w.transfers[idx]? with
      | none => throw .undefined
      | some td =>
        if 0 < amount ∧ amount ≠ td.amount then
          throw (.error (.inputAmount amount td.amount))
        else
          if t.pool = false then
            modify fun w => w.setSpent idx t.height
          return u64 (spent + td.amount)
  | _ => pure spent

def spendInputs (t : NewTransaction) : List TxIn → Nat → WalletM Nat
  | [], spent => pure spent
  | i :: vin, spent => do
    let spent ← spendInput t i spent
    spendInputs t vin spent

def processUnconfirmed (env : WalletEnv) (txid : Hash) (height : Nat) (w : Wallet2) : Wallet2 :=
  match w.unconfirmedTxs.lookup txid with
  | none => w
  | some utd =>
    let confirmed : ConfirmedTransferDetails :=
      { amountIn := utd.amountIn, amountOut := utd.amountOut, change := utd.change
        blockHeight := height, dests := utd.dests, paymentId := utd.paymentId
        timestamp := utd.timestamp, unlockTime := utd.tx.unlockTime }
    { w with
      confirmedTxs :=
        if env.storeTxInfo ∧ w.confirmedTxs txid = none then
          Function.update w.confirmedTxs txid (some confirmed)
        else w.confirmedTxs
      unconfirmedTxs := w.unconfirmedTxs.filter (·.1 ≠ txid) }

/-- The payment id that `process_outgoing` finds. -/
def outgoingPaymentId (txExtra : List UInt8) : Hash :=
  match parseTxExtra txExtra with
  | none => nullHash
  | some fields =>
    match fields.findSome? TxExtraField.nonce? with
    | none => nullHash
    | some nonce => (getPaymentIdFromTxExtraNonce nonce).getD nullHash

def processOutgoing (t : NewTransaction) (spent received : Nat) (w : Wallet2) : Wallet2 :=
  let entry : ConfirmedTransferDetails :=
    match w.confirmedTxs t.txid with
    | some entry => entry
    | none =>
      { amountIn := spent
        amountOut :=
          if t.tx.version = 1 then t.tx.getOutsMoneyAmount
          else subU64 spent t.tx.rctSignatures.txnFee
        change := received
        blockHeight := 0
        dests := []
        paymentId := outgoingPaymentId t.tx.extra
        timestamp := 0
        unlockTime := 0 }
  { w with
    confirmedTxs := Function.update w.confirmedTxs t.txid
      (some { entry with
        blockHeight := t.height, timestamp := t.ts, unlockTime := t.tx.unlockTime }) }

/-- The payment id of a receipt. The key is that of the last turn of the loop. -/
def receivedPaymentId (env : WalletEnv) (txExtra : List UInt8) (txPubKey : PublicKey) : Hash :=
  match extraNonce? txExtra with
  | none => nullHash
  | some nonce =>
    match getEncryptedPaymentIdFromTxExtraNonce nonce with
    | some paymentId8 =>
      if txPubKey = nullBlob 32 then nullHash
      else
        match env.decryptPaymentId paymentId8 txPubKey with
        | none => nullHash
        | some id => ⟨id.toList ++ List.replicate 24 0, by simp⟩
    | none => (getPaymentIdFromTxExtraNonce nonce).getD nullHash

/-- The new entry of `m_payments`, or of `m_unconfirmed_payments` for the pool. -/
def addPayment (env : WalletEnv) (t : NewTransaction) (received : Nat) (w : Wallet2) : Wallet2 :=
  let payment : Hash × PaymentDetails :=
    (receivedPaymentId env t.tx.extra ((txPubKeys t.tx.extra).getLastD (nullBlob 32)),
      { txHash := t.txid, amount := received, blockHeight := t.height
        unlockTime := t.tx.unlockTime, timestamp := t.ts })
  if t.pool then { w with unconfirmedPayments := w.unconfirmedPayments ++ [payment] }
  else { w with payments := w.payments ++ [payment] }

/-- `process_new_transaction` behind the loop over the public keys. -/
def settleTransaction (env : WalletEnv) (t : NewTransaction) (totals : Totals) :
    WalletM PUnit := do
  let spent ← spendInputs t t.tx.vin 0
  if 0 < spent then
    modify (processOutgoing t spent totals.got)
  if spent < totals.got then
    if totals.received ≠ totals.got then
      throw .exit
    modify (addPayment env t (totals.got - spent))

/-- `process_new_transaction`. A transaction with outputs and without a public key
is skipped. -/
def processNewTransaction (env : WalletEnv) (t : NewTransaction) : WalletM PUnit := do
  if t.minerTx = false then
    modify (processUnconfirmed env t.txid t.height)
  if t.tx.vout = [] then settleTransaction env t ⟨0, 0⟩
  else if txPubKeys t.tx.extra = [] then pure ⟨⟩
  else
    let totals ← scanPubKeys env t 0 (txPubKeys t.tx.extra) ⟨0, 0⟩
    settleTransaction env t totals

/-! ### A wallet to try -/

def Wallet2.fresh (genesis : Hash) : Wallet2 :=
  { blockchain := [genesis], transfers := [], keyImages := fun _ => none, pubKeys := fun _ => none
    payments := [], unconfirmedPayments := [], confirmedTxs := fun _ => none, unconfirmedTxs := []
    localBcHeight := 1 }

def sampleOneTimeKey (txPubKey : PublicKey) (i : Nat) : PublicKey :=
  numberedHash (256 * (i + 1) + (txPubKey.toList.headD 0).toNat)

def sampleHidden (rct : RctSig) (i : Nat) : UInt8 :=
  ((rct.ecdhInfo[i]?).map fun info => info.amount.toList.headD 0).getD 0

def sampleWalletEnv : WalletEnv where
  ephemeral := fun txPubKey i => some (sampleOneTimeKey txPubKey i, sampleOneTimeKey txPubKey i)
  decodeRct := fun rct _ i => ((sampleHidden rct i).toNat, nullBlob 32)
  decodeRct_lt := by
    intro rct txPubKey i
    have hlt := (sampleHidden rct i).toNat_lt
    change (sampleHidden rct i).toNat < 2 ^ 64
    omega
  decryptPaymentId := fun id _ => some id
  watchOnly := false
  refreshType := .full
  threads := 1
  storeTxInfo := true
  createtime := 0
  refreshFromBlockHeight := 0

/-- A transaction in a block, with the given public keys, outputs and inputs. Hidden
amounts are in the RingCT part. -/
def sampleReceipt (txid : Hash) (keys : List PublicKey) (vout : List TxOut) (vin : List TxIn)
    (hidden : List UInt8) (height : Nat) : NewTransaction where
  txid := txid
  tx :=
    { Transaction.null with
      version := 2, vin, vout
      extra := keys.flatMap fun key => 0x01 :: key.toList
      rctSignatures :=
        { RctSig.null with
          ecdhInfo := hidden.map fun b => ⟨nullBlob 32, ⟨b :: List.replicate 31 0, rfl⟩⟩ } }
  oIndices := vout.map fun _ => 0
  height := height
  ts := 0
  minerTx := false
  pool := false

end Lethean
