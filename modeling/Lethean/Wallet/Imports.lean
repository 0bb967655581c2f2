import Lethean.Wallet.Refresh

/-!
# Lethean.Wallet.Imports

What a pair of a watch-only wallet and a wallet with the keys send each other:
`import_outputs` takes over the transfers of the other wallet, `import_key_images` and
`load_tx` take over key images for the transfers that are there. Files are as they
are after decryption and parsing.
-/

namespace Lethean

/-! ### `import_outputs` -/

def getTxPubKeyFromReceivedOuts (env : WalletEnv) (td : TransferDetails) :
    Except WalletError PublicKey :=
  match txPubKeys td.tx.extra with
  | [] => .error .noPublicKey
  | [txPubKey] => .ok txPubKey
  | keys =>
    -- more than one: the first that yields an output
    let yields (txPubKey : PublicKey) : Bool := td.tx.vout.zipIdx.any fun (o, i) =>
      (env.checkAccOutPrecomp RctSig.null false txPubKey i o).join.isSome
    match keys.find? yields with
    | some txPubKey => .ok txPubKey
    | none => .error .noKeyYieldsOutput

/-- `m_key_image` and `m_key_image_known` of a transfer whose key image is known. -/
def TransferDetails.withKeyImage (td : TransferDetails) (keyImage : KeyImage) : TransferDetails :=
  { td with keyImage, keyImageKnown := true }

/-- The transfer that `import_outputs` makes of output number `i`, with its public
key. The result of `generate_key_image_helper` is not looked at, so that the key that
is compared may be undefined. -/
def importedTransfer (env : WalletEnv) (i : Nat) (td : TransferDetails) :
    Except Halt (PublicKey × TransferDetails) :=
  if td.tx.vout = [] then .error (.error (.noOutputs i))
  else if parseTxExtra td.tx.extra = none then .error (.error (.extraFormat i))
  else
    match getTxPubKeyFromReceivedOuts env td with
    | .error e => .error (.error e)
    | .ok txPubKey =>
      match env.ephemeral txPubKey td.internalOutputIndex, td.getPublicKey with
      | some (pub, keyImage), some key =>
        if pub ≠ key then .error (.error (.ephemeralKey i))
        else .ok (pub, td.withKeyImage keyImage)
      | _, _ => .error .undefined

/-- The loop of `import_outputs` from output number `i` on. -/
def importOutputsFrom (env : WalletEnv) : Nat → List TransferDetails → WalletM PUnit
  | _, [] => pure ⟨⟩
  | i, td :: outputs =>
    match importedTransfer env i td with
    | .error e => throw e
    | .ok (pub, td) => do
      modify fun w => w.pushTransfer pub td
      importOutputsFrom env (i + 1) outputs

def importOutputs (env : WalletEnv) (outputs : List TransferDetails) : WalletM Nat := do
  modify fun w => w.withTransfers []
  importOutputsFrom env 0 outputs
  let w ← get
  return w.transfers.length

/-! ### `import_key_images` -/

def Wallet2.setKeyImage (w : Wallet2) (i : Nat) (keyImage : KeyImage) : Wallet2 :=
  { w with
    transfers := w.transfers.modify i (·.withKeyImage keyImage)
    keyImages := Function.update w.keyImages keyImage (some i) }

def Wallet2.setKeyImages (w : Wallet2) (i : Nat) : List KeyImage → Wallet2
  | [] => w
  | keyImage :: keyImages => (w.setKeyImage i keyImage).setKeyImages (i + 1) keyImages

/-- What is checked about a key image that comes with a signature. -/
structure KeyImageChecks where
  /-- `scalarmultKey(ki2rct(key_image), curveOrder()) == identity()` -/
  inDomain : KeyImage → Bool
  /-- `check_ring_signature` with a ring of one key -/
  checkRingSignature : KeyImage → PublicKey → Signature → Bool

/-- The loop that checks the signed key images, from number `n` of `size` on. -/
def checkSignedKeyImages (checks : KeyImageChecks) (w : Wallet2) (size : Nat) :
    Nat → List (KeyImage × Signature) → Except Halt Unit
  | _, [] => .ok ()
  | n, (keyImage, signature) :: signed =>
    match (w.transfers[n]?).bind fun td => td.tx.vout[td.internalOutputIndex]? with
    | none => .error .undefined
    | some out =>
      match out.target.key? with
      | none => .error (.error .nonKeyOutput)
      | some pkey =>
        if checks.inDomain keyImage = false then
          .error (.error (.keyImageDomain n size keyImage))
        else if checks.checkRingSignature keyImage pkey signature = false then
          .error (.error (.signatureCheck n size keyImage signature pkey))
        else checkSignedKeyImages checks w size (n + 1) signed

/-- The spent status of the first transfers as the daemon gives it: 0 is `UNSPENT`. -/
def Wallet2.setSpentStatus (w : Wallet2) (spentStatus : List Nat) : Wallet2 :=
  w.withTransfers (w.transfers.mapIdx fun i td =>
    match spentStatus[i]? with
    | none => td
    | some status => { td with spent := status ≠ 0 })

/-- What the first transfers that are spent, or are not, sum up to. -/
def Wallet2.sumSpent (w : Wallet2) (n : Nat) (spent : Bool) : Nat :=
  u64 (((w.transfers.take n).filter (·.spent = spent)).map (·.amount)).sum

/-- `import_key_images`: the height of the last transfer that got a key image, and what
is spent and unspent. `reply` is what comes of asking the daemon. -/
def importKeyImages (checks : KeyImageChecks) (signedKeyImages : List (KeyImage × Signature))
    (reply : Except WalletError (List Nat)) : WalletM (Nat × Nat × Nat) := do
  let n := signedKeyImages.length
  let w ← get
  if w.transfers.length < n then
    throw (.error .outOfDate)
  if signedKeyImages = [] then
    return (0, 0, 0)
  match checkSignedKeyImages checks w n 0 signedKeyImages with
  | .error e => throw e
  | .ok _ =>
    modify fun w => w.setKeyImages 0 (signedKeyImages.map (·.1))
    match reply with
    | .error e => throw (.error e)
    | .ok spentStatus =>
      if spentStatus.length ≠ n then
        throw (.error (.spentStatusCount spentStatus.length n))
      modify fun w => w.setSpentStatus spentStatus
      let w ← get
      return (((w.transfers[n - 1]?).map (·.blockHeight)).getD 0, w.sumSpent n true,
        w.sumSpent n false)

/-! ### `load_tx` -/

/-- `signed_tx_set`, with the type of the transactions as a parameter. -/
structure SignedTxSet (Ptx : Type) where
  ptx : List Ptx
  keyImages : List KeyImage

/-- The loop of `load_tx` over the key images, from number `i` on. -/
def loadKeyImages : Nat → List KeyImage → WalletM PUnit
  | _, [] => pure ⟨⟩
  | i, keyImage :: keyImages => do
    modify fun w => w.setKeyImage i keyImage
    let w ← get
    match (w.transfers[i]?).bind (·.getPublicKey) with
    | none => throw .undefined
    | some pub =>
      modify fun w => w.withPubKeys (Function.update w.pubKeys pub (some i))
      loadKeyImages (i + 1) keyImages

/-- `load_tx`, for a file that could be read: the transactions, or `none` if it
returns false. -/
def loadTx {Ptx : Type} (signedTxs : SignedTxSet Ptx) (accept : SignedTxSet Ptx → Bool) :
    WalletM (Option (List Ptx)) := do
  if accept signedTxs = false then
    return none
  let w ← get
  if w.transfers.length < signedTxs.keyImages.length then
    return none
  loadKeyImages 0 signedTxs.keyImages
  return some signedTxs.ptx

end Lethean
