import Lethean.Crypto.KeyDerivation
import Lethean.CryptonoteBasic.FormatUtils
import Lethean.CryptonoteBasic.TxExtraEdit
import Lethean.Ringct.Completeness

/-!
# Lethean.CryptonoteCore.ConstructTx

`construct_tx_and_get_tx_key`. The sender puts the public key of a fresh secret
into the extra bytes, derives the key of every output from it, and in a RingCT
transaction encrypts the amounts with it. All the receiver needs is that key,
which is the first one in the extra bytes.

What is random is an argument: the secret key of the transaction, the order of
the outputs and the randomness of the signatures.
-/

namespace Lethean

/-- The primitives: the group with its hashes, the hash of bytes, the stream
cipher of the swap data with the key it is made out to, and the ring signatures
of version 1. -/
structure TxCrypto (ℓ : Nat) (Point : Type) extends KeyCurve ℓ Point where
  hashes : Crypto
  doChachaCrypt : KeyDerivation → List UInt8 → List UInt8
  length_doChachaCrypt : ∀ key data, (doChachaCrypt key data).length = data.length
  swapAddressEncryptionPubKey : PublicKey
  generateRingSignature : Hash → KeyImage → List PublicKey → ZMod ℓ → Nat → List Signature

structure TxSourceEntry (ℓ : Nat) where
  outputs : List (Nat × Ringct.CtKey PublicKey)
  realOutput : Nat
  realOutTxKey : PublicKey
  realOutputInTxIndex : Nat
  amount : UInt64
  rct : Bool
  mask : ZMod ℓ

structure TxDestinationEntry where
  amount : UInt64
  addr : AccountPublicAddress
  deriving DecidableEq

/-- What is random in the construction for `n` destinations. -/
structure TxRandom (ℓ n : Nat) where
  txKey : ZMod ℓ
  shuffle : Equiv.Perm (Fin n)
  rct : Ringct.RctRandom ℓ
  rctSimple : Ringct.RctSimpleRandom ℓ

structure BuiltTx (ℓ : Nat) (Point : Type) where
  tx : TransactionPrefix
  signatures : List (List Signature)
  rctSignatures : Option (Ringct.RctSig ℓ Point PublicKey)

def absoluteOutputOffsetsToRelative (off : List Nat) : List Nat :=
  let res := off.mergeSort
  List.zipWith (· - ·) res (0 :: res)

def getDestinationViewKeyPub (destinations : List TxDestinationEntry)
    (sender : AccountPublicAddress) : PublicKey :=
  match destinations with
  | [] => nullBlob 32
  | first :: rest =>
    if rest.all fun d => d.addr = sender || d.amount = 0 || d.addr = first.addr then
      first.addr.viewPublicKey
    else nullBlob 32

namespace TxCrypto

section

variable {ℓ : Nat} {Point : Type} [AddCommGroup Point] [Module (ZMod ℓ) Point]
  (C : TxCrypto ℓ Point)

/-! ### The extra bytes -/

def encryptedPaymentIdTail : UInt8 := 0x8d

def encryptPaymentId (paymentId : Hash8) (publicKey : PublicKey) (secretKey : ZMod ℓ) :
    Option Hash8 :=
  (C.generateKeyDerivation publicKey secretKey).map fun derivation =>
    let hash := C.hashes.cnFastHash (derivation.toList ++ [encryptedPaymentIdTail])
    List.Vector.ofFn fun b => paymentId.get b ^^^ hash.get (b.castLE (by decide))

def encryptSwapDataWithTxSecretKey (sk : ZMod ℓ) (data : List UInt8) : List UInt8 :=
  match C.generateKeyDerivation C.swapAddressEncryptionPubKey sk with
  | none => data
  | some derivation => C.doChachaCrypt derivation data

/-- The extra bytes of the transaction. The result of removing old keys is not
looked at. -/
def constructExtra (sender : AccountPublicAddress) (destinations : List TxDestinationEntry)
    (extra : List UInt8) (txKey : ZMod ℓ) : Except String (List UInt8) :=
  let removed := (removeFieldFromTxExtra extra (·.pubKey?.isSome)).2
  let extra := addTxPubKeyToExtra removed (C.secretKeyToPublicKey txKey)
  if isSwapTx extra then
    .ok (encryptUserData (C.encryptSwapDataWithTxSecretKey txKey) extra.length extra)
  else
    match parseTxExtra extra with
    | none => .error "Failed to parse tx extra"
    | some fields =>
      match (fields.findSome? TxExtraField.nonce?).bind getEncryptedPaymentIdFromTxExtraNonce with
      | none => .ok extra
      | some paymentId =>
        let viewKeyPub := getDestinationViewKeyPub destinations sender
        if viewKeyPub = nullBlob 32 then
          .error "Destinations have to have exactly one output to support encrypted payment ids"
        else
          match C.encryptPaymentId paymentId viewKeyPub txKey with
          | none => .error "Failed to encrypt payment id"
          | some paymentId =>
            let removed := (removeFieldFromTxExtra extra (·.nonce?.isSome)).2
            match addExtraNonceToTxExtra removed
                (setEncryptedPaymentIdToTxExtraNonce paymentId) with
            | none => .error "Failed to add encrypted payment id to tx extra"
            | some extra => .ok extra

/-! ### Inputs and outputs -/

/-- One round of the loop over the sources: the input, and the key it is signed
with. -/
def constructInput (sender : AccountKeys ℓ) (src : TxSourceEntry ℓ) :
    Except String (TxIn × Keypair ℓ) :=
  match src.outputs[src.realOutput]? with
  | none => .error "real_output index bigger than output_keys.size()"
  | some real =>
    match C.generateKeyImageHelper sender src.realOutTxKey src.realOutputInTxIndex with
    | none => .error "key image helper failed"
    | some (inEphemeral, img) =>
      if inEphemeral.pub = real.2.dest then
        .ok (.toKey src.amount.toNat (absoluteOutputOffsetsToRelative (src.outputs.map (·.1)))
          img, inEphemeral)
      else .error "derived public key mismatch with output public key"

def constructInputs (sender : AccountKeys ℓ) :
    List (TxSourceEntry ℓ) → Except String (List (TxIn × Keypair ℓ))
  | [] => .ok []
  | src :: sources => do
    let input ← C.constructInput sender src
    let inputs ← constructInputs sender sources
    pure (input :: inputs)

structure OutputKeys (ℓ : Nat) where
  amount : UInt64
  key : PublicKey
  amountKey : ZMod ℓ

def constructOutput (version : Nat) (txKey : ZMod ℓ) (outputIndex : Nat)
    (dst : TxDestinationEntry) : Except String (OutputKeys ℓ) :=
  if 0 < dst.amount ∨ 1 < version then
    match C.generateKeyDerivation dst.addr.viewPublicKey txKey with
    | none => .error "at creation outs: failed to generate_key_derivation"
    | some derivation =>
      match C.derivePublicKey derivation outputIndex dst.addr.spendPublicKey with
      | none => .error "at creation outs: failed to derive_public_key"
      | some key => .ok ⟨dst.amount, key, C.derivationToScalar derivation outputIndex⟩
  else .error "Destination with wrong amount"

/-- The loop over the shuffled destinations, from an index on. -/
def constructOutputs (version : Nat) (txKey : ZMod ℓ) :
    Nat → List TxDestinationEntry → Except String (List (OutputKeys ℓ))
  | _, [] => .ok []
  | outputIndex, dst :: dsts => do
    let out ← C.constructOutput version txKey outputIndex dst
    let outs ← constructOutputs version txKey (outputIndex + 1) dsts
    pure (out :: outs)

/-! ### Signatures -/

def getTransactionPrefixHash (tx : TransactionPrefix) : Hash :=
  C.hashes.cnFastHash (writeTransactionPrefix tx).bytes

/-- The ring signatures of a version 1 transaction. Without the secret key, in a
watch only wallet, they are left empty. -/
def signRing (txPrefixHash : Hash) (zeroSecretKey : Bool) (src : TxSourceEntry ℓ)
    (input : TxIn × Keypair ℓ) : List Signature :=
  if zeroSecretKey then List.replicate src.outputs.length (nullBlob 64)
  else
    C.generateRingSignature txPrefixHash (input.1.keyImage?.getD (nullBlob 32))
      (src.outputs.map (·.2.dest)) input.2.sec src.realOutput

/-- Points from keys. A key that cannot be read makes the signer throw. -/
def readPoints : List PublicKey → Except String (List Point)
  | [] => .ok []
  | key :: keys => do
    let point ← (match C.toPoint key with
      | none => Except.error "ge_frombytes_vartime failed"
      | some point => Except.ok point)
    let points ← readPoints keys
    pure (point :: points)

def readRing (ring : List (Ringct.CtKey PublicKey)) : Except String (List (Ringct.CtKey Point)) := do
  let dests ← C.readPoints (ring.map (·.dest))
  let masks ← C.readPoints (ring.map (·.mask))
  pure (List.zipWith Ringct.CtKey.mk dests masks)

def readRings : List (TxSourceEntry ℓ) → Except String (List (List (Ringct.CtKey Point)))
  | [] => .ok []
  | src :: sources => do
    let ring ← C.readRing (src.outputs.map (·.2))
    let rings ← readRings sources
    pure (ring :: rings)

/-- The RingCT signature. With more than one source it is a simple one. With one
source the checks for a common index and ring size hold, and the ring has a column
for each of its members. Without sources the source reads past the end of a
vector. -/
def signRct (sources : List (TxSourceEntry ℓ)) (inputs : List (TxIn × Keypair ℓ))
    (outs : List (OutputKeys ℓ)) (message : PublicKey) (random : Ringct.RctRandom ℓ)
    (randomSimple : Ringct.RctSimpleRandom ℓ) :
    Except String (Ringct.RctSig ℓ Point PublicKey × List (ZMod ℓ)) := do
  let amountIn := (sources.map (·.amount)).sum
  let amountOut := (outs.map (·.amount)).sum
  let inSk := List.zipWith (fun (input : TxIn × Keypair ℓ) src =>
    Ringct.CtKey.mk input.2.sec src.mask) inputs sources
  let destinations ← C.readPoints (outs.map (·.key))
  let outamounts := outs.map (·.amount)
  let amountKeys := outs.map fun out => C.ofScalar out.amountKey
  let rings ← C.readRings sources
  match sources with
  | [] => throw "sources[0] of an empty vector"
  | [src] =>
    let fee := if amountOut < amountIn then [amountIn - amountOut] else []
    Ringct.genRct C.toCurve message inSk destinations (outamounts ++ fee)
      ((rings.getD 0 []).map ([·])) amountKeys src.realOutput random
  | _ =>
    Ringct.genRctSimple C.toCurve message inSk destinations (sources.map (·.amount)) outamounts
      (amountIn - amountOut) rings amountKeys (sources.map (·.realOutput)) randomSimple

/-! ### The transaction -/

/-- An input of a RingCT transaction: the amount of a RingCT source is hidden. -/
def hideInput (src : TxSourceEntry ℓ) : TxIn → TxIn
  | .toKey amount keyOffsets kImage => .toKey (if src.rct then 0 else amount) keyOffsets kImage
  | input => input

def constructTxAndGetTxKey (sender : AccountKeys ℓ) (sources : List (TxSourceEntry ℓ))
    (destinations : List TxDestinationEntry) (extra : List UInt8) (unlockTime : Nat) (rct : Bool)
    (random : TxRandom ℓ destinations.length) : Except String (BuiltTx ℓ Point) := do
  let version := if rct then 2 else 1
  let extra ← C.constructExtra sender.accountAddress destinations extra random.txKey
  let inputs ← C.constructInputs sender sources
  let shuffledDsts := List.ofFn fun i => destinations.get (random.shuffle i)
  let outs ← C.constructOutputs version random.txKey 0 shuffledDsts
  Ringct.checkAndAssertThrow ((outs.map (·.amount)).sum ≤ (sources.map (·.amount)).sum)
    "Transaction inputs money less than outputs money"
  let zeroSecretKey := decide (sender.spendSecretKey.val = 0)
  if rct then do
    let tx : TransactionPrefix :=
      { version := version, unlockTime := unlockTime, isMmTx := false
        vin := List.zipWith hideInput sources (inputs.map (·.1))
        vout := outs.map fun out => ⟨0, .toKey out.key⟩
        extra := extra }
    let (rctSignatures, outSk) ← C.signRct sources inputs outs (C.getTransactionPrefixHash tx)
      random.rct random.rctSimple
    Ringct.checkAndAssertThrow (tx.vout.length = outSk.length) "outSk size does not match vout"
    pure { tx := tx, signatures := [], rctSignatures := some rctSignatures }
  else do
    let tx : TransactionPrefix :=
      { version := version, unlockTime := unlockTime, isMmTx := false
        vin := inputs.map (·.1)
        vout := outs.map fun out => ⟨out.amount.toNat, .toKey out.key⟩
        extra := extra }
    let signatures := List.zipWith (C.signRing (C.getTransactionPrefixHash tx) zeroSecretKey)
      sources inputs
    pure { tx := tx, signatures := signatures, rctSignatures := none }

/-! ### The key in the extra bytes -/

/-- Extra bytes that can be edited without losing the key: all fields can be read, and if
the first one that is not a key is a nonce with swap data to encrypt, it has one byte for
its length. -/
def EditableExtra (extra : List UInt8) : Prop :=
  ∃ fields, parseTxExtra extra = some fields ∧ ∀ data rest,
    (fields.filter fun field => !field.pubKey?.isSome) = .nonce data :: rest →
      (getSwapdataEncryptedBuff (data.length + 1) data).isSome = true → data.length < 128

variable {C}

variable {extra : List UInt8} {destinations : List TxDestinationEntry} {txKey : ZMod ℓ}
  {outs : List (OutputKeys ℓ)} {sources : List (TxSourceEntry ℓ)}

/-- The removal of old keys and the new key, on extra bytes that parse: fields with
the new key, or bytes that do not parse any more because of padding. -/
theorem addTxPubKeyToExtra_removeField {fields : List TxExtraField}
    (hparse : parseTxExtra extra = some fields) (key : PublicKey) :
    let kept := fields.filter fun field => !field.pubKey?.isSome
    let edited := addTxPubKeyToExtra (removeFieldFromTxExtra extra (·.pubKey?.isSome)).2 key
    parseTxExtra edited = none ∨
      edited = (kept ++ [TxExtraField.pubKey key]).flatMap TxExtraField.write ∧
        KeyedFields key (kept ++ [TxExtraField.pubKey key]) := by
  intro kept edited
  have hreadable : ∀ field ∈ kept, field.Readable := fun field hfield =>
    readable_of_parseTxExtra hparse field (List.mem_filter.mp hfield).1
  have hedited : edited = addTxPubKeyToExtra (kept.flatMap TxExtraField.write) key := by
    simp only [edited, removeFieldFromTxExtra, hparse, kept]
  by_cases hpadding : kept.any TxExtraField.isPadding = true
  · left
    rw [hedited, parseTxExtra_addTxPubKeyToExtra hreadable, if_pos hpadding]
  right
  refine ⟨by simp [hedited, addTxPubKeyToExtra, TxExtraField.write], ?_⟩
  refine .concat hreadable (fun field hfield => ?_) ?_ key
  · simpa using fun h => hpadding (List.any_eq_true.mpr ⟨field, hfield, h⟩)
  · rw [List.findSome?_eq_none_iff]
    intro field hfield
    simpa using (List.mem_filter.mp hfield).2

theorem length_encryptSwapData (txKey : ZMod ℓ) (data : List UInt8) :
    (C.encryptSwapDataWithTxSecretKey txKey data).length = data.length := by
  unfold encryptSwapDataWithTxSecretKey
  split
  · rfl
  · exact C.length_doChachaCrypt _ data

theorem pubKeyFromExtra_constructExtra {sender : AccountPublicAddress} {built : List UInt8}
    (heditable : EditableExtra extra)
    (h : C.constructExtra sender destinations extra txKey = .ok built) :
    getTxPubKeyFromExtra built = C.secretKeyToPublicKey txKey := by
  obtain ⟨fields, hparse, hnonces⟩ := heditable
  have hcases := addTxPubKeyToExtra_removeField hparse (C.secretKeyToPublicKey txKey)
  unfold constructExtra at h
  dsimp only at h hcases
  generalize addTxPubKeyToExtra (removeFieldFromTxExtra extra (·.pubKey?.isSome)).2
    (C.secretKeyToPublicKey txKey) = edited at h hcases
  have hnotKey : ∀ field ∈ fields.filter fun field => !field.pubKey?.isSome,
      field.pubKey? = none := by
    simp
  generalize (fields.filter fun field => !field.pubKey?.isSome) = kept
    at hcases hnonces hnotKey
  rcases hcases with hnone | ⟨rfl, hkeyed⟩
  · -- behind padding the key cannot be read, and the construction fails
    simp [isSwapTx, hnone] at h
  have hedited := hkeyed.parseTxExtra_eq
  split at h
  · rename_i hswap
    simp only [isSwapTx, hedited] at hswap
    cases kept with
    | nil => simp [TxExtraField.nonce?] at hswap
    | cons field rest =>
      obtain ⟨field', hwrite, hshape⟩ := encryptUserData_flatMap_write
        (length_encryptSwapData (C := C) txKey) (hnotKey field (by simp))
        (fun data hdata => by
          subst hdata
          have hbuff : (getSwapdataEncryptedBuff (data.length + 1) data).isSome = true := hswap
          exact ⟨hbuff, hnonces data rest rfl hbuff⟩) (rest ++ [TxExtraField.pubKey _])
        (((field :: rest) ++ [TxExtraField.pubKey (C.secretKeyToPublicKey txKey)]).flatMap
          TxExtraField.write).length
      rw [← Except.ok.inj h]
      refine (congrArg getTxPubKeyFromExtra hwrite).trans
        (hkeyed.of_sameShape (.cons hshape ?_)).pubKeyFromExtra_eq
      exact List.forall₂_same.mpr fun field _ => .refl field
  · simp only [hedited] at h
    split at h
    · rw [← Except.ok.inj h]
      exact hkeyed.pubKeyFromExtra_eq
    split at h
    · cases h
    split at h
    · cases h
    rename_i paymentId _
    -- the nonces are replaced by the encrypted payment id
    have hlength : (setEncryptedPaymentIdToTxExtraNonce paymentId).length = 9 := by
      simp [setEncryptedPaymentIdToTxExtraNonce]
    have hle : (setEncryptedPaymentIdToTxExtraNonce paymentId).length ≤ txExtraNonceMaxCount := by
      rw [hlength]
      decide
    simp only [removeFieldFromTxExtra, hedited, addExtraNonceToTxExtra, if_pos hle] at h
    have hwrite : TxExtraField.write (.nonce (setEncryptedPaymentIdToTxExtraNonce paymentId)) =
        0x02 :: UInt8.ofNat (setEncryptedPaymentIdToTxExtraNonce paymentId).length ::
          setEncryptedPaymentIdToTxExtraNonce paymentId := by
      rw [TxExtraField.write, writeString, writeVarint, if_pos (by rw [hlength]; decide)]
      rfl
    have hread := (hkeyed.replaceNonce hle).pubKeyFromExtra_eq
    rw [List.flatMap_append, List.flatMap_singleton, hwrite] at hread
    rwa [← Except.ok.inj h]

/-! ### Outputs and their amounts -/

theorem constructOutput_inv {version : Nat} {i : Nat} {dst : TxDestinationEntry}
    {out : OutputKeys ℓ} (h : C.constructOutput version txKey i dst = .ok out) :
    ∃ derivation, C.generateKeyDerivation dst.addr.viewPublicKey txKey = some derivation ∧
      C.derivePublicKey derivation i dst.addr.spendPublicKey = some out.key ∧
      out.amountKey = C.derivationToScalar derivation i ∧ out.amount = dst.amount := by
  unfold constructOutput at h
  split at h
  · split at h
    · cases h
    rename_i derivation hderivation
    split at h
    · cases h
    · rename_i key hkey
      cases h
      exact ⟨derivation, hderivation, hkey, rfl, rfl⟩
  · cases h

theorem constructOutputs_inv {version : Nat} {start : Nat} {dsts : List TxDestinationEntry}
    (h : C.constructOutputs version txKey start dsts = .ok outs) :
    outs.length = dsts.length ∧ ∀ i dst, dsts[i]? = some dst →
      ∃ out, outs[i]? = some out ∧ C.constructOutput version txKey (start + i) dst = .ok out := by
  induction dsts generalizing start outs with
  | nil =>
    cases h
    simp
  | cons dst dsts ih =>
    obtain ⟨out, hout, h⟩ := Ringct.bind_eq_ok.mp h
    obtain ⟨rest, hrest, h⟩ := Ringct.bind_eq_ok.mp h
    cases h
    obtain ⟨hlength, hget⟩ := ih hrest
    refine ⟨by simp [hlength], fun i dst' hdst => ?_⟩
    cases i with
    | zero =>
      cases hdst
      exact ⟨out, rfl, hout⟩
    | succ i =>
      obtain ⟨out', hout', hconstruct⟩ := hget i dst' hdst
      exact ⟨out', hout', by rwa [← Nat.add_right_comm, Nat.add_assoc] at hconstruct⟩

omit [AddCommGroup Point] [Module (ZMod ℓ) Point] in
theorem length_of_readPoints {keys : List PublicKey} {points : List Point}
    (h : C.readPoints keys = .ok points) : points.length = keys.length := by
  induction keys generalizing points with
  | nil =>
    cases h
    rfl
  | cons key keys ih =>
    obtain ⟨point, -, h⟩ := Ringct.bind_eq_ok.mp h
    obtain ⟨rest, hrest, h⟩ := Ringct.bind_eq_ok.mp h
    cases h
    rw [List.length_cons, List.length_cons, ih hrest]

/-- Whoever has the amount key of an output reads its amount. -/
theorem decode_of_signRct [DecidableEq Point] (horder : 2 ^ 64 ≤ ℓ)
    {inputs : List (TxIn × Keypair ℓ)} {message : PublicKey} {random : Ringct.RctRandom ℓ}
    {randomSimple : Ringct.RctSimpleRandom ℓ} {rv : Ringct.RctSig ℓ Point PublicKey}
    {outSk : List (ZMod ℓ)}
    (h : C.signRct sources inputs outs message random randomSimple = .ok (rv, outSk)) {i : Nat}
    {out : OutputKeys ℓ} (hout : outs[i]? = some out) :
    ∃ mask, Ringct.decode C.toCurve rv.type rv (C.ofScalar out.amountKey) i =
      .ok (out.amount, some mask) := by
  unfold signRct at h
  obtain ⟨points, hpoints, h⟩ := Ringct.bind_eq_ok.mp h
  obtain ⟨rings, -, h⟩ := Ringct.bind_eq_ok.mp h
  have hlt : i < outs.length := (List.getElem?_eq_some_iff.mp hout).1
  have hi : i < points.length := by simpa [length_of_readPoints hpoints] using hlt
  have hamount : (outs.map (·.amount))[i]? = some out.amount := by simp [hout]
  have hkey : (outs.map fun out => C.ofScalar out.amountKey)[i]? =
      some (C.ofScalar out.amountKey) := by simp [hout]
  split at h
  · cases h
  · have hamount' : ∀ fee : List UInt64,
        (outs.map (·.amount) ++ fee)[i]? = some out.amount := by
      intro fee
      rw [List.getElem?_append_left (by simpa using hlt), hamount]
    exact Ringct.decode_of_genRct horder h hi (hamount' _) hkey
  · exact Ringct.decode_of_genRctSimple horder h hi hamount hkey

theorem constructTx_inv {sender : AccountKeys ℓ} {unlockTime : Nat} {rct : Bool}
    {random : TxRandom ℓ destinations.length} {built : BuiltTx ℓ Point}
    (h : C.constructTxAndGetTxKey sender sources destinations extra unlockTime rct random =
      .ok built) :
    ∃ outs, C.constructExtra sender.accountAddress destinations extra random.txKey =
        .ok built.tx.extra ∧
      C.constructOutputs (if rct then 2 else 1) random.txKey 0
        (List.ofFn fun i => destinations.get (random.shuffle i)) = .ok outs ∧
      built.tx.vout.map (·.target) = outs.map (fun out => .toKey out.key) ∧
      (rct = true → ∃ inputs message rv outSk, built.rctSignatures = some rv ∧
        C.signRct sources inputs outs message random.rct random.rctSimple = .ok (rv, outSk)) := by
  unfold constructTxAndGetTxKey at h
  obtain ⟨extra', hextra, h⟩ := Ringct.bind_eq_ok.mp h
  obtain ⟨inputs, -, h⟩ := Ringct.bind_eq_ok.mp h
  obtain ⟨outs, houts, h⟩ := Ringct.bind_eq_ok.mp h
  obtain ⟨-, h⟩ := Ringct.assertThrow_bind_eq_ok.mp h
  cases rct with
  | false =>
    cases h
    exact ⟨outs, hextra, houts, by simp, by simp⟩
  | true =>
    obtain ⟨⟨rv, outSk⟩, hsign, h⟩ := Ringct.bind_eq_ok.mp h
    obtain ⟨-, h⟩ := Ringct.assertThrow_bind_eq_ok.mp h
    cases h
    exact ⟨outs, hextra, houts, by simp, fun _ => ⟨inputs, _, rv, outSk, rfl, hsign⟩⟩

/-! ### Sender and receiver agree -/

def AddressOf (acc : C.Account) (addr : AccountPublicAddress) : Prop :=
  acc.accountAddress.spendPublicKey = addr.spendPublicKey ∧
    acc.accountAddress.viewPublicKey = addr.viewPublicKey

/-- An account has received an amount with output `i`: with the key in the extra
bytes it finds the output, has the secret key behind it, and reads its amount. -/
structure Received [DecidableEq Point] (built : BuiltTx ℓ Point) (rct : Bool) (i : Nat)
    (acc : C.Account) (amount : UInt64) : Prop where
  spendable : ∃ key inEphemeral image,
    (built.tx.vout.map (·.target))[i]? = some (.toKey key) ∧
      C.isOutToAcc acc.toAccountKeys key (getTxPubKeyFromExtra built.tx.extra) i = true ∧
      C.generateKeyImageHelper acc.toAccountKeys (getTxPubKeyFromExtra built.tx.extra) i =
        some (inEphemeral, image) ∧
      C.secretKeyToPublicKey inEphemeral.sec = key
  decoded : rct = true → ∃ rv derivation mask, built.rctSignatures = some rv ∧
    C.generateKeyDerivation (getTxPubKeyFromExtra built.tx.extra) acc.viewSecretKey =
      some derivation ∧
    Ringct.decode C.toCurve rv.type rv (C.ofScalar (C.derivationToScalar derivation i)) i =
      .ok (amount, some mask)

/-- Every destination has an output of its own, and its account receives it. -/
def AllReceived [DecidableEq Point] (C : TxCrypto ℓ Point) (built : BuiltTx ℓ Point) (rct : Bool)
    (destinations : List TxDestinationEntry) : Prop :=
  ∃ output : Fin destinations.length ≃ Fin built.tx.vout.length,
    ∀ (d : Fin destinations.length) (acc : C.Account),
      AddressOf acc (destinations.get d).addr →
        Received built rct (output d) acc (destinations.get d).amount

/-- A transaction that is constructed from editable extra bytes reaches all its
destinations, whatever its sources and whatever is random. -/
theorem construct_tx_received [DecidableEq Point] (horder : 2 ^ 64 ≤ ℓ) (C : TxCrypto ℓ Point)
    (sender : AccountKeys ℓ) (sources : List (TxSourceEntry ℓ))
    (destinations : List TxDestinationEntry) (extra : List UInt8) (unlockTime : Nat) (rct : Bool)
    (random : TxRandom ℓ destinations.length) (built : BuiltTx ℓ Point)
    (heditable : EditableExtra extra)
    (h : C.constructTxAndGetTxKey sender sources destinations extra unlockTime rct random =
      .ok built) : AllReceived C built rct destinations := by
  obtain ⟨outs, hextra, houts, hvout, hrct⟩ := constructTx_inv h
  have hkey := pubKeyFromExtra_constructExtra heditable hextra
  obtain ⟨hlength, hget⟩ := constructOutputs_inv houts
  have hvout_length : built.tx.vout.length = destinations.length := by
    have hlengths := congrArg List.length hvout
    simpa [hlength] using hlengths
  -- the output of a destination is where the shuffle has put it
  refine ⟨random.shuffle.symm.trans (finCongr hvout_length.symm), fun d acc hacc => ?_⟩
  set i := random.shuffle.symm d
  have hdst : (List.ofFn fun i => destinations.get (random.shuffle i))[(i : Nat)]? =
      some (destinations.get d) := by
    simp [i]
  obtain ⟨out, hout, hconstruct⟩ := hget i _ hdst
  obtain ⟨derivation, hderivation, hderived, hamountKey, hamount⟩ := constructOutput_inv hconstruct
  rw [Nat.zero_add] at hderived hamountKey
  rw [← hacc.2] at hderivation
  rw [← hacc.1] at hderived
  have hindex : ((random.shuffle.symm.trans (finCongr hvout_length.symm)) d : Nat) = i := rfl
  rw [hindex]
  refine ⟨?_, fun hrct_true => ?_⟩
  · obtain ⟨inEphemeral, image, hhelper, hsecret⟩ :=
      acc.generateKeyImageHelper_of_sent hderivation hderived
    refine ⟨out.key, inEphemeral, image, by simp [hvout, hout], ?_, ?_, hsecret⟩
    · rw [hkey]
      exact acc.isOutToAcc_of_sent hderivation hderived
    · rwa [hkey]
  · obtain ⟨inputs, message, rv, outSk, hrv, hsign⟩ := hrct hrct_true
    obtain ⟨mask, hdecode⟩ := decode_of_signRct horder hsign hout
    refine ⟨rv, derivation, mask, hrv, ?_, ?_⟩
    · rw [hkey]
      exact (acc.of_sent hderivation hderived).1
    · rwa [hamountKey, hamount] at hdecode

end

/-! ### A transaction over the scalars as points -/

open Ringct (sampleOrder)

def sampleBytes (P : ZMod sampleOrder) : PublicKey :=
  ⟨littleEndian 32 P.val, length_littleEndian 32 P.val⟩

def sampleTxCrypto : TxCrypto sampleOrder (ZMod sampleOrder) where
  G := 1
  H := (2 : Nat)
  ofPoint := sampleBytes
  ofScalar := sampleBytes
  hashToPoint := id
  hashToScalar := fun keys => ((keys.map fun key => ofLittleEndian key.toList).sum : Nat)
  cnFastHash := fun keys => keys.headD (nullBlob 32)
  baseHash := fun _ _ _ _ _ => nullBlob 32
  toPoint := fun key => some (ofLittleEndian key.toList : Nat)
  toPoint_ofPoint := by
    intro P
    have : NeZero sampleOrder := ⟨by decide⟩
    have hlt : P.val < 256 ^ 32 := lt_trans P.val_lt (by decide)
    change some ((ofLittleEndian (littleEndian 32 P.val) : Nat) : ZMod sampleOrder) = some P
    rw [ofLittleEndian_littleEndian hlt, ZMod.natCast_zmod_val]
  hashBytesToScalar := fun bytes => (ofLittleEndian bytes : Nat)
  hashToEc := fun _ => 1
  hashes :=
    { cnFastHash := fun _ => nullHash, cnSlowHash := fun _ _ _ => nullHash
      chukwaSlowHashV2 := fun _ => nullHash, genesisBlockHash := nullHash }
  doChachaCrypt := fun _ data => data
  length_doChachaCrypt := fun _ _ => rfl
  swapAddressEncryptionPubKey := nullBlob 32
  generateRingSignature := fun _ _ _ _ _ => []

def sampleAccount : sampleTxCrypto.Account where
  accountAddress :=
    { spendPublicKey := sampleTxCrypto.secretKeyToPublicKey (5 : Nat)
      viewPublicKey := sampleTxCrypto.secretKeyToPublicKey (7 : Nat)
      isSwapAddr := false }
  spendSecretKey := (5 : Nat)
  viewSecretKey := (7 : Nat)
  spend_eq := rfl
  view_eq := rfl

def sampleSource : TxSourceEntry sampleOrder :=
  let txKey := sampleTxCrypto.secretKeyToPublicKey (3 : Nat)
  let key := ((sampleTxCrypto.generateKeyImageHelper sampleAccount.toAccountKeys txKey 0).map
    fun r => r.1.pub).getD (nullBlob 32)
  { outputs := [(0, ⟨nullBlob 32, nullBlob 32⟩), (1, ⟨key, nullBlob 32⟩)]
    realOutput := 1, realOutTxKey := txKey, realOutputInTxIndex := 0, amount := 10, rct := true
    mask := 0 }

def sampleDestination : TxDestinationEntry := ⟨9, sampleAccount.accountAddress⟩

def sampleRandom : TxRandom sampleOrder 1 where
  txKey := (11 : Nat)
  shuffle := Equiv.refl _
  rct := ⟨Ringct.sampleRanges, Ringct.sampleMlsag⟩
  rctSimple := ⟨Ringct.sampleRanges, fun n => (n + 1 : Nat), fun _ => Ringct.sampleMlsag⟩

def sampleConstruct (extra : List UInt8) (rct : Bool) :
    Except String (BuiltTx sampleOrder (ZMod sampleOrder)) :=
  sampleTxCrypto.constructTxAndGetTxKey sampleAccount.toAccountKeys [sampleSource]
    [sampleDestination] extra 0 rct sampleRandom

/-- A nonce with a payment id and swap data, and one of 200 bytes. -/
def sampleSwapExtra : List UInt8 :=
  [0x02, 103, 0x00] ++ List.replicate 32 5 ++ [0x02, 68] ++ List.replicate 68 7 ++
    [0x02, 200, 1] ++ List.replicate 200 9

/-- With swap data both kinds of transactions are received. -/
theorem construct_tx_received_swap :
    EditableExtra sampleSwapExtra ∧ ∀ rct, ∃ built, sampleConstruct sampleSwapExtra rct =
      .ok built ∧ AllReceived sampleTxCrypto built rct [sampleDestination] := by
  have heditable : EditableExtra sampleSwapExtra := by
    refine ⟨[.nonce (0x00 :: List.replicate 32 5 ++ [0x02, 68] ++ List.replicate 68 7),
      .nonce (List.replicate 200 9)], by decide +kernel, fun data rest hfirst _ => ?_⟩
    cases hfirst
    decide
  have hbuilt : ∀ rct, (sampleConstruct sampleSwapExtra rct).isOk = true := by decide +kernel
  refine ⟨heditable, fun rct => ?_⟩
  cases hconstruct : sampleConstruct sampleSwapExtra rct with
  | error e =>
    have hok := hbuilt rct
    rw [hconstruct] at hok
    cases hok
  | ok built =>
    exact ⟨built, rfl, construct_tx_received (by decide) sampleTxCrypto
      sampleAccount.toAccountKeys [sampleSource] [sampleDestination] sampleSwapExtra 0 rct
      sampleRandom built heditable hconstruct⟩

def truncatedNonce : List UInt8 := [0x02, 33]

def outputLost (built : BuiltTx sampleOrder (ZMod sampleOrder)) : Bool :=
  match built.tx.vout.map TxOut.target with
  | [TxoutTarget.toKey key] => !sampleTxCrypto.isOutToAcc sampleAccount.toAccountKeys key
      (getTxPubKeyFromExtra built.tx.extra) 0
  | _ => false

theorem not_allReceived_of_outputLost {built : BuiltTx sampleOrder (ZMod sampleOrder)}
    (h : outputLost built = true) :
    ¬ AllReceived sampleTxCrypto built false [sampleDestination] := by
  intro hall
  obtain ⟨output, hreceived⟩ := hall
  obtain ⟨⟨key, _, _, htarget, hfound, -⟩, -⟩ := hreceived ⟨0, by decide⟩ sampleAccount ⟨rfl, rfl⟩
  unfold outputLost at h
  split at h
  · rename_i key' htargets
    have hlength := congrArg List.length htargets
    have hlt := (output ⟨0, by decide⟩).isLt
    have hzero : (output ⟨0, by decide⟩ : Nat) = 0 := by
      rw [List.length_map, List.length_singleton] at hlength
      omega
    rw [hzero] at hfound htarget
    rw [htargets] at htarget
    cases htarget
    rw [hfound] at h
    cases h
  · cases h

/-- The key becomes the data of the truncated nonce, and the output is lost. -/
theorem truncated_nonce_loses_output :
    ∃ built, sampleConstruct truncatedNonce false = .ok built ∧
      ¬ AllReceived sampleTxCrypto built false [sampleDestination] := by
  have hlost : (sampleConstruct truncatedNonce false).toOption.any outputLost = true := by
    decide +kernel
  obtain ⟨built, hbuilt, hlost⟩ := (Option.any_eq_true _ _).mp hlost
  refine ⟨built, ?_, not_allReceived_of_outputLost hlost⟩
  cases hconstruct : sampleConstruct truncatedNonce false with
  | error e =>
    rw [hconstruct] at hbuilt
    cases hbuilt
  | ok built' =>
    rw [hconstruct] at hbuilt
    cases hbuilt
    rfl

end TxCrypto

end Lethean
