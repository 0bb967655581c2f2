import Lethean.CryptonoteCore.ConstructTx

/-!
# Lethean.CryptonoteCore.SwapTx

Swap transactions. The sender puts a payment id and the address on the other
chain into one extra nonce (`set_swap_tx_extra`); the construction of the
transaction encrypts the address for the swap operator, who finds it again with
`get_swap_data_from_tx`.

The encryption walks over the raw bytes and the operator over parsed fields. Both
are led by the same lengths: the data of the nonce are 103 bytes, whatever stands
in the payment id and in the keys.
-/

namespace Lethean

open TxExtraField

/-! ### The entry of an address -/

/-- `swap_addr_extra_userdata_entry`, packed: the keys of an address and a
checksum. -/
structure SwapAddrExtraUserdataEntry where
  spendPublicKey : PublicKey
  viewPublicKey : PublicKey
  checksum : Blob 4
  deriving DecidableEq

namespace SwapAddrExtraUserdataEntry

/-- The bytes of the `account_public_address_base`. -/
def addr (entry : SwapAddrExtraUserdataEntry) : List UInt8 :=
  entry.spendPublicKey.toList ++ entry.viewPublicKey.toList

def toBytes (entry : SwapAddrExtraUserdataEntry) : List UInt8 := entry.addr ++ entry.checksum.toList

def ofBytes (buff : List UInt8) : Option SwapAddrExtraUserdataEntry :=
  if h : buff.length = swapEntrySize then
    have hlength : buff.length = 68 := h
    some
      { spendPublicKey := ⟨buff.take 32, by simp [hlength]⟩
        viewPublicKey := ⟨(buff.drop 32).take 32, by simp [hlength]⟩
        checksum := ⟨buff.drop 64, by simp [hlength]⟩ }
  else none

theorem length_toBytes (entry : SwapAddrExtraUserdataEntry) :
    entry.toBytes.length = swapEntrySize := by
  simp [toBytes, addr, swapEntrySize]

theorem ofBytes_toBytes (entry : SwapAddrExtraUserdataEntry) :
    ofBytes entry.toBytes = some entry := by
  obtain ⟨⟨spend, hspend⟩, ⟨view, hview⟩, ⟨checksum, hchecksum⟩⟩ := entry
  have hdrop : spend.drop 64 = [] := List.drop_of_length_le (by omega)
  rw [ofBytes, dif_pos (length_toBytes _)]
  simp [toBytes, addr, List.Vector.toList, hspend, hview, List.drop_append, hdrop]

end SwapAddrExtraUserdataEntry

/-! ### The nonce -/

/-- `get_payment_id_from_swap_tx_extra_nonce`: like the one for other transactions,
but more may follow. -/
def getPaymentIdFromSwapTxExtraNonce (extraNonce : List UInt8) : Option Hash :=
  match extraNonce with
  | [] => none
  | tag :: data =>
    if h : 32 ≤ data.length then
      if tag = 0x00 then some ⟨data.take 32, by simp [h]⟩ else none
    else none

def setPaymentIdToTxExtraNonce (paymentId : Hash) : List UInt8 := 0x00 :: paymentId.toList

def swapUserdataEntry (data : List UInt8) : List UInt8 :=
  0x02 :: UInt8.ofNat swapEntrySize :: data

def swapNonce (paymentId : Hash) (data : List UInt8) : List UInt8 :=
  setPaymentIdToTxExtraNonce paymentId ++ swapUserdataEntry data

section

variable {paymentId : Hash} {data : List UInt8}

theorem length_swapNonce (h : data.length = swapEntrySize) :
    (swapNonce paymentId data).length = 103 := by
  simp [swapNonce, setPaymentIdToTxExtraNonce, swapUserdataEntry, h, swapEntrySize]

theorem swapNonce_eq_cons : ∃ first rest, swapNonce paymentId data = 0x00 :: first :: rest ∧
    (0x00 :: first :: rest).take 33 = setPaymentIdToTxExtraNonce paymentId ∧
    (0x00 :: first :: rest).drop 33 = swapUserdataEntry data := by
  have hlength : (setPaymentIdToTxExtraNonce paymentId).length = 33 := by
    simp [setPaymentIdToTxExtraNonce]
  obtain ⟨id, hid⟩ := paymentId
  match id, hid with
  | first :: id, hid =>
    have hcons : 0x00 :: first :: (id ++ swapUserdataEntry data) =
        setPaymentIdToTxExtraNonce ⟨first :: id, hid⟩ ++ swapUserdataEntry data := rfl
    refine ⟨first, id ++ swapUserdataEntry data, rfl, ?_, ?_⟩
    · rw [hcons, List.take_left' hlength]
    · rw [hcons, List.drop_left' hlength]

theorem swapPaymentId_swapNonce (paymentId : Hash) (data : List UInt8) :
    getPaymentIdFromSwapTxExtraNonce (swapNonce paymentId data) = some paymentId := by
  have hlength : paymentId.toList.length = 32 := paymentId.toList_length
  have hcons : swapNonce paymentId data =
      0x00 :: (paymentId.toList ++ swapUserdataEntry data) := rfl
  rw [hcons, getPaymentIdFromSwapTxExtraNonce, dif_pos (by simp [hlength]), if_pos rfl]
  exact congrArg some (Subtype.ext (List.take_left' hlength))

section

variable (h : data.length = swapEntrySize)
include h

/-- The operator finds the swap data behind the payment id. -/
theorem swapdata_swapNonce (n : Nat) :
    getSwapdataEncryptedBuff (n + 2) (swapNonce paymentId data) = some data := by
  obtain ⟨first, rest, hcons, -, hdrop⟩ := @swapNonce_eq_cons paymentId data
  rw [hcons, getSwapdataEncryptedBuff, if_neg (by decide), if_pos (.inl rfl), hdrop,
    swapUserdataEntry, getSwapdataEncryptedBuff, if_pos rfl, if_pos ⟨by decide, h.ge⟩,
    List.take_of_length_le h.le]

theorem encryptUserDataScan_swapNonce (crypt : List UInt8 → List UInt8) (n : Nat) :
    encryptUserDataScan crypt (n + 2) (swapNonce paymentId data) =
      .encrypted (swapNonce paymentId (crypt data)) := by
  obtain ⟨first, rest, hcons, htake, hdrop⟩ := @swapNonce_eq_cons paymentId data
  rw [hcons, encryptUserDataScan, if_neg (by decide), if_pos (.inl rfl), hdrop, htake,
    swapUserdataEntry, encryptUserDataScan, if_pos rfl, if_pos ⟨by decide, h.ge⟩,
    List.take_of_length_le h.le, List.drop_of_length_le h.le, List.append_nil]
  rfl

theorem write_nonce_swapNonce :
    (TxExtraField.nonce (swapNonce paymentId data)).write =
      0x02 :: 103 :: swapNonce paymentId data := by
  rw [TxExtraField.write, writeString, length_swapNonce h, writeVarint, if_pos (by decide)]
  rfl

/-- The walk over the raw bytes encrypts the swap data and nothing else. -/
theorem encryptUserData_swapNonce {crypt : List UInt8 → List UInt8}
    (hcrypt : (crypt data).length = data.length) (rest : List UInt8) (n : Nat) :
    encryptUserData crypt (n + 1) ((nonce (swapNonce paymentId data)).write ++ rest) =
      (nonce (swapNonce paymentId (crypt data))).write ++ rest := by
  have hlength := @length_swapNonce paymentId data h
  have hsize : (103 : UInt8).toNat = 103 := rfl
  rw [write_nonce_swapNonce h, write_nonce_swapNonce (hcrypt.trans h), List.cons_append,
    List.cons_append, encryptUserData, if_neg (by decide), if_pos rfl, hsize,
    if_pos (by simp [hlength]), List.take_left' hlength, List.drop_left' hlength,
    encryptUserDataScan_swapNonce h]

end

end

/-! ### The transaction -/

def swapFields (paymentId : Hash) (data : List UInt8) (key : PublicKey) : List TxExtraField :=
  [nonce (swapNonce paymentId data), pubKey key]

theorem keyedFields_swapFields {paymentId : Hash} {data : List UInt8} (key : PublicKey)
    (h : data.length = swapEntrySize) : KeyedFields key (swapFields paymentId data key) := by
  refine @KeyedFields.concat [nonce (swapNonce paymentId data)] ?_ ?_ rfl key
  · intro field hfield
    obtain rfl : field = nonce (swapNonce paymentId data) := by simpa using hfield
    have hlength : (swapNonce paymentId data).length ≤ txExtraNonceMaxCount := by
      rw [length_swapNonce h]
      decide
    exact hlength
  · intro field hfield
    obtain rfl : field = nonce (swapNonce paymentId data) := by simpa using hfield
    rfl

theorem isSwapTx_swapFields {paymentId : Hash} {data : List UInt8} (key : PublicKey)
    (h : data.length = swapEntrySize) :
    isSwapTx ((swapFields paymentId data key).flatMap TxExtraField.write) = true := by
  have hnonce : (swapFields paymentId data key).findSome? TxExtraField.nonce? =
      some (swapNonce paymentId data) := rfl
  simp only [isSwapTx, (keyedFields_swapFields key h).parseTxExtra_eq, hnonce]
  rw [length_swapNonce h, swapdata_swapNonce h]
  rfl

namespace TxCrypto

variable {ℓ : Nat} {Point : Type} (C : TxCrypto ℓ Point)

/-- `cn_fast_hash_64`: one of the four words of the hash, as the bytes it is stored
in. -/
def cnFastHash64 (data : List UInt8) : List UInt8 :=
  let hash := (C.hashes.cnFastHash data).toList
  (hash.drop (8 * ((hash.getD 5 0).toNat % 4))).take 8

theorem length_cnFastHash64 (data : List UInt8) : (C.cnFastHash64 data).length = 8 := by
  have hlength : (C.hashes.cnFastHash data).toList.length = 32 := List.Vector.toList_length _
  simp only [cnFastHash64, List.length_take, List.length_drop, hlength]
  omega

def swapChecksum (addr : List UInt8) : Blob 4 :=
  ⟨(C.cnFastHash64 addr).take 4, by simp [C.length_cnFastHash64]⟩

/-- `swap_entry.addr = swap_addr` and `calc_checksum`. -/
def swapEntry (swapAddr : AccountPublicAddress) : SwapAddrExtraUserdataEntry :=
  { spendPublicKey := swapAddr.spendPublicKey
    viewPublicKey := swapAddr.viewPublicKey
    checksum :=
      C.swapChecksum (swapAddr.spendPublicKey.toList ++ swapAddr.viewPublicKey.toList) }

def fillSwapinfoUserdataEntry (extraNonce : List UInt8) (swapAddr : AccountPublicAddress) :
    Option (List UInt8) :=
  if swapAddr.isSwapAddr then
    some (extraNonce ++ swapUserdataEntry (C.swapEntry swapAddr).toBytes)
  else none

def setSwapTxExtra (extra : List UInt8) (paymentId : Hash) (swapAddr : AccountPublicAddress) :
    Option (List UInt8) :=
  let paymentIdEntry := setPaymentIdToTxExtraNonce paymentId
  (C.fillSwapinfoUserdataEntry [] swapAddr).map fun swapAddressEntry =>
    extra ++ 0x02 :: UInt8.ofNat (paymentIdEntry.length + swapAddressEntry.length) ::
      (paymentIdEntry ++ swapAddressEntry)

def isChecksumValid (entry : SwapAddrExtraUserdataEntry) : Bool :=
  entry.checksum = C.swapChecksum entry.addr

theorem setSwapTxExtra_nil (paymentId : Hash) {swapAddr : AccountPublicAddress}
    (h : swapAddr.isSwapAddr = true) :
    C.setSwapTxExtra [] paymentId swapAddr =
      some (nonce (swapNonce paymentId (C.swapEntry swapAddr).toBytes)).write := by
  have hlength := @length_swapNonce paymentId _ (C.swapEntry swapAddr).length_toBytes
  have hsize : (setPaymentIdToTxExtraNonce paymentId).length +
      (swapUserdataEntry (C.swapEntry swapAddr).toBytes).length = 103 := by
    rwa [← List.length_append]
  rw [write_nonce_swapNonce (C.swapEntry swapAddr).length_toBytes]
  simp only [setSwapTxExtra, fillSwapinfoUserdataEntry, if_pos h, Option.map_some, List.nil_append,
    hsize]
  rfl

variable [AddCommGroup Point] [Module (ZMod ℓ) Point]

def getSwapDataFromTx (extra : List UInt8) (sk : ZMod ℓ) : Option AccountPublicAddress := do
  let fields ← parseTxExtra extra
  let extraNonce ← fields.findSome? TxExtraField.nonce?
  let txPub := getTxPubKeyFromExtra extra
  if txPub = nullBlob 32 then none
  else
    let buff ← getSwapdataEncryptedBuff (extraNonce.length + 1) extraNonce
    let derivation ← C.generateKeyDerivation txPub sk
    let entry ← SwapAddrExtraUserdataEntry.ofBytes (C.doChachaCrypt derivation buff)
    if C.isChecksumValid entry then some ⟨entry.spendPublicKey, entry.viewPublicKey, true⟩ else none

variable {C}

/-- The construction encrypts the swap data for the operator and appends the key. -/
theorem constructExtra_swapNonce (sender : AccountPublicAddress)
    (destinations : List TxDestinationEntry) (paymentId : Hash) {data : List UInt8}
    (h : data.length = swapEntrySize) (txKey : ZMod ℓ) :
    C.constructExtra sender destinations (nonce (swapNonce paymentId data)).write txKey =
      .ok ((swapFields paymentId (C.encryptSwapDataWithTxSecretKey txKey data)
        (C.secretKeyToPublicKey txKey)).flatMap TxExtraField.write) := by
  have hkeyed := @keyedFields_swapFields paymentId data (C.secretKeyToPublicKey txKey) h
  have hparse : parseTxExtra (nonce (swapNonce paymentId data)).write =
      some [nonce (swapNonce paymentId data)] := by
    have hsingle := @parseTxExtra_flatMap_write [nonce (swapNonce paymentId data)]
      (fun field hfield => hkeyed.readable field (by simp_all [swapFields]))
      (fun field hfield => hkeyed.isPadding_eq field (by simp_all [swapFields]))
    simpa using hsingle
  have hadded : addTxPubKeyToExtra (removeFieldFromTxExtra (nonce (swapNonce paymentId data)).write
      (·.pubKey?.isSome)).2 (C.secretKeyToPublicKey txKey) =
      (swapFields paymentId data (C.secretKeyToPublicKey txKey)).flatMap TxExtraField.write := by
    rw [removeFieldFromTxExtra, hparse]
    simp [addTxPubKeyToExtra, swapFields, TxExtraField.pubKey?, TxExtraField.write]
  have hpos : ∃ n, ((swapFields paymentId data (C.secretKeyToPublicKey txKey)).flatMap
      TxExtraField.write).length = n + 1 :=
    Nat.exists_eq_succ_of_ne_zero (by simp [swapFields, TxExtraField.write])
  obtain ⟨n, hn⟩ := hpos
  simp only [constructExtra, hadded, if_pos (isSwapTx_swapFields _ h), hn]
  rw [swapFields, List.flatMap_cons,
    encryptUserData_swapNonce h (length_encryptSwapData (C := C) txKey data)]
  rfl

/-- The null key is not the public key of any secret key: on the curve its bytes
are a point of order four. -/
def NullIsNoPublicKey (C : TxCrypto ℓ Point) : Prop :=
  ∀ sec : ZMod ℓ, C.secretKeyToPublicKey sec ≠ nullBlob 32

/-- The operator decrypts what was encrypted for the key pair of the swap. -/
theorem getSwapDataFromTx_swapFields (hnull : C.NullIsNoPublicKey)
    (hcrypt : ∀ derivation, Function.Involutive (C.doChachaCrypt derivation)) {swapSec : ZMod ℓ}
    (hswap : C.swapAddressEncryptionPubKey = C.secretKeyToPublicKey swapSec) (paymentId : Hash)
    {swapAddr : AccountPublicAddress} (haddr : swapAddr.isSwapAddr = true) (txKey : ZMod ℓ) :
    C.getSwapDataFromTx ((swapFields paymentId
      (C.encryptSwapDataWithTxSecretKey txKey (C.swapEntry swapAddr).toBytes)
      (C.secretKeyToPublicKey txKey)).flatMap TxExtraField.write) swapSec = some swapAddr := by
  obtain ⟨derivation, hderivation⟩ : ∃ derivation,
      C.generateKeyDerivation (C.secretKeyToPublicKey swapSec) txKey = some derivation := by
    simp [KeyCurve.generateKeyDerivation, KeyCurve.secretKeyToPublicKey, C.toPoint_ofPoint]
  have hshared : C.generateKeyDerivation (C.secretKeyToPublicKey txKey) swapSec =
      some derivation := by
    rw [KeyCurve.derivation_comm, hderivation]
  have hvalid : C.isChecksumValid (C.swapEntry swapAddr) = true := decide_eq_true rfl
  have hback : (⟨(C.swapEntry swapAddr).spendPublicKey, (C.swapEntry swapAddr).viewPublicKey,
      true⟩ : AccountPublicAddress) = swapAddr := by
    rw [← haddr]
    rfl
  generalize C.swapEntry swapAddr = entry at hvalid hback ⊢
  have hencrypted : C.encryptSwapDataWithTxSecretKey txKey entry.toBytes =
      C.doChachaCrypt derivation entry.toBytes := by
    simp only [encryptSwapDataWithTxSecretKey, hswap, hderivation]
  have hlength : (C.doChachaCrypt derivation entry.toBytes).length = swapEntrySize :=
    (C.length_doChachaCrypt _ _).trans entry.length_toBytes
  have hkeyed := @keyedFields_swapFields paymentId _ (C.secretKeyToPublicKey txKey) hlength
  have hnonce : (swapFields paymentId (C.doChachaCrypt derivation entry.toBytes)
      (C.secretKeyToPublicKey txKey)).findSome? TxExtraField.nonce? =
      some (swapNonce paymentId (C.doChachaCrypt derivation entry.toBytes)) := rfl
  rw [hencrypted]
  simp only [getSwapDataFromTx, hkeyed.parseTxExtra_eq, hkeyed.pubKeyFromExtra_eq, hnonce,
    if_neg (hnull txKey), length_swapNonce hlength, swapdata_swapNonce hlength,
    hshared, hcrypt derivation entry.toBytes, SwapAddrExtraUserdataEntry.ofBytes_toBytes,
    Option.bind_eq_bind, Option.bind_some, hvalid, if_true, hback]

/-- **Swap data reach the operator.** For every payment id, swap address and
transaction key, and whoever sends the transaction to whomever: the operator
reads the keys of the address, and the first extra nonce has the payment id. -/
theorem swap_data_received (hnull : C.NullIsNoPublicKey)
    (hcrypt : ∀ derivation, Function.Involutive (C.doChachaCrypt derivation)) {swapSec : ZMod ℓ}
    (hswap : C.swapAddressEncryptionPubKey = C.secretKeyToPublicKey swapSec)
    (sender : AccountPublicAddress) (destinations : List TxDestinationEntry) (paymentId : Hash)
    {swapAddr : AccountPublicAddress} (haddr : swapAddr.isSwapAddr = true) (txKey : ZMod ℓ) :
    ∃ extra built fields extraNonce, C.setSwapTxExtra [] paymentId swapAddr = some extra ∧
      C.constructExtra sender destinations extra txKey = .ok built ∧
      C.getSwapDataFromTx built swapSec = some swapAddr ∧
      parseTxExtra built = some fields ∧
      fields.findSome? TxExtraField.nonce? = some extraNonce ∧
      getPaymentIdFromSwapTxExtraNonce extraNonce = some paymentId := by
  have hlength : (C.encryptSwapDataWithTxSecretKey txKey (C.swapEntry swapAddr).toBytes).length =
      swapEntrySize :=
    (length_encryptSwapData (C := C) txKey _).trans (C.swapEntry swapAddr).length_toBytes
  exact ⟨_, _, _, _, C.setSwapTxExtra_nil paymentId haddr,
    constructExtra_swapNonce sender destinations paymentId (C.swapEntry swapAddr).length_toBytes
      txKey,
    getSwapDataFromTx_swapFields hnull hcrypt hswap paymentId haddr txKey,
    (keyedFields_swapFields _ hlength).parseTxExtra_eq, rfl,
    swapPaymentId_swapNonce paymentId _⟩

/-! ### A swap over the scalars as points -/

open Ringct (sampleOrder)

/-- The bytes of a scalar behind a byte that is not zero. -/
def taggedBytes (P : ZMod sampleOrder) : PublicKey :=
  ⟨0x01 :: littleEndian 31 P.val, by rw [List.length_cons, length_littleEndian]⟩

/-- Scalars as points, none of them with the null key, and a cipher that adds the
first byte of the derivation. The secret key of the swap is 5. -/
def swapTxCrypto : TxCrypto sampleOrder (ZMod sampleOrder) :=
  { sampleTxCrypto with
    ofPoint := taggedBytes
    toPoint := fun key => some (ofLittleEndian key.toList.tail : Nat)
    toPoint_ofPoint := by
      intro P
      have : NeZero sampleOrder := ⟨by decide⟩
      have hlt : P.val < 256 ^ 31 := lt_trans P.val_lt (by decide)
      change some ((ofLittleEndian (littleEndian 31 P.val) : Nat) : ZMod sampleOrder) = some P
      rw [ofLittleEndian_littleEndian hlt, ZMod.natCast_zmod_val]
    doChachaCrypt := fun derivation data => data.map fun b => b ^^^ derivation.toList.getD 1 0
    length_doChachaCrypt := fun _ _ => List.length_map _
    swapAddressEncryptionPubKey := taggedBytes (5 : Nat) }

theorem nullIsNoPublicKey_swapTxCrypto : swapTxCrypto.NullIsNoPublicKey := by
  unfold NullIsNoPublicKey
  intro sec hsec
  have hhead : (0x01 : UInt8) = 0x00 := congrArg (fun key => key.toList.headD 0) hsec
  exact absurd hhead (by decide)

def sampleSwapAddress : AccountPublicAddress :=
  { spendPublicKey := List.Vector.replicate 32 0x02
    viewPublicKey := List.Vector.replicate 32 0x01
    isSwapAddr := true }

theorem swap_data_received_sample :
    ∃ extra built fields extraNonce,
      swapTxCrypto.setSwapTxExtra [] (nullBlob 32) sampleSwapAddress = some extra ∧
      swapTxCrypto.constructExtra sampleSwapAddress [] extra (11 : Nat) = .ok built ∧
      swapTxCrypto.getSwapDataFromTx built (5 : Nat) = some sampleSwapAddress ∧
      parseTxExtra built = some fields ∧
      fields.findSome? TxExtraField.nonce? = some extraNonce ∧
      getPaymentIdFromSwapTxExtraNonce extraNonce = some (nullBlob 32) := by
  refine swap_data_received nullIsNoPublicKey_swapTxCrypto ?_ ?_ sampleSwapAddress []
    (nullBlob 32) rfl (11 : Nat)
  · intro derivation data
    simp [swapTxCrypto, Function.comp_def]
  · have hone : ((5 : Nat) : ZMod sampleOrder) • (1 : ZMod sampleOrder) = (5 : Nat) := mul_one _
    exact congrArg taggedBytes hone.symm

end TxCrypto

end Lethean
