import Lethean.Common.Base58
import Lethean.Crypto.KeyDerivation
import Lethean.CryptonoteBasic.FormatUtils
import Lethean.CryptonoteBasic.TxExtraEdit

/-!
# Lethean.CryptonoteBasic.Addresses

The text form of addresses (`cryptonote_basic_impl.cpp`). An address is written
as a tag, the keys and perhaps a payment id, with a checksum behind them, in
base 58; the tag tells the net, whether there is a payment id and whether it is a
swap address. A string whose length is that of the old format is read as
hexadecimal digits instead.
-/

namespace Lethean

open BinaryArchive Codec

/-! ### Tags -/

/-- The tags of a net (`cryptonote_config.h`). -/
def publicAddressBase58Prefix (testnet : Bool) : Nat := if testnet then 0x629f else 0xfb

def publicIntegratedAddressBase58Prefix (testnet : Bool) : Nat := if testnet then 0xea1 else 0x81

/-- The tags of swap addresses, on both nets (`swap_address.h`). -/
def swapPublicAddressBase58Prefix : Nat := 0x73f7

def swapPublicIntegAddressBase58Prefix : Nat := 0x6af7

/-! ### Serialization -/

/-- The fields of `account_public_address`; the flag is not one of them. -/
def AccountPublicAddress.toBlob (adr : AccountPublicAddress) : List UInt8 :=
  adr.spendPublicKey.toList ++ adr.viewPublicKey.toList

/-- Reading into an address keeps its flag. -/
def serializeAddress (isSwapAddr : Bool) : Reader AccountPublicAddress := do
  let spend ← serializeBlob 32
  let view ← serializeBlob 32
  pure ⟨spend, view, isSwapAddr⟩

/-- `integrated_address`. The constructor of the address has cleared the flag. -/
def serializeIntegratedAddress : Reader (AccountPublicAddress × Hash8) := do
  let adr ← serializeAddress false
  let paymentId ← serializeBlob 8
  pure (adr, paymentId)

/-- `parse_binary`: the reader has to take the whole string. -/
def parseBinary {α : Type} (r : Reader α) (blob : List UInt8) : Option α :=
  match r false blob with
  | some (a, []) => some a
  | _ => none

/-- `public_address_outer_blob`, as it lies in memory: the version, the keys, the flag
and the sum of these bytes. -/
def parseOuterBlob (buff : List UInt8) : Option AccountPublicAddress :=
  if h : buff.length = 67 then
    if 0 < buff.getD 0 0 then none
    else if buff.getD 66 0 ≠ (buff.take 66).foldl (· + ·) 0 then none
    else
      some ⟨⟨(buff.drop 1).take 32, by simp [h]⟩, ⟨(buff.drop 33).take 32, by simp [h]⟩,
        buff.getD 65 0 ≠ 0⟩
  else none

section

variable (c : Crypto) (checkKey : PublicKey → Bool)

/-! ### Tagged strings -/

namespace Base58

def encodeAddr (tag : Nat) (data : List UInt8) : Option (List UInt8) :=
  let buf := writeVarint tag ++ data
  encode (buf ++ (c.cnFastHash buf).toList.take addrChecksumSize)

/-- `decode_addr`. A tag that the string cuts off is taken as it is. -/
def decodeAddr (addr : List UInt8) : Option (Nat × List UInt8) := do
  let addrData ← decode addr
  if addrData.length ≤ addrChecksumSize then none
  else
    let checksum := addrData.drop (addrData.length - addrChecksumSize)
    let addrData := addrData.take (addrData.length - addrChecksumSize)
    if (c.cnFastHash addrData).toList.take addrChecksumSize ≠ checksum then none
    else
      match readVarint 64 addrData with
      | (.overflow, _, _) | (.represent, _, _) => none
      | (_, tag, data) => if data.length = addrData.length then none else some (tag, data)

end Base58

/-! ### Addresses -/

def getAccountAddressAsStr (testnet : Bool) (adr : AccountPublicAddress) : Option (List UInt8) :=
  let addressPrefix :=
    if adr.isSwapAddr then swapPublicAddressBase58Prefix else publicAddressBase58Prefix testnet
  Base58.encodeAddr c addressPrefix adr.toBlob

def getAccountIntegratedAddressAsStr (testnet : Bool) (adr : AccountPublicAddress)
    (paymentId : Hash8) : Option (List UInt8) :=
  Base58.encodeAddr c (publicIntegratedAddressBase58Prefix testnet)
    (adr.toBlob ++ paymentId.toList)

/-- The address and the payment id behind a tag. -/
def parseTagged (testnet : Bool) (tag : Nat) (data : List UInt8) :
    Option (AccountPublicAddress × Option Hash8) :=
  if tag = publicIntegratedAddressBase58Prefix testnet then
    (parseBinary serializeIntegratedAddress data).map fun iadr => (iadr.1, some iadr.2)
  else if tag = publicAddressBase58Prefix testnet then
    (parseBinary (serializeAddress false) data).map fun adr => (adr, none)
  else if tag = swapPublicAddressBase58Prefix ∨ tag = swapPublicIntegAddressBase58Prefix then
    (parseBinary (serializeAddress true) data).map fun adr => (adr, none)
  else none

/-- `get_account_integrated_address_from_str`: the address, and the payment id if it
has one. -/
def getAccountIntegratedAddressFromStr (testnet : Bool) (str : List UInt8) :
    Option (AccountPublicAddress × Option Hash8) :=
  if str.length ≠ 2 * 67 then do
    let (tag, data) ← Base58.decodeAddr c str
    let (adr, paymentId) ← parseTagged testnet tag data
    if !checkKey adr.spendPublicKey || !checkKey adr.viewPublicKey then none
    else some (adr, paymentId)
  else do
    let buff ← parseHexstrToBinbuff str
    let adr ← parseOuterBlob buff
    some (adr, none)

/-! ### Keys -/

variable {s data str : List UInt8} {adr : AccountPublicAddress} {isSwapAddr testnet : Bool}
  {tag : Nat} {paymentId : Option Hash8}

theorem serializeBlob_eq_some {n : Nat} {strict : Bool} {rest : List UInt8} {v : Blob n}
    (h : serializeBlob n strict s = some (v, rest)) : s = v.toList ++ rest := by
  rw [serializeBlob] at h
  split at h
  · obtain ⟨rfl, rfl⟩ := Prod.mk.inj (Option.some.inj h)
    exact (List.take_append_drop n s).symm
  · cases h

theorem reads_address (adr : AccountPublicAddress) :
    Reads (serializeAddress adr.isSwapAddr) adr.toBlob adr :=
  (reads_blob _).bind ((reads_blob _).last (Reads.pure _))

theorem reads_integrated (h : adr.isSwapAddr = false) (paymentId : Hash8) :
    Reads serializeIntegratedAddress (adr.toBlob ++ paymentId.toList) (adr, paymentId) := by
  have hadr := reads_address adr
  rw [h] at hadr
  exact hadr.bind ((reads_blob _).last (Reads.pure _))

theorem address_eq_some {strict : Bool} {rest : List UInt8}
    (h : serializeAddress isSwapAddr strict s = some (adr, rest)) :
    s = adr.toBlob ++ rest ∧ adr.isSwapAddr = isSwapAddr := by
  obtain ⟨spend, mid, hspend, h⟩ := Reader.bind_some h
  obtain ⟨view, mid', hview, h⟩ := Reader.bind_some h
  obtain ⟨rfl, rfl⟩ := Prod.mk.inj (Option.some.inj h)
  rw [serializeBlob_eq_some hspend, serializeBlob_eq_some hview]
  exact ⟨(List.append_assoc _ _ _).symm, rfl⟩

theorem parseBinary_eq_some {α : Type} {r : Reader α} {blob : List UInt8} {a : α} :
    parseBinary r blob = some a ↔ r false blob = some (a, []) := by
  rw [parseBinary]
  split
  · rename_i a' heq
    rw [heq]
    simp
  · rename_i hno
    exact ⟨nofun, fun h => absurd h (hno a)⟩

theorem parseBinary_address :
    parseBinary (serializeAddress isSwapAddr) data = some adr ↔
      data = adr.toBlob ∧ adr.isSwapAddr = isSwapAddr := by
  rw [parseBinary_eq_some]
  constructor
  · intro h
    have := address_eq_some h
    rwa [List.append_nil] at this
  · rintro ⟨rfl, rfl⟩
    have := reads_address adr false []
    rwa [List.append_nil] at this

theorem parseBinary_integrated {paymentId : Hash8} :
    parseBinary serializeIntegratedAddress data = some (adr, paymentId) ↔
      data = adr.toBlob ++ paymentId.toList ∧ adr.isSwapAddr = false := by
  rw [parseBinary_eq_some]
  constructor
  · intro h
    obtain ⟨adr', mid, hadr, h⟩ := Reader.bind_some h
    obtain ⟨id, mid', hid, h⟩ := Reader.bind_some h
    obtain ⟨hpair, rfl⟩ := Prod.mk.inj (Option.some.inj h)
    obtain ⟨rfl, rfl⟩ := Prod.mk.inj hpair
    obtain ⟨hdata, hflag⟩ := address_eq_some hadr
    rw [hdata, serializeBlob_eq_some hid, List.append_nil]
    exact ⟨rfl, hflag⟩
  · rintro ⟨rfl, hflag⟩
    have := reads_integrated hflag paymentId false []
    rwa [List.append_nil] at this

theorem length_toBlob (adr : AccountPublicAddress) : adr.toBlob.length = 64 := by
  rw [AccountPublicAddress.toBlob, List.length_append, List.Vector.toList_length,
    List.Vector.toList_length]

/-! ### Tags -/

namespace Base58

theorem decodeAddr_encodeAddr {tag : Nat} {data s : List UInt8} (htag : tag < 2 ^ 64)
    (h : encodeAddr c tag data = some s) : decodeAddr c s = some (tag, data) := by
  obtain ⟨buf, hbuf⟩ : ∃ buf, writeVarint tag ++ data = buf := ⟨_, rfl⟩
  rw [encodeAddr, hbuf] at h
  have hsum : ((c.cnFastHash buf).toList.take addrChecksumSize).length = addrChecksumSize := by
    rw [List.length_take, List.Vector.toList_length]
    rfl
  have hpos : 0 < (writeVarint tag).length := List.length_pos_iff.mpr (writeVarint_ne_nil tag)
  have hlen : buf.length = (writeVarint tag).length + data.length := by
    rw [← hbuf, List.length_append]
  rw [decodeAddr, decode_encode h, Option.bind_eq_bind, Option.bind_some, List.length_append, hsum,
    if_neg (by omega), Nat.add_sub_cancel, List.take_left, List.drop_left, if_neg (by simp),
    ← hbuf, readVarint_writeVarint htag]
  dsimp only
  rw [hbuf, if_neg (by omega)]

/-- Whatever `decode_addr` takes is what `encode_addr` writes, unless the string ends
within the tag. -/
theorem encodeAddr_decodeAddr {tag : Nat} {data s : List UInt8} (hne : data ≠ [])
    (h : decodeAddr c s = some (tag, data)) : encodeAddr c tag data = some s := by
  obtain ⟨addrData, hdecode, h⟩ := Option.bind_eq_some_iff.mp h
  split at h
  · cases h
  dsimp only at h
  split at h
  · cases h
  rename_i hsum
  rw [not_ne_iff] at hsum
  have hend : readVarint 64 (addrData.take (addrData.length - addrChecksumSize)) =
      (.done, tag, data) := by
    cases hrun : readVarint 64 (addrData.take (addrData.length - addrChecksumSize)) with
    | mk ending result =>
      rw [hrun] at h
      cases ending with
      | done =>
        dsimp only at h
        split at h
        · cases h
        · exact congrArg _ (Option.some.inj h)
      | eof =>
        dsimp only at h
        split at h
        · cases h
        · obtain ⟨v, rest⟩ := result
          obtain ⟨rfl, rfl⟩ := Prod.mk.inj (Option.some.inj h)
          exact absurd (readVarintLoop_eof hrun) hne
      | overflow => cases h
      | represent => cases h
  rw [encodeAddr, ← (readVarint_spec hend).1 rfl, hsum, List.take_append_drop]
  exact encode_decode hdecode

theorem encodeAddr_isSome (tag : Nat) (data : List UInt8) : ∃ s, encodeAddr c tag data = some s :=
  encode_isSome _

end Base58

/-- The strings of all addresses are shorter than those of the old format. -/
theorem Base58.length_encodeAddr (htag : tag < 2 ^ 21) (hdata : data.length ≤ 72)
    (h : Base58.encodeAddr c tag data = some s) : s.length ≠ 2 * 67 := by
  have hlen := Base58.length_encode_lt h
  have hvarint := length_writeVarint_le 2 htag
  simp only [List.length_append, List.length_take, List.Vector.toList_length,
    Base58.addrChecksumSize, Base58.fullBlockSize, Base58.fullEncodedBlockSize] at hlen
  omega

/-! ### Round trips -/

def printedAddress (testnet : Bool) (adr : AccountPublicAddress) :
    Option Hash8 → Option (List UInt8)
  | none => getAccountAddressAsStr c testnet adr
  | some paymentId => getAccountIntegratedAddressAsStr c testnet adr paymentId

def printedData (adr : AccountPublicAddress) (paymentId : Option Hash8) : List UInt8 :=
  adr.toBlob ++ (paymentId.map List.Vector.toList).getD []

/-- The tag that is printed, for a swap address or not, with a payment id or without. -/
def printedTag (testnet : Bool) : Bool → Bool → Nat
  | _, true => publicIntegratedAddressBase58Prefix testnet
  | true, false => swapPublicAddressBase58Prefix
  | false, false => publicAddressBase58Prefix testnet

def ReadTag (testnet : Bool) (tag : Nat) : Bool → Bool → Prop
  | true, true => False
  | false, true => tag = publicIntegratedAddressBase58Prefix testnet
  | true, false => tag = swapPublicAddressBase58Prefix ∨ tag = swapPublicIntegAddressBase58Prefix
  | false, false => tag = publicAddressBase58Prefix testnet

theorem printedAddress_eq (testnet : Bool) (adr : AccountPublicAddress) (paymentId : Option Hash8) :
    printedAddress c testnet adr paymentId =
      Base58.encodeAddr c (printedTag testnet adr.isSwapAddr paymentId.isSome)
        (printedData adr paymentId) := by
  obtain ⟨spend, view, flag⟩ := adr
  cases paymentId with
  | none =>
    rw [printedData, Option.map_none, Option.getD_none, List.append_nil]
    cases flag <;> rfl
  | some paymentId => cases flag <;> rfl

theorem integrated_ne (testnet : Bool)
    (h : tag = publicAddressBase58Prefix testnet ∨ tag = swapPublicAddressBase58Prefix ∨
      tag = swapPublicIntegAddressBase58Prefix) :
    tag ≠ publicIntegratedAddressBase58Prefix testnet := by
  rcases h with rfl | rfl | rfl <;> cases testnet <;> decide

theorem address_ne (testnet : Bool)
    (h : tag = swapPublicAddressBase58Prefix ∨ tag = swapPublicIntegAddressBase58Prefix) :
    tag ≠ publicAddressBase58Prefix testnet := by
  rcases h with rfl | rfl <;> cases testnet <;> decide

/-- What is read behind a tag is what is printed. -/
theorem parseTagged_eq_some :
    parseTagged testnet tag data = some (adr, paymentId) ↔
      data = printedData adr paymentId ∧
        ReadTag testnet tag adr.isSwapAddr paymentId.isSome := by
  constructor
  · intro h
    rw [parseTagged] at h
    split at h
    · rename_i htag
      obtain ⟨⟨adr', id⟩, hparse, heq⟩ := Option.map_eq_some_iff.mp h
      obtain ⟨rfl, rfl⟩ := Prod.mk.inj heq
      obtain ⟨hdata, hflag⟩ := parseBinary_integrated.mp hparse
      rw [hflag]
      exact ⟨hdata, htag⟩
    split at h
    · rename_i htag
      obtain ⟨adr', hparse, heq⟩ := Option.map_eq_some_iff.mp h
      obtain ⟨rfl, rfl⟩ := Prod.mk.inj heq
      obtain ⟨hdata, hflag⟩ := parseBinary_address.mp hparse
      rw [hflag]
      exact ⟨hdata.trans (List.append_nil _).symm, htag⟩
    split at h
    · rename_i htag
      obtain ⟨adr', hparse, heq⟩ := Option.map_eq_some_iff.mp h
      obtain ⟨rfl, rfl⟩ := Prod.mk.inj heq
      obtain ⟨hdata, hflag⟩ := parseBinary_address.mp hparse
      rw [hflag]
      exact ⟨hdata.trans (List.append_nil _).symm, htag⟩
    · cases h
  · rintro ⟨rfl, hread⟩
    have hparse : parseBinary (serializeAddress adr.isSwapAddr) adr.toBlob = some adr :=
      parseBinary_address.mpr ⟨rfl, rfl⟩
    cases paymentId with
    | none =>
      rw [printedData, Option.map_none, Option.getD_none, List.append_nil]
      cases hflag : adr.isSwapAddr with
      | false =>
        rw [hflag] at hread hparse
        change tag = publicAddressBase58Prefix testnet at hread
        rw [parseTagged, if_neg (integrated_ne testnet (.inl hread)), if_pos hread, hparse]
        rfl
      | true =>
        rw [hflag] at hread hparse
        change tag = swapPublicAddressBase58Prefix ∨
          tag = swapPublicIntegAddressBase58Prefix at hread
        rw [parseTagged, if_neg (integrated_ne testnet (.inr hread)),
          if_neg (address_ne testnet hread), if_pos hread, hparse]
        rfl
    | some id =>
      cases hflag : adr.isSwapAddr with
      | false =>
        rw [hflag] at hread
        change tag = publicIntegratedAddressBase58Prefix testnet at hread
        have hdata : printedData adr (some id) = adr.toBlob ++ id.toList := rfl
        rw [parseTagged, if_pos hread, hdata,
          parseBinary_integrated.mpr ⟨rfl, hflag⟩]
        rfl
      | true =>
        rw [hflag] at hread
        exact hread.elim

/-! ### Strings that are not tagged -/

/-- A string of the old format has the digit `0`, which base 58 lacks. -/
theorem not_base58_of_outerBlob {buff bytes : List UInt8} (hlen : str.length = 2 * 67)
    (hhex : parseHexstrToBinbuff str = some buff) (hblob : parseOuterBlob buff = some adr) :
    Base58.decode str ≠ some bytes := by
  intro hdecode
  have hmem : charCode '0' ∈ str := by
    rw [parseHexstrToBinbuff, if_neg (by omega)] at hhex
    refine zero_mem_of_parseHexPairs (by omega) hhex ?_
    rw [parseOuterBlob] at hblob
    split at hblob
    · split at hblob
      · cases hblob
      · rename_i hver
        exact UInt8.le_antisymm (UInt8.not_lt.mp hver) (UInt8.le_iff_toNat_le.mpr (Nat.zero_le _))
    · cases hblob
  have hletter := Base58.decode_letters hdecode _ hmem
  exact absurd hletter (by decide +kernel)

theorem fromStr_of_decodeAddr (hlen : str.length ≠ 2 * 67)
    (hdecode : Base58.decodeAddr c str = some (tag, data)) :
    getAccountIntegratedAddressFromStr c checkKey testnet str = some (adr, paymentId) ↔
      parseTagged testnet tag data = some (adr, paymentId) ∧
        checkKey adr.spendPublicKey = true ∧ checkKey adr.viewPublicKey = true := by
  rw [getAccountIntegratedAddressFromStr, if_pos hlen, hdecode, Option.bind_eq_bind,
    Option.bind_some]
  constructor
  · intro h
    obtain ⟨⟨adr', id⟩, hparse, h⟩ := Option.bind_eq_some_iff.mp h
    dsimp only at h
    split at h
    · cases h
    · rename_i hkeys
      obtain ⟨rfl, rfl⟩ := Prod.mk.inj (Option.some.inj h)
      exact ⟨hparse, by simpa using hkeys⟩
  · rintro ⟨hparse, hspend, hview⟩
    dsimp only
    rw [hparse, Option.bind_eq_bind, Option.bind_some]
    rw [hspend, hview]
    rfl

theorem readTag_printedTag (testnet isSwapAddr hasPaymentId : Bool) :
    ReadTag testnet (printedTag testnet isSwapAddr hasPaymentId) isSwapAddr hasPaymentId ↔
      ¬ (isSwapAddr = true ∧ hasPaymentId = true) := by
  cases isSwapAddr <;> cases hasPaymentId <;> simp [ReadTag, printedTag]

theorem ReadTag.eq_printedTag_iff {hasPaymentId : Bool}
    (h : ReadTag testnet tag isSwapAddr hasPaymentId) :
    printedTag testnet isSwapAddr hasPaymentId = tag ↔
      tag ≠ swapPublicIntegAddressBase58Prefix := by
  cases hasPaymentId with
  | true =>
    cases isSwapAddr with
    | true => exact h.elim
    | false =>
      obtain rfl := h
      exact iff_of_true rfl (integrated_ne testnet (.inr (.inr rfl))).symm
  | false =>
    cases isSwapAddr with
    | false =>
      obtain rfl := h
      exact iff_of_true rfl (address_ne testnet (.inr rfl)).symm
    | true =>
      rcases h with rfl | rfl
      · exact iff_of_true rfl (by decide)
      · exact iff_of_false (show swapPublicAddressBase58Prefix ≠ _ by decide) (by simp)

theorem printedTag_lt (testnet isSwapAddr hasPaymentId : Bool) :
    printedTag testnet isSwapAddr hasPaymentId < 2 ^ 21 := by
  cases testnet <;> cases isSwapAddr <;> cases hasPaymentId <;> decide

theorem length_printedData_le (adr : AccountPublicAddress) (paymentId : Option Hash8) :
    64 ≤ (printedData adr paymentId).length ∧ (printedData adr paymentId).length ≤ 72 := by
  rw [printedData, List.length_append, length_toBlob]
  cases paymentId with
  | none => decide
  | some id =>
    rw [Option.map_some, Option.getD_some, List.Vector.toList_length]
    decide

theorem printedAddress_isSome (testnet : Bool) (adr : AccountPublicAddress)
    (paymentId : Option Hash8) : ∃ s, printedAddress c testnet adr paymentId = some s := by
  rw [printedAddress_eq]
  exact Base58.encodeAddr_isSome c _ _

theorem fromStr_printedAddress {adr' : AccountPublicAddress} {paymentId' : Option Hash8}
    (h : printedAddress c testnet adr paymentId = some s) :
    getAccountIntegratedAddressFromStr c checkKey testnet s = some (adr', paymentId') ↔
      (printedData adr paymentId = printedData adr' paymentId' ∧
        ReadTag testnet (printedTag testnet adr.isSwapAddr paymentId.isSome) adr'.isSwapAddr
          paymentId'.isSome) ∧
      checkKey adr'.spendPublicKey = true ∧ checkKey adr'.viewPublicKey = true := by
  have htag := printedTag_lt testnet adr.isSwapAddr paymentId.isSome
  rw [printedAddress_eq] at h
  rw [fromStr_of_decodeAddr c checkKey
    (Base58.length_encodeAddr c htag (length_printedData_le adr paymentId).2 h)
    (Base58.decodeAddr_encodeAddr c (htag.trans (by decide)) h), parseTagged_eq_some]

/-- What a base58 string is read as has its data and one of its tags. -/
theorem decodeAddr_of_fromStr {bytes : List UInt8} (hbytes : Base58.decode str = some bytes)
    (hfrom : getAccountIntegratedAddressFromStr c checkKey testnet str = some (adr, paymentId)) :
    ∃ tag, Base58.decodeAddr c str = some (tag, printedData adr paymentId) ∧
      ReadTag testnet tag adr.isSwapAddr paymentId.isSome := by
  have hlen : str.length ≠ 2 * 67 := by
    intro hlen
    rw [getAccountIntegratedAddressFromStr, if_neg (not_not.mpr hlen)] at hfrom
    obtain ⟨buff, hhex, hfrom⟩ := Option.bind_eq_some_iff.mp hfrom
    obtain ⟨adr', hblob, -⟩ := Option.bind_eq_some_iff.mp hfrom
    exact not_base58_of_outerBlob hlen hhex hblob hbytes
  obtain ⟨⟨tag, data⟩, hdecode⟩ : ∃ result, Base58.decodeAddr c str = some result := by
    rw [getAccountIntegratedAddressFromStr, if_pos hlen] at hfrom
    obtain ⟨result, hresult, -⟩ := Option.bind_eq_some_iff.mp hfrom
    exact ⟨result, hresult⟩
  have hparse := ((fromStr_of_decodeAddr c checkKey hlen hdecode).mp hfrom).1
  obtain ⟨rfl, hread⟩ := parseTagged_eq_some.mp hparse
  exact ⟨tag, hdecode, hread⟩

/-- **Addresses round trip.** What is printed for an address with valid keys is read
back, unless it is a swap address with a payment id; and a base58 string that is read
is printed again, unless it has the tag of integrated swap addresses. -/
theorem address_round_trips_iff (testnet : Bool) (adr : AccountPublicAddress)
    (paymentId : Option Hash8) (str : List UInt8) :
    (checkKey adr.spendPublicKey = true → checkKey adr.viewPublicKey = true →
      ((∃ s, printedAddress c testnet adr paymentId = some s ∧
          getAccountIntegratedAddressFromStr c checkKey testnet s = some (adr, paymentId)) ↔
        ¬ (adr.isSwapAddr = true ∧ paymentId.isSome = true))) ∧
    ((∃ bytes, Base58.decode str = some bytes) →
      getAccountIntegratedAddressFromStr c checkKey testnet str = some (adr, paymentId) →
      (printedAddress c testnet adr paymentId = some str ↔
        ∀ data, Base58.decodeAddr c str ≠ some (swapPublicIntegAddressBase58Prefix, data))) := by
  constructor
  · intro hspend hview
    rw [← readTag_printedTag testnet]
    constructor
    · rintro ⟨s, hs, hfrom⟩
      exact ((fromStr_printedAddress c checkKey hs).mp hfrom).1.2
    · intro hread
      obtain ⟨s, hs⟩ := printedAddress_isSome c testnet adr paymentId
      exact ⟨s, hs, (fromStr_printedAddress c checkKey hs).mpr ⟨⟨rfl, hread⟩, hspend, hview⟩⟩
  · rintro ⟨bytes, hbytes⟩ hfrom
    obtain ⟨tag, hdecode, hread⟩ := decodeAddr_of_fromStr c checkKey hbytes hfrom
    have hdata := length_printedData_le adr paymentId
    have hagain := Base58.encodeAddr_decodeAddr c (List.length_pos_iff.mp (by omega)) hdecode
    rw [printedAddress_eq, hdecode]
    constructor
    · intro hprinted data heq
      have htag := printedTag_lt testnet adr.isSwapAddr paymentId.isSome
      have hback := Base58.decodeAddr_encodeAddr c (htag.trans (by decide)) hprinted
      rw [hdecode] at hback
      have hsame := (Prod.mk.inj (Option.some.inj hback)).1
      exact hread.eq_printedTag_iff.mp hsame.symm (Prod.mk.inj (Option.some.inj heq)).1
    · intro hother
      have htag : tag ≠ swapPublicIntegAddressBase58Prefix := fun heq => hother _ (by rw [heq])
      rwa [hread.eq_printedTag_iff.mpr htag]

def zeroCrypto : Crypto := ⟨fun _ => nullHash, fun _ _ _ => nullHash, fun _ => nullHash, nullHash⟩

/-- A swap address with a payment id is printed as an ordinary integrated address and
read back as one. A string with the tag of integrated swap addresses is read as a swap
address without payment id, which is printed with another tag. -/
theorem swap_address_lost :
    (∃ s, getAccountIntegratedAddressAsStr zeroCrypto false ⟨nullHash, nullHash, true⟩
        (nullBlob 8) = some s ∧
      getAccountIntegratedAddressFromStr zeroCrypto (fun _ => true) false s =
        some (⟨nullHash, nullHash, false⟩, some (nullBlob 8))) ∧
    ∃ str bytes, Base58.decode str = some bytes ∧
      getAccountIntegratedAddressFromStr zeroCrypto (fun _ => true) false str =
        some (⟨nullHash, nullHash, true⟩, none) ∧
      getAccountAddressAsStr zeroCrypto false ⟨nullHash, nullHash, true⟩ ≠ some str := by
  constructor
  · obtain ⟨s, hs⟩ :=
      printedAddress_isSome zeroCrypto false ⟨nullHash, nullHash, true⟩ (some (nullBlob 8))
    exact ⟨s, hs, (fromStr_printedAddress zeroCrypto _ hs).mpr ⟨⟨rfl, rfl⟩, rfl, rfl⟩⟩
  · obtain ⟨str, hstr⟩ := Base58.encodeAddr_isSome zeroCrypto swapPublicIntegAddressBase58Prefix
      (printedData ⟨nullHash, nullHash, true⟩ none)
    have hdecode := Base58.decodeAddr_encodeAddr zeroCrypto (by decide) hstr
    have hlen := Base58.length_encodeAddr zeroCrypto (by decide) (by decide) hstr
    refine ⟨str, _, Base58.decode_encode hstr, ?_, ?_⟩
    · rw [fromStr_of_decodeAddr zeroCrypto _ hlen hdecode, parseTagged_eq_some]
      exact ⟨⟨rfl, .inr rfl⟩, rfl, rfl⟩
    · intro hprinted
      have hother := Base58.decodeAddr_encodeAddr zeroCrypto (by decide) hprinted
      rw [hdecode] at hother
      exact absurd (Prod.mk.inj (Option.some.inj hother)).1 (by decide)

end

end Lethean
