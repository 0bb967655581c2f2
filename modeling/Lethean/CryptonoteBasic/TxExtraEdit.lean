import Lethean.Common.IntUtil
import Lethean.CryptonoteBasic.TxExtra

/-!
# Lethean.CryptonoteBasic.TxExtraEdit

How a sender edits the extra bytes of a transaction and how a receiver finds the
transaction key in them. Fields are removed by reading all of them and writing
the others back; new ones are appended as bytes. The swap data in a nonce is
encrypted in place by a parser of its own, which takes the length of a nonce for
a single byte.
-/

namespace Lethean

open Codec BinaryArchive

/-! ### Fields -/

/-- `do_serialize` on a `std::string`, when writing. -/
def writeString (str : List UInt8) : List UInt8 := writeVarint str.length ++ str

namespace TxExtraField

/-- `do_serialize` on a `tx_extra_field`, when writing. -/
def write : TxExtraField → List UInt8
  | .padding size => 0x00 :: List.replicate (size - 1) 0
  | .pubKey key => 0x01 :: key.toList
  | .nonce data => 0x02 :: writeString data
  | .mergeMiningTag tag => 0x03 :: writeString (writeVarint tag.depth ++ tag.merkleRoot.toList)
  | .mysteriousMinergate data => 0xde :: writeString data

/-- The key of a `tx_extra_pub_key`. -/
def pubKey? : TxExtraField → Option PublicKey
  | .pubKey key => some key
  | _ => none

/-- The data of a `tx_extra_nonce`. -/
def nonce? : TxExtraField → Option (List UInt8)
  | .nonce data => some data
  | _ => none

/-- Is it a `tx_extra_padding`? -/
def isPadding : TxExtraField → Bool
  | .padding _ => true
  | _ => false

end TxExtraField

/-- The fields `parse_tx_extra` has read when it ends, well or not. -/
def readTxExtraFields : Nat → List UInt8 → List TxExtraField
  | 0, _ => []
  | n + 1, s =>
    match serializeTxExtraField false s with
    | none => []
    | some (field, []) => [field]
    | some (field, b :: rest) => field :: readTxExtraFields n (b :: rest)

/-- `get_tx_pub_key_from_extra`: the first key, or `null_pkey`. It does not look
at the result of `parse_tx_extra`. -/
def getTxPubKeyFromExtra (txExtra : List UInt8) : PublicKey :=
  ((readTxExtraFields txExtra.length txExtra).findSome? TxExtraField.pubKey?).getD (nullBlob 32)

/-- The keys that `find_tx_extra_field_by_type` finds, in their order. -/
def txPubKeys (txExtra : List UInt8) : List PublicKey :=
  (readTxExtraFields txExtra.length txExtra).filterMap TxExtraField.pubKey?

/-- The data of the first extra nonce that `parse_tx_extra` finds. -/
def extraNonce? (txExtra : List UInt8) : Option (List UInt8) :=
  (readTxExtraFields txExtra.length txExtra).findSome? TxExtraField.nonce?

/-- `remove_field_from_tx_extra`: whether all fields could be read, and the extra
bytes without the fields of a type. -/
def removeFieldFromTxExtra (txExtra : List UInt8) (type : TxExtraField → Bool) :
    Bool × List UInt8 :=
  match parseTxExtra txExtra with
  | none => (false, txExtra)
  | some fields => (true, (fields.filter fun field => !type field).flatMap TxExtraField.write)

def addTxPubKeyToExtra (txExtra : List UInt8) (txPubKey : PublicKey) : List UInt8 :=
  txExtra ++ 0x01 :: txPubKey.toList

def addExtraNonceToTxExtra (txExtra extraNonce : List UInt8) : Option (List UInt8) :=
  if extraNonce.length ≤ txExtraNonceMaxCount then
    some (txExtra ++ 0x02 :: UInt8.ofNat extraNonce.length :: extraNonce)
  else none

/-! ### Payment ids and swap data -/

abbrev Hash8 := Blob 8

def getPaymentIdFromTxExtraNonce (extraNonce : List UInt8) : Option Hash :=
  match extraNonce with
  | [] => none
  | tag :: id => if h : id.length = 32 ∧ tag = 0x00 then some ⟨id, h.1⟩ else none

def getEncryptedPaymentIdFromTxExtraNonce (extraNonce : List UInt8) : Option Hash8 :=
  match extraNonce with
  | [] => none
  | tag :: id => if h : id.length = 8 ∧ tag = 0x01 then some ⟨id, h.1⟩ else none

def setEncryptedPaymentIdToTxExtraNonce (paymentId : Hash8) : List UInt8 := 0x01 :: paymentId.toList

/-- `sizeof(swap_addr_extra_userdata_entry)`: two keys and a checksum. -/
def swapEntrySize : Nat := 68

/-- `get_swapdata_encrypted_buff_from_extra_nonce`. The tags in front of the swap
data must be those of payment ids; each is taken to be followed by 32 bytes. -/
def getSwapdataEncryptedBuff : Nat → List UInt8 → Option (List UInt8)
  | 0, _ => none
  | _, [] => none
  | _, [_] => none
  | n + 1, tag :: size :: data =>
    if tag = 0x02 then
      if size.toNat = swapEntrySize ∧ swapEntrySize ≤ data.length then
        some (data.take swapEntrySize)
      else none
    else if tag = 0x00 ∨ tag = 0x01 then
      getSwapdataEncryptedBuff n ((tag :: size :: data).drop 33)
    else none

/-- How the scan of the data of a nonce ends: at its end, at the swap data, which
is encrypted, or at something it does not know. -/
inductive UserDataScan
  | finished
  | encrypted (userData : List UInt8)
  | unknown
  deriving DecidableEq

/-- The data in front of what a scan has seen. -/
def UserDataScan.after (seen : List UInt8) : UserDataScan → UserDataScan
  | .encrypted userData => .encrypted (seen ++ userData)
  | scan => scan

/-- The inner loop of `encrypt_user_data_with_tx_secret_key`. -/
def encryptUserDataScan (crypt : List UInt8 → List UInt8) : Nat → List UInt8 → UserDataScan
  | 0, _ => .unknown
  | _, [] => .finished
  | _, [_] => .unknown
  | n + 1, tag :: size :: data =>
    if tag = 0x02 then
      if size.toNat = swapEntrySize ∧ swapEntrySize ≤ data.length then
        .encrypted (tag :: size :: crypt (data.take swapEntrySize) ++ data.drop swapEntrySize)
      else .unknown
    else if tag = 0x00 ∨ tag = 0x01 then
      (encryptUserDataScan crypt n ((tag :: size :: data).drop 33)).after
        ((tag :: size :: data).take 33)
    else .unknown

/-- `encrypt_user_data_with_tx_secret_key`: the extra bytes it leaves. Its result
is not used, and padding and unknown tags change nothing. -/
def encryptUserData (crypt : List UInt8 → List UInt8) : Nat → List UInt8 → List UInt8
  | 0, s => s
  | n + 1, s =>
    match s with
    | [] => []
    | tag :: rest =>
      if tag = 0x01 then
        if 32 ≤ rest.length then tag :: rest.take 32 ++ encryptUserData crypt n (rest.drop 32)
        else s
      else if tag = 0x02 then
        match rest with
        | [] => s
        | size :: data =>
          if size.toNat ≤ data.length then
            match encryptUserDataScan crypt (size.toNat + 1) (data.take size.toNat) with
            | .finished => tag :: size :: data.take size.toNat ++
                encryptUserData crypt n (data.drop size.toNat)
            | .encrypted userData => tag :: size :: userData ++ data.drop size.toNat
            | .unknown => s
          else s
      else s

/-- `is_swap_tx`, which looks at the first nonce only. -/
def isSwapTx (txExtra : List UInt8) : Bool :=
  match parseTxExtra txExtra with
  | none => false
  | some fields =>
    match fields.findSome? TxExtraField.nonce? with
    | none => false
    | some nonce => (getSwapdataEncryptedBuff (nonce.length + 1) nonce).isSome

/-! ### Reading back what is written -/

theorem reads_string {str : List UInt8} (h : str.length < 2 ^ 64) :
    Reads serializeString (writeString str) str :=
  (reads_uvarint h).bind (Reads.need_bind le_rfl (reads_byte_times str))

theorem length_writeVarint_le (k : Nat) {n : Nat} (hn : n < 2 ^ (7 * (k + 1))) :
    (writeVarint n).length ≤ k + 1 := by
  induction k generalizing n with
  | zero =>
    rw [writeVarint, if_pos (by simpa using hn)]
    simp
  | succ k ih =>
    rw [writeVarint]
    split
    · simp
    rw [List.length_cons, Nat.shiftRight_eq_div_pow]
    have hdiv : n / 2 ^ 7 < 2 ^ (7 * (k + 1)) := by
      refine Nat.div_lt_of_lt_mul ?_
      rwa [← Nat.pow_add, show 7 + 7 * (k + 1) = 7 * (k + 1 + 1) by ring]
    have := ih hdiv
    omega

namespace TxExtraField

/-- Fields that can be read: their lengths fit. -/
def Readable : TxExtraField → Prop
  | .nonce data => data.length ≤ txExtraNonceMaxCount
  | .mergeMiningTag tag => tag.depth < 2 ^ 64
  | .mysteriousMinergate data => data.length < 2 ^ 64
  | _ => True

end TxExtraField

variable {s rest : List UInt8} {field : TxExtraField} {fields : List TxExtraField}

theorem byte_times_inv {strict : Bool} {n : Nat} {l : List UInt8}
    (h : Reader.byte.times n strict s = some (l, rest)) : s = l ++ rest := by
  induction n generalizing s l with
  | zero =>
    cases h
    rfl
  | succ n ih =>
    obtain ⟨b, mid, hb, h⟩ := Reader.bind_some h
    obtain ⟨l', mid', hl', h⟩ := Reader.bind_some h
    cases h
    match s, hb with
    | _ :: _, rfl => rw [ih hl', List.cons_append]

theorem serializeString_inv {strict : Bool} {str : List UInt8}
    (h : serializeString strict s = some (str, rest)) :
    serializeUvarint 64 strict s = some (str.length, str ++ rest) := by
  obtain ⟨size, mid, hsize, h⟩ := Reader.bind_some h
  obtain ⟨_, mid', hneed, h⟩ := Reader.bind_some h
  have hmid : mid = mid' := by
    unfold Reader.need at hneed
    split at hneed <;> simp_all
  rw [hsize, hmid, byte_times_inv h, Reader.length_of_times h]

theorem length_lt_of_serializeString {strict : Bool} {str : List UInt8}
    (h : serializeString strict s = some (str, rest)) : str.length < 2 ^ 64 := by
  have hsize := serializeString_inv h
  simp only [serializeUvarint] at hsize
  split at hsize
  · cases hsize
  · rw [Option.some.injEq, Prod.mk.injEq] at hsize
    exact hsize.1 ▸ readVarint_lt 64 s

/-- A field that is read is one that can be written, and the tag of a nonce is `2`. -/
theorem txExtraField_inv (hread : serializeTxExtraField false s = some (field, rest)) :
    field.Readable ∧ ∀ data, field = .nonce data →
      ∃ mid, s = 0x02 :: mid ∧ serializeString false mid = some (data, rest) := by
  obtain ⟨tag, mid, htag, h⟩ := Reader.bind_some hread
  obtain rfl : s = tag :: mid := by
    match s, htag with
    | _ :: _, rfl => rfl
  split_ifs at h with h0 h1 h2 h3 hde
  · unfold serializeTxExtraPadding at h
    split at h <;> cases h
    exact ⟨trivial, by simp⟩
  · obtain ⟨key, mid', -, h⟩ := Reader.bind_some h
    cases h
    exact ⟨trivial, by simp⟩
  · obtain ⟨data, mid', hdata, h⟩ := Reader.bind_some h
    obtain ⟨_, mid'', hguard, h⟩ := Reader.bind_some h
    cases h
    unfold Reader.guard at hguard
    split at hguard <;> cases hguard
    rename_i hlength
    exact ⟨hlength, by simpa [h2] using hdata⟩
  · obtain ⟨mmTag, mid', hmm, h⟩ := Reader.bind_some h
    cases h
    obtain ⟨str, mid'', -, hmm⟩ := Reader.bind_some hmm
    rcases hhelper : serializeMergeMiningHelper false str with _ | ⟨helper, _ | _⟩ <;>
      rw [hhelper] at hmm <;> cases hmm
    obtain ⟨depth, mid1, hdepth, hhelper⟩ := Reader.bind_some hhelper
    obtain ⟨root, mid2, -, hhelper⟩ := Reader.bind_some hhelper
    cases hhelper
    cases hdepth
    exact ⟨readVarint_lt 64 str, by simp⟩
  · obtain ⟨data, mid', hdata, h⟩ := Reader.bind_some h
    cases h
    exact ⟨length_lt_of_serializeString hdata, by simp⟩
  · cases h

theorem reads_mergeMiningTag {tag : MergeMiningTag} (hdepth : tag.depth < 2 ^ 64) :
    Reads serializeMergeMiningTag
      (writeString (writeVarint tag.depth ++ tag.merkleRoot.toList)) tag := by
  have hlength : (writeVarint tag.depth ++ tag.merkleRoot.toList).length < 2 ^ 64 := by
    have hvarint : (writeVarint tag.depth).length ≤ 10 :=
      length_writeVarint_le 9 (lt_of_lt_of_le hdepth (by decide))
    have hroot : tag.merkleRoot.toList.length = 32 := tag.merkleRoot.toList_length
    rw [List.length_append, hroot]
    omega
  have hhelper : serializeMergeMiningHelper false
      (writeVarint tag.depth ++ tag.merkleRoot.toList) = some (tag, []) := by
    have hreads : Reads serializeMergeMiningHelper
        (writeVarint tag.depth ++ tag.merkleRoot.toList) tag :=
      (reads_uvarint hdepth).bind ((reads_blob tag.merkleRoot).last (Reads.pure tag))
    simpa using hreads false []
  intro strict rest
  rw [serializeMergeMiningTag, Reader.bind_of_some _ (reads_string hlength strict rest), hhelper]
  rfl

/-- A field other than padding is read back, whatever follows. -/
theorem reads_txExtraField (hreadable : field.Readable) (hpadding : field.isPadding = false) :
    Reads serializeTxExtraField field.write field := by
  cases field with
  | padding size => cases hpadding
  | pubKey key =>
    refine Reads.byte_bind ?_
    rw [if_neg (by decide), if_pos rfl]
    exact (reads_blob key).last (Reads.pure _)
  | nonce data =>
    have hlength : data.length ≤ txExtraNonceMaxCount := hreadable
    have hlt : data.length < 2 ^ 64 := lt_of_le_of_lt hlength (by decide)
    refine Reads.byte_bind ?_
    rw [if_neg (by decide), if_neg (by decide), if_pos rfl]
    exact (reads_string hlt).last ((Reads.guard hlength).last (Reads.pure _))
  | mergeMiningTag tag =>
    refine Reads.byte_bind ?_
    rw [if_neg (by decide), if_neg (by decide), if_neg (by decide), if_pos rfl]
    exact (reads_mergeMiningTag hreadable).last (Reads.pure _)
  | mysteriousMinergate data =>
    refine Reads.byte_bind ?_
    rw [if_neg (by decide), if_neg (by decide), if_neg (by decide), if_neg (by decide), if_pos rfl]
    exact (reads_string hreadable).last (Reads.pure _)

/-! ### Lists of fields -/

theorem extraLoop_write_append (hreadable : field.Readable)
    (hpadding : field.isPadding = false) (hrest : rest ≠ []) (n : Nat) :
    parseTxExtraLoop (n + 1) (field.write ++ rest) =
      (parseTxExtraLoop n rest).map (field :: ·) := by
  obtain ⟨b, rest, rfl⟩ := List.exists_cons_of_ne_nil hrest
  rw [parseTxExtraLoop, reads_txExtraField hreadable hpadding false]

theorem local_uvarint {bits : Nat} : Local (serializeUvarint bits) := by
  have hloop : ∀ (s : List UInt8) {shift write v : Nat} {b : UInt8} {rest : List UInt8},
      (readVarintLoop bits shift write s).2 = (v, b :: rest) → ∃ o, s = o ++ b :: rest ∧
        ∀ t, (readVarintLoop bits shift write (o ++ t)).2 = (v, t) := by
    intro s
    induction s with
    | nil => simp [readVarintLoop]
    | cons c s ih =>
      intro shift write v b rest h
      rw [readVarintLoop] at h
      split_ifs at h with hover hzero hlast
      · cases h
        exact ⟨[c], rfl, fun t => by simp [readVarintLoop, hover]⟩
      · cases h
        exact ⟨[c], rfl, fun t => by simp [readVarintLoop, hzero]⟩
      · cases h
        exact ⟨[c], rfl, fun t => by simp [readVarintLoop, hover, hzero, hlast]⟩
      · obtain ⟨o, rfl, ho⟩ := ih h
        exact ⟨c :: o, rfl, fun t => by
          simpa [readVarintLoop, hover, hzero, hlast] using ho t⟩
  intro s v b rest h
  have hread : ∀ s, serializeUvarint bits false s = some (readVarint bits s).2 := by
    simp [serializeUvarint]
  simp only [hread, Option.some.injEq] at h ⊢
  exact hloop s h

theorem local_string : Local serializeString := by
  intro s str b rest h
  obtain ⟨c, mid, hc⟩ := List.exists_cons_of_ne_nil
    (List.append_ne_nil_of_right_ne_nil str (List.cons_ne_nil b rest))
  obtain ⟨o, rfl, ho⟩ := local_uvarint _ _ _ _ ((serializeString_inv h).trans (by rw [hc]))
  refine ⟨o ++ str, by rw [List.append_assoc, hc], fun t => ?_⟩
  rw [List.append_assoc, serializeString, Reader.bind_of_some _ (ho _)]
  exact Reads.need_bind le_rfl (reads_byte_times str) false t

theorem local_txExtraField : Local serializeTxExtraField := by
  have hpadding : Local serializeTxExtraPadding := by
    intro s a b rest h
    unfold serializeTxExtraPadding at h
    split at h <;> cases h
  have hblob : Local (serializeBlob 32) := by
    intro s a b rest h
    unfold serializeBlob at h
    split at h
    · rename_i hle
      obtain ⟨rfl, hdrop⟩ := Prod.mk.inj (Option.some.inj h)
      refine ⟨s.take 32, by rw [← hdrop, List.take_append_drop], fun t => ?_⟩
      exact reads_blob ⟨s.take 32, by simpa using hle⟩ false t
    · cases h
  have hguard : ∀ (c : Prop) [Decidable c], Local (Reader.guard c) := fun c _ =>
    .ite (.pure ()) .fail
  have htag : Local serializeMergeMiningTag := local_string.bind fun str => by
    split
    · exact .pure _
    · exact .fail
  exact Local.byte.bind fun tag => .ite hpadding <| .ite (hblob.bind fun _ => .pure _) <|
    .ite (local_string.bind fun _ => (hguard _).bind fun _ => .pure _) <|
    .ite (htag.bind fun _ => .pure _) <| .ite (local_string.bind fun _ => .pure _) .fail

/-- One turn of the loop, and the others. -/
theorem extraLoop_inv {n : Nat} (h : parseTxExtraLoop n s = some fields) :
    ∃ m field rest, n = m + 1 ∧ serializeTxExtraField false s = some (field, rest) ∧
      (rest = [] ∧ fields = [field] ∨ ∃ fields', fields = field :: fields' ∧
        parseTxExtraLoop m rest = some fields' ∧
        ∃ o, s = o ++ rest ∧ o ≠ [] ∧ ∀ t, serializeTxExtraField false (o ++ t) = some (field, t)) := by
  cases n with
  | zero => cases h
  | succ n =>
    rw [parseTxExtraLoop] at h
    split at h
    · cases h
    · rename_i field hread
      cases h
      exact ⟨n, field, [], rfl, hread, .inl ⟨rfl, rfl⟩⟩
    · rename_i field b rest hread
      obtain ⟨fields', hfields', rfl⟩ := Option.map_eq_some_iff.mp h
      obtain ⟨o, rfl, ho⟩ := local_txExtraField _ _ _ _ hread
      refine ⟨n, field, b :: rest, rfl, hread, .inr ⟨fields', rfl, hfields', o, rfl, ?_, ho⟩⟩
      rintro rfl
      cases ho []

theorem ne_nil_of_extraLoop {n : Nat} (h : parseTxExtraLoop n s = some fields) : s ≠ [] := by
  rintro rfl
  cases n <;> cases h

theorem extraLoop_cons {n : Nat} (hread : serializeTxExtraField false s = some (field, rest))
    (hrest : parseTxExtraLoop n rest = some fields) :
    parseTxExtraLoop (n + 1) s = some (field :: fields) := by
  obtain ⟨b, rest, rfl⟩ := List.exists_cons_of_ne_nil (ne_nil_of_extraLoop hrest)
  simp [parseTxExtraLoop, hread, hrest]

/-- As many turns as there are bytes are enough. -/
theorem parseTxExtra_of_loop {n : Nat} (h : parseTxExtraLoop n s = some fields) :
    parseTxExtra s = some fields := by
  rw [parseTxExtra, if_neg (ne_nil_of_extraLoop h)]
  suffices hloop : ∀ {m}, s.length ≤ m → parseTxExtraLoop m s = some fields from hloop le_rfl
  induction n generalizing s fields with
  | zero => cases h
  | succ n ih =>
    intro m hm
    have hpos := List.length_pos_iff.mpr (ne_nil_of_extraLoop h)
    obtain ⟨m, rfl⟩ := Nat.exists_eq_succ_of_ne_zero (hpos.trans_le hm).ne'
    obtain ⟨_, field, rest, ⟨⟩, hread, ⟨rfl, rfl⟩ | ⟨fields', rfl, hrest, o, rfl, ho, -⟩⟩ :=
      extraLoop_inv h
    · simp [parseTxExtraLoop, hread]
    · have hshort := List.length_pos_iff.mpr ho
      rw [List.length_append] at hm
      exact extraLoop_cons hread (ih hrest (by omega))

theorem parseTxExtra_flatMap_write {fields : List TxExtraField}
    (hreadable : ∀ field ∈ fields, field.Readable)
    (hpadding : ∀ field ∈ fields, field.isPadding = false) :
    parseTxExtra (fields.flatMap TxExtraField.write) = some fields := by
  by_cases hne : fields = []
  · subst hne
    rfl
  suffices hloop : ∃ n, parseTxExtraLoop n (fields.flatMap TxExtraField.write) = some fields from
    hloop.elim fun _ => parseTxExtra_of_loop
  induction fields with
  | nil => exact absurd rfl hne
  | cons field fields ih =>
    rw [List.forall_mem_cons] at hreadable hpadding
    have hfield := reads_txExtraField hreadable.1 hpadding.1 false
    by_cases hlast : fields = []
    · subst hlast
      exact ⟨1, by rw [List.flatMap_cons, List.flatMap_nil, parseTxExtraLoop, hfield]⟩
    · obtain ⟨n, hn⟩ := ih hreadable.2 hpadding.2 hlast
      exact ⟨n + 1, extraLoop_cons (hfield _) hn⟩

/-- Behind padding nothing but zeros can be read. -/
theorem extraLoop_padding (hreadable : ∀ field ∈ fields, field.Readable)
    (hpadding : ∃ field ∈ fields, field.isPadding = true) {tail : List UInt8}
    (htail : ∃ b ∈ tail, b ≠ 0) (n : Nat) :
    parseTxExtraLoop n (fields.flatMap TxExtraField.write ++ tail) = none := by
  induction fields generalizing n with
  | nil => simp at hpadding
  | cons field fields ih =>
    cases n with
    | zero => rfl
    | succ n =>
      have htail_ne : fields.flatMap TxExtraField.write ++ tail ≠ [] := by
        obtain ⟨b, hb, -⟩ := htail
        exact List.append_ne_nil_of_right_ne_nil _ (List.ne_nil_of_mem hb)
      rw [List.flatMap_cons, List.append_assoc]
      cases hfield : field.isPadding with
      | true =>
        obtain ⟨b, hb, hnonzero⟩ := htail
        cases field with
        | padding size =>
          have hread : serializeTxExtraField false ((TxExtraField.padding size).write ++
              (fields.flatMap TxExtraField.write ++ tail)) = none := by
            change serializeTxExtraPadding false (List.replicate (size - 1) 0 ++
              (fields.flatMap TxExtraField.write ++ tail)) = none
            rw [serializeTxExtraPadding, if_neg]
            intro hzeros
            exact hnonzero (by simpa using List.all_eq_true.mp hzeros.1 b (by simp [hb]))
          rw [parseTxExtraLoop, hread]
        | _ => cases hfield
      | false =>
        have hrest : ∃ f ∈ fields, f.isPadding = true := by
          obtain ⟨f, hf, hpad⟩ := hpadding
          rcases List.mem_cons.mp hf with rfl | hf
          · rw [hfield] at hpad
            cases hpad
          · exact ⟨f, hf, hpad⟩
        rw [extraLoop_write_append (hreadable field (by simp)) hfield htail_ne,
          ih (fun f hf => hreadable f (by simp [hf])) hrest, Option.map_none]

theorem readable_of_extraLoop {n : Nat} (h : parseTxExtraLoop n s = some fields) :
    ∀ field ∈ fields, field.Readable := by
  induction n generalizing s fields with
  | zero => cases h
  | succ n ih =>
    obtain ⟨_, field, rest, ⟨⟩, hread, ⟨-, rfl⟩ | ⟨fields', rfl, hrest, -⟩⟩ := extraLoop_inv h
    · simpa using (txExtraField_inv hread).1
    · exact List.forall_mem_cons.mpr ⟨(txExtraField_inv hread).1, ih hrest⟩

theorem readable_of_parseTxExtra (h : parseTxExtra s = some fields) :
    ∀ field ∈ fields, field.Readable := by
  unfold parseTxExtra at h
  split at h
  · cases h
    simp
  · exact readable_of_extraLoop h

theorem extraFields_of_extraLoop {n : Nat} (h : parseTxExtraLoop n s = some fields) :
    readTxExtraFields n s = fields := by
  induction n generalizing s fields with
  | zero => cases h
  | succ n ih =>
    obtain ⟨_, field, rest, ⟨⟩, hread, ⟨rfl, rfl⟩ | ⟨fields', rfl, hrest, -⟩⟩ :=
      extraLoop_inv h
    · simp [readTxExtraFields, hread]
    · obtain ⟨b, rest, rfl⟩ := List.exists_cons_of_ne_nil (ne_nil_of_extraLoop hrest)
      simp [readTxExtraFields, hread, ih hrest]

/-- From extra bytes that parse, the receiver takes the first key. -/
theorem pubKeyFromExtra_of_parseTxExtra {key : PublicKey} (h : parseTxExtra s = some fields)
    (hkey : fields.findSome? TxExtraField.pubKey? = some key) : getTxPubKeyFromExtra s = key := by
  unfold parseTxExtra at h
  split at h
  · cases h
    cases hkey
  · rw [getTxPubKeyFromExtra, extraFields_of_extraLoop h, hkey]
    rfl

/-- A key behind readable fields: it is read after them, or there was padding. -/
theorem parseTxExtra_addTxPubKeyToExtra (hreadable : ∀ field ∈ fields, field.Readable)
    (key : PublicKey) :
    parseTxExtra (addTxPubKeyToExtra (fields.flatMap TxExtraField.write) key) =
      if fields.any TxExtraField.isPadding then none else some (fields ++ [.pubKey key]) := by
  rw [addTxPubKeyToExtra]
  by_cases hpadding : fields.any TxExtraField.isPadding = true
  · rw [if_pos hpadding, parseTxExtra, if_neg (by simp)]
    exact extraLoop_padding hreadable (List.any_eq_true.mp hpadding)
      ⟨0x01, by simp, by decide⟩ _
  have hwrite : fields.flatMap TxExtraField.write ++ 0x01 :: key.toList =
      (fields ++ [TxExtraField.pubKey key]).flatMap TxExtraField.write := by
    simp [TxExtraField.write]
  rw [if_neg hpadding, hwrite]
  refine parseTxExtra_flatMap_write (forall_mem_concat.mpr ⟨hreadable, trivial⟩)
    (forall_mem_concat.mpr ⟨fun field hfield => ?_, rfl⟩)
  simpa using fun h => hpadding (List.any_eq_true.mpr ⟨field, hfield, h⟩)

/-! ### Appending a nonce -/

/-- Fields are read, and more behind them from `u` on. If nothing of `t` is taken for the
fields, they are read whatever comes behind them. -/
theorem extraLoop_append {n m : Nat} {t : List UInt8} {more : List TxExtraField}
    (h : parseTxExtraLoop n s = some fields) (hmore : more ≠ [])
    (h' : parseTxExtraLoop m (s ++ t) = some (fields ++ more)) :
    ∃ k u, parseTxExtraLoop k u = some more ∧ u <:+ s ++ t ∧ (t.length ≤ u.length → u = t ∧
      ∀ {k t' more'}, parseTxExtraLoop k t' = some more' →
        parseTxExtraLoop (k + fields.length) (s ++ t') = some (fields ++ more')) := by
  induction n generalizing s fields m with
  | zero => cases h
  | succ n ih =>
    obtain ⟨_, field, rest, ⟨⟩, hread, hlast | ⟨fields', rfl, hrest, o, rfl, -, ho⟩⟩ :=
      extraLoop_inv h
    · obtain ⟨rfl, rfl⟩ := hlast
      obtain ⟨m, field', u, rfl, hread', ⟨-, heq⟩ | ⟨more, heq, hu, o, hs, -, ho⟩⟩ :=
        extraLoop_inv h'
      · exact absurd (List.cons.inj heq).2 hmore
      obtain ⟨rfl, rfl⟩ := List.cons.inj heq
      refine ⟨m, u, hu, ⟨o, hs.symm⟩, fun hle => ?_⟩
      -- the bytes of the last field are a prefix of its bytes at the end, and so all of them
      obtain ⟨q, rfl⟩ : o <+: s := by
        refine List.prefix_of_prefix_length_le (hs ▸ List.prefix_append o u)
          (List.prefix_append s t) ?_
        have := congrArg List.length hs
        simp only [List.length_append] at this
        omega
      rw [ho] at hread
      cases hread
      rw [List.append_nil] at hs ⊢
      exact ⟨(List.append_cancel_left hs).symm, fun hk => extraLoop_cons (ho _) hk⟩
    · obtain ⟨m, field', rest', rfl, hread', hmore'⟩ := extraLoop_inv h'
      rw [List.append_assoc, ho] at hread'
      cases hread'
      obtain ⟨-, heq⟩ | ⟨_, heq, hfields, -⟩ := hmore'
      · exact absurd (List.append_eq_nil_iff.mp (List.cons.inj heq).2).2 hmore
      obtain ⟨-, rfl⟩ := List.cons.inj heq
      obtain ⟨k, u, hu, hsuffix, hcont⟩ := ih hrest hfields
      rw [List.append_assoc]
      refine ⟨k, u, hu, hsuffix.trans (List.suffix_append o _), fun hle => ?_⟩
      refine ⟨(hcont hle).1, fun hk => ?_⟩
      rw [List.append_assoc]
      exact extraLoop_cons (ho _) ((hcont hle).2 hk)

/-- A nonce that is read alone, and how long its bytes are. -/
theorem uvarint_of_parseExtra {nonce : List UInt8}
    (h : parseTxExtra s = some [.nonce nonce]) :
    ∃ mid, s = 0x02 :: mid ∧ serializeUvarint 64 false mid = some (nonce.length, nonce) := by
  unfold parseTxExtra at h
  split at h
  · cases h
  obtain ⟨_, _, _, -, hread, ⟨rfl, ⟨⟩⟩ | ⟨_, heq, hrest, -⟩⟩ := extraLoop_inv h
  · obtain ⟨mid, rfl, hstr⟩ := (txExtraField_inv hread).2 nonce rfl
    exact ⟨mid, rfl, by simpa using serializeString_inv hstr⟩
  · obtain ⟨-, rfl⟩ := List.cons.inj heq
    obtain ⟨_, _, _, -, -, ⟨-, ⟨⟩⟩ | ⟨_, ⟨⟩, -⟩⟩ := extraLoop_inv hrest

@[inherit_doc extraLoop_append]
theorem parseTxExtra_append {t : List UInt8} {more : List TxExtraField}
    (h : parseTxExtra s = some fields)
    (hmore : more ≠ []) (h' : parseTxExtra (s ++ t) = some (fields ++ more)) :
    ∃ u, parseTxExtra u = some more ∧ u <:+ s ++ t ∧ (t.length ≤ u.length → u = t ∧
      ∀ {t' more'}, more' ≠ [] → parseTxExtra t' = some more' →
        parseTxExtra (s ++ t') = some (fields ++ more')) := by
  by_cases hs : s = []
  · subst hs
    cases h
    exact ⟨t, h', List.suffix_rfl, fun _ => ⟨rfl, fun _ ht' => ht'⟩⟩
  rw [parseTxExtra, if_neg hs] at h
  rw [parseTxExtra, if_neg (by simp [hs])] at h'
  obtain ⟨k, u, hu, hsuffix, hcont⟩ := extraLoop_append h hmore h'
  refine ⟨u, parseTxExtra_of_loop hu, hsuffix, fun hle => ⟨(hcont hle).1, fun hne ht' => ?_⟩⟩
  unfold parseTxExtra at ht'
  split at ht'
  · cases ht'
    exact absurd rfl hne
  · exact parseTxExtra_of_loop ((hcont hle).2 ht')

/-- **An extra nonce is read back** exactly if its length is one byte of a varint, and what
stands before it does not end inside one: a zero byte would be read as padding. -/
theorem extra_nonce_reads_back_iff {nonce : List UInt8} (h : parseTxExtra s = some fields)
    (hlength : nonce.length ≤ txExtraNonceMaxCount) :
    (∃ s', addExtraNonceToTxExtra s nonce = some s' ∧
        parseTxExtra s' = some (fields ++ [.nonce nonce])) ↔
      nonce.length < 128 ∧ parseTxExtra (s ++ [0]) = some (fields ++ [.padding 1]) := by
  simp only [addExtraNonceToTxExtra, if_pos hlength, Option.some.injEq, exists_eq_left']
  constructor
  · intro hread
    obtain ⟨u, hu, hsuffix, hcont⟩ := parseTxExtra_append h (by simp) hread
    obtain ⟨mid, rfl, hmid⟩ := uvarint_of_parseExtra hu
    have hrest : (readVarint 64 mid).2 = (nonce.length, nonce) := by
      simpa [serializeUvarint] using hmid
    have hshort : nonce.length ≤ mid.length - 1 := by
      have := @length_varintLoop_le 64 0 0 mid
      rwa [← readVarint, hrest] at this
    have hle : nonce.length + 2 ≤ (0x02 :: mid).length := by
      cases mid with
      | nil =>
        -- the last byte would be the length 0, not a tag
        obtain rfl := List.length_eq_zero_iff.mp (Nat.le_zero.mp hshort)
        obtain ⟨o, ho⟩ := hsuffix
        simpa using congrArg List.getLast? ho
      | cons b mid => simpa using hshort
    obtain ⟨heq, hcont⟩ := hcont (by simpa using hle)
    refine ⟨?_, hcont (by simp) (by decide +kernel)⟩
    by_contra hlong
    obtain ⟨-, rfl⟩ := List.cons.inj heq
    have hbyte : ¬ (UInt8.ofNat nonce.length).toNat < 0x80 := by
      rwa [UInt8.toNat_ofNat_of_lt' (Nat.lt_succ_of_le hlength)]
    rw [readVarint, readVarintLoop, if_neg (by simp), if_neg (by simp)] at hrest
    dsimp only at hrest
    rw [if_neg (mt (continuation_iff _).mp hbyte)] at hrest
    generalize 0 ||| _ = write at hrest
    have hless := @length_varintLoop_le 64 (0 + 7) write nonce
    simp only [hrest] at hless
    omega
  · rintro ⟨hlt, hpadding⟩
    obtain ⟨u, hu, -, hcont⟩ := parseTxExtra_append h (by simp) hpadding
    have hpos : u ≠ [] := by
      rintro rfl
      cases hu
    refine (hcont (List.length_pos_iff.mpr hpos)).2 (by simp) ?_
    have hwrite := @parseTxExtra_flatMap_write [.nonce nonce]
      (by simpa [TxExtraField.Readable] using hlength) (by simp [TxExtraField.isPadding])
    simpa [TxExtraField.write, writeString, writeVarint, hlt] using hwrite

theorem extra_nonce_reads_back_short :
    parseTxExtra [2, 1, 7] = some [.nonce [7]] ∧
      parseTxExtra [2, 1, 7, 2, 1, 9] = some [.nonce [7], .nonce [9]] := by
  refine ⟨by decide +kernel, ?_⟩
  obtain ⟨s', hs', hread⟩ := (@extra_nonce_reads_back_iff [2, 1, 7] [.nonce [7]] [9]
    (by decide +kernel) (by decide)).mpr (by decide +kernel)
  cases hs'
  exact hread

/-- A nonce of 128 bytes is written and cannot be read, and neither can one behind a nonce
whose length is left open. -/
theorem extra_nonce_unreadable :
    (addExtraNonceToTxExtra [] (List.replicate 128 1)).map parseTxExtra = some none ∧
      parseTxExtra [2, 0x80] = some [.nonce []] ∧
      (addExtraNonceToTxExtra [2, 0x80] [9]).map parseTxExtra = some none := by
  decide +kernel

/-! ### Encryption in place -/

/-- The same field, but for the data of a nonce. -/
inductive TxExtraField.SameShape : TxExtraField → TxExtraField → Prop
  | refl (field : TxExtraField) : SameShape field field
  | nonce {data data' : List UInt8} (h : data'.length = data.length) :
      SameShape (.nonce data) (.nonce data')

namespace TxExtraField.SameShape

variable {field field' : TxExtraField} (h : SameShape field field')
include h

theorem readable (hreadable : field.Readable) : field'.Readable := by
  cases h with
  | refl => exact hreadable
  | nonce hlength => exact le_of_eq_of_le hlength hreadable

theorem isPadding_eq : field'.isPadding = field.isPadding := by
  cases h <;> rfl

theorem pubKey?_eq : field'.pubKey? = field.pubKey? := by
  cases h <;> rfl

end TxExtraField.SameShape

section

variable {crypt : List UInt8 → List UInt8} (hcrypt : ∀ data, (crypt data).length = data.length)
include hcrypt

theorem length_of_encryptUserDataScan {n : Nat} {data userData : List UInt8}
    (h : encryptUserDataScan crypt n data = .encrypted userData) :
    userData.length = data.length := by
  induction n generalizing data userData with
  | zero => cases h
  | succ n ih =>
    cases data with
    | nil => cases h
    | cons tag data =>
      cases data with
      | nil => cases h
      | cons size data =>
        rw [encryptUserDataScan] at h
        split at h
        · split at h
          · rename_i hsize
            cases h
            simp [hcrypt]
            omega
          · cases h
        · split at h
          · cases hscan : encryptUserDataScan crypt n ((tag :: size :: data).drop 33) with
            | encrypted userData' =>
              rw [hscan] at h
              cases h
              rw [List.length_append, ih hscan, ← List.length_append,
                List.take_append_drop]
            | finished =>
              rw [hscan] at h
              cases h
            | unknown =>
              rw [hscan] at h
              cases h
          · cases h

omit hcrypt in
theorem encryptUserDataScan_of_swap {n : Nat} {data : List UInt8}
    (h : (getSwapdataEncryptedBuff n data).isSome = true) :
    ∃ userData, encryptUserDataScan crypt n data = .encrypted userData := by
  induction n generalizing data with
  | zero => cases h
  | succ n ih =>
    match data with
    | [] => cases h
    | [_] => cases h
    | tag :: size :: data =>
      rw [getSwapdataEncryptedBuff] at h
      rw [encryptUserDataScan]
      split_ifs at h ⊢
      · exact ⟨_, rfl⟩
      · cases h
      · obtain ⟨userData, hscan⟩ := ih h
        rw [hscan]
        exact ⟨_, rfl⟩
      · cases h

/-- The encryption ends with the first field that is not a key. It changes nothing but the data
of a nonce with swap data, if the length of the nonce is one byte. -/
theorem encryptUserData_flatMap_write (hkey : field.pubKey? = none)
    (hswap : ∀ data, field = .nonce data →
      (getSwapdataEncryptedBuff (data.length + 1) data).isSome = true ∧ data.length < 128)
    (fields : List TxExtraField) (n : Nat) :
    ∃ field', encryptUserData crypt n ((field :: fields).flatMap TxExtraField.write) =
        (field' :: fields).flatMap TxExtraField.write ∧ field.SameShape field' := by
  cases n with
  | zero => exact ⟨field, rfl, .refl _⟩
  | succ n =>
    rw [List.flatMap_cons]
    cases field with
    | pubKey key => cases hkey
    | nonce data =>
      obtain ⟨hswap, hlt⟩ := hswap data rfl
      have hsize : (UInt8.ofNat data.length).toNat = data.length :=
        UInt8.toNat_ofNat_of_lt' (show data.length < 256 by omega)
      have hwrite : writeString data = UInt8.ofNat data.length :: data := by
        rw [writeString, writeVarint, if_pos hlt]
        rfl
      obtain ⟨userData, hscan⟩ : ∃ userData, encryptUserDataScan crypt _ data = .encrypted userData :=
        encryptUserDataScan_of_swap hswap
      have hlength := length_of_encryptUserDataScan hcrypt hscan
      refine ⟨.nonce userData, ?_, .nonce hlength⟩
      rw [TxExtraField.write, hwrite, List.cons_append, List.cons_append, encryptUserData,
        if_neg (by decide), if_pos rfl, hsize, if_pos (by simp), List.take_left' rfl,
        List.drop_left' rfl, hscan]
      simp [TxExtraField.write, writeString, writeVarint, hlength, hlt]
    | _ => exact ⟨_, rfl, .refl _⟩

end

/-! ### Fields with a key -/

/-- Fields that are read back, with the key that a receiver takes from them. -/
structure KeyedFields (key : PublicKey) (fields : List TxExtraField) : Prop where
  readable : ∀ field ∈ fields, field.Readable
  isPadding_eq : ∀ field ∈ fields, field.isPadding = false
  findSome?_eq : fields.findSome? TxExtraField.pubKey? = some key

theorem findSome?_filter_of_none {α : Type} {find : TxExtraField → Option α}
    {keep : TxExtraField → Bool} (h : ∀ field, keep field = false → find field = none)
    (fields : List TxExtraField) : (fields.filter keep).findSome? find = fields.findSome? find := by
  induction fields with
  | nil => rfl
  | cons field fields ih =>
    cases hkeep : keep field with
    | true => rw [List.filter_cons_of_pos hkeep, List.findSome?_cons, List.findSome?_cons, ih]
    | false =>
      rw [List.filter_cons_of_neg (by simp [hkeep]), List.findSome?_cons, h field hkeep, ih]

namespace KeyedFields

variable {key : PublicKey} {fields : List TxExtraField}

theorem parseTxExtra_eq (h : KeyedFields key fields) :
    parseTxExtra (fields.flatMap TxExtraField.write) = some fields :=
  parseTxExtra_flatMap_write h.readable h.isPadding_eq

theorem pubKeyFromExtra_eq (h : KeyedFields key fields) :
    getTxPubKeyFromExtra (fields.flatMap TxExtraField.write) = key :=
  pubKeyFromExtra_of_parseTxExtra h.parseTxExtra_eq h.findSome?_eq

theorem concat (hreadable : ∀ field ∈ fields, field.Readable)
    (hpadding : ∀ field ∈ fields, field.isPadding = false)
    (hkey : fields.findSome? TxExtraField.pubKey? = none) (key : PublicKey) :
    KeyedFields key (fields ++ [.pubKey key]) where
  readable := forall_mem_concat.mpr ⟨hreadable, trivial⟩
  isPadding_eq := forall_mem_concat.mpr ⟨hpadding, rfl⟩
  findSome?_eq := by
    rw [List.findSome?_append, hkey]
    rfl

theorem of_sameShape {fields' : List TxExtraField} (h : KeyedFields key fields)
    (hshape : List.Forall₂ TxExtraField.SameShape fields fields') : KeyedFields key fields' := by
  have hall : (∀ field ∈ fields', field.Readable) ∧
      (∀ field ∈ fields', field.isPadding = false) ∧
        fields'.findSome? TxExtraField.pubKey? = fields.findSome? TxExtraField.pubKey? := by
    obtain ⟨hreadable, hpadding, -⟩ := h
    induction hshape with
    | nil => simp
    | @cons field field' fields fields' h _ ih =>
      rw [List.forall_mem_cons] at hreadable hpadding
      obtain ⟨hreadable', hpadding', hkey'⟩ := ih hreadable.2 hpadding.2
      refine ⟨List.forall_mem_cons.mpr ⟨h.readable hreadable.1, hreadable'⟩,
        List.forall_mem_cons.mpr ⟨h.isPadding_eq.trans hpadding.1, hpadding'⟩, ?_⟩
      rw [List.findSome?_cons, List.findSome?_cons, h.pubKey?_eq, hkey']
  exact ⟨hall.1, hall.2.1, hall.2.2.trans h.findSome?_eq⟩

theorem replaceNonce (h : KeyedFields key fields) {data : List UInt8}
    (hdata : data.length ≤ txExtraNonceMaxCount) :
    KeyedFields key ((fields.filter fun field => !field.nonce?.isSome) ++ [.nonce data]) where
  readable := forall_mem_concat.mpr
    ⟨fun field hfield => h.readable field (List.mem_filter.mp hfield).1, hdata⟩
  isPadding_eq := forall_mem_concat.mpr
    ⟨fun field hfield => h.isPadding_eq field (List.mem_filter.mp hfield).1, rfl⟩
  findSome?_eq := by
    rw [List.findSome?_append, findSome?_filter_of_none, h.findSome?_eq]
    · rfl
    · intro field hfield
      cases field <;> first | rfl | cases hfield

end KeyedFields

end Lethean
