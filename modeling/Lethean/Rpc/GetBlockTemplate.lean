import Lethean.CryptonoteCore.TemplateValid

/-!
# Lethean.Rpc.GetBlockTemplate

`on_getblocktemplate`: a template as bytes, with the place of a reserved area in
it that a pool may overwrite. The area is meant to be the data of the extra nonce
in the miner transaction. The server finds it by the transaction key, which is
followed by the tag and the size of the nonce, and adds the size of the key and
3. One of these three bytes is the tag in front of the key, so the area starts one
byte late and ends one byte behind the nonce.

What follows the nonce is a padding byte, the type of the RingCT part, or the
number of transaction hashes, so the area can be overwritten only with bytes that
keep it. The size of the nonce is written as one byte and read as a varint, so a
nonce of more than 127 bytes is not read with its size.
-/

namespace Lethean

open Codec BinaryArchive Crypto

/-! ### The call -/

/-- The loop of `slow_memmem`, at position `i`. -/
def memmemLoop (pat : List UInt8) : List UInt8 → Nat → Nat
  | [], _ => 0
  | b :: rest, i => if pat.isPrefixOf (b :: rest) then i else memmemLoop pat rest (i + 1)

/-- `slow_memmem`: the first position of the pattern, and 0 if there is none. -/
def slowMemmem (buf pat : List UInt8) : Nat :=
  if buf.length < pat.length ∨ pat.length = 0 then 0 else memmemLoop pat buf 0

/-- `epee::json_rpc::error`. -/
structure RpcError where
  code : Int
  message : String
  deriving DecidableEq

/-- `COMMAND_RPC_GETBLOCKTEMPLATE::request`. -/
structure GetBlockTemplateRequest where
  reserveSize : Nat
  walletAddress : String

/-- `COMMAND_RPC_GETBLOCKTEMPLATE::response`. Bytes are sent as hexadecimal digits;
here they are bytes. -/
structure GetBlockTemplateResponse where
  difficulty : Nat
  height : Nat
  reservedOffset : Nat
  expectedReward : Nat
  prevHash : Hash
  blocktemplateBlob : List UInt8
  blockhashingBlob : List UInt8
  status : String
  deriving DecidableEq

/-- `CORE_RPC_ERROR_CODE_INTERNAL_ERROR`, for whatever goes wrong with the template. -/
def RpcError.noTemplate : RpcError := ⟨-5, "Internal error: failed to create block template"⟩

/-- `on_getblocktemplate` from the template on. -/
def templateResponse (c : Crypto) (reserveSize : Nat) (t : BlockTemplate) :
    Except RpcError GetBlockTemplateResponse :=
  let blockBlob := blockToBlob t.block
  let txPubKey := getTxPubKeyFromExtra t.block.minerTx.extra
  if txPubKey = nullBlob 32 then .error .noTemplate
  else
    let found := slowMemmem blockBlob txPubKey.toList
    if found = 0 then .error .noTemplate
    else if blockBlob.length < found + (32 + 3) + reserveSize then .error .noTemplate
    else
      .ok
        { difficulty := t.difficulty
          height := t.height
          reservedOffset := found + (32 + 3)
          expectedReward := t.expectedReward
          prevHash := t.block.prevId
          blocktemplateBlob := blockBlob
          blockhashingBlob := c.getBlockHashingBlob t.block
          status := "OK" }

/-- `on_getblocktemplate`. `coreReady` is `check_core_ready()`; `argsFor` says what
a template for a wallet address depends on, or that the text is no address. -/
def onGetblocktemplate (c : Crypto) (env : Env) (bc : Blockchain) (coreReady : Bool)
    (argsFor : String → Option TemplateArgs) (req : GetBlockTemplateRequest) :
    Except RpcError GetBlockTemplateResponse × Blockchain :=
  if coreReady = false then (.error ⟨-9, "Core is busy"⟩, bc)
  else if 255 < req.reserveSize then (.error ⟨-3, "To big reserved size, maximum 255"⟩, bc)
  else if req.walletAddress = "" then (.error ⟨-4, "Failed to parse wallet address"⟩, bc)
  else
    match argsFor req.walletAddress with
    | none => (.error ⟨-4, "Failed to parse wallet address"⟩, bc)
    | some args =>
      let created := bc.createBlockTemplate env args (List.replicate req.reserveSize 0)
      match created.1 with
      | none => (.error .noTemplate, created.2)
      | some t => (templateResponse c req.reserveSize t, created.2)

/-! ### Searching -/

/-- The loop of `slow_memmem` as it is, with `buf` at position `pos`: what it returns, and
the ranges of the buffer that it gives to `memchr` and `memcmp`. -/
def memmemWalk (start pat : List UInt8) (c : UInt8) (pos buflen : Nat) : Nat × List (Nat × Nat) :=
  if buflen = 0 then (0, [])
  else
    -- of type `size_t`
    let count := (((buflen : Int) - pat.length + 1) % 2 ^ 64).toNat
    match _ : ((start.drop pos).take count).idxOf? c with
    | none => (0, [(pos, count)])
    | some i =>
      if (start.drop (pos + i)).take pat.length = pat then
        (pos + i, [(pos, count), (pos + i, pat.length)])
      else
        let next := memmemWalk start pat c (pos + i + 1) (start.length - (pos + i + 1))
        (next.1, (pos, count) :: (pos + i, pat.length) :: next.2)
termination_by start.length - pos
decreasing_by
  obtain ⟨hlt, -⟩ := List.idxOf?_eq_some_iff.mp ‹_›
  rw [List.length_take, List.length_drop] at hlt
  omega

/-- `slow_memmem` with these ranges. -/
def memmemRun (buf : List UInt8) : List UInt8 → Nat × List (Nat × Nat)
  | [] => (0, [])
  | c :: pat =>
    if buf.length < (c :: pat).length then (0, [])
    else memmemWalk buf (c :: pat) c 0 buf.length

def OccursAt (buf pat : List UInt8) (i : Nat) : Prop :=
  i + pat.length ≤ buf.length ∧ pat <+: buf.drop i

/-- The least offset of the pattern in the buffer, or 0 if there is none. -/
def IsLeastOffset (buf pat : List UInt8) (r : Nat) : Prop :=
  (OccursAt buf pat r ∧ ∀ i < r, ¬ OccursAt buf pat i) ∨ r = 0 ∧ ∀ i, ¬ OccursAt buf pat i

theorem IsLeastOffset.unique {buf pat : List UInt8} {r r' : Nat} (h : IsLeastOffset buf pat r)
    (h' : IsLeastOffset buf pat r') : r = r' := by
  rcases h with ⟨h, hlt⟩ | ⟨rfl, hnone⟩ <;> rcases h' with ⟨h', hlt'⟩ | ⟨rfl, hnone'⟩
  · exact Nat.le_antisymm (Nat.le_of_not_lt fun hl => hlt _ hl h')
      (Nat.le_of_not_lt fun hl => hlt' _ hl h)
  · exact absurd h (hnone' _)
  · exact absurd h' (hnone _)
  · rfl

theorem memmemLoop_least {pat : List UInt8} (hpat : pat ≠ []) (buf : List UInt8) (start : Nat) :
    (∃ i, memmemLoop pat buf start = start + i ∧ pat <+: buf.drop i ∧
      ∀ j < i, ¬ pat <+: buf.drop j) ∨
    memmemLoop pat buf start = 0 ∧ ∀ i, ¬ pat <+: buf.drop i := by
  induction buf generalizing start with
  | nil => simp [memmemLoop, hpat]
  | cons b rest ih =>
    rw [memmemLoop]
    split_ifs with hhere
    · exact .inl ⟨0, rfl, List.isPrefixOf_iff_prefix.mp hhere, nofun⟩
    · rw [List.isPrefixOf_iff_prefix] at hhere
      rcases ih (start + 1) with ⟨i, heq, hi, hlt⟩ | ⟨heq, hnone⟩
      · exact .inl ⟨i + 1, by omega, hi, Nat.forall_lt_succ_left.mpr ⟨hhere, hlt⟩⟩
      · exact .inr ⟨heq, fun i => i.casesOn hhere hnone⟩

theorem slowMemmem_least (buf pat : List UInt8) : IsLeastOffset buf pat (slowMemmem buf pat) := by
  unfold slowMemmem
  split_ifs with h
  · rcases pat with _ | ⟨c, pat⟩
    · exact .inl ⟨⟨Nat.zero_le _, List.nil_prefix⟩, nofun⟩
    · refine .inr ⟨rfl, fun i hi => ?_⟩
      have hlength := hi.1
      rw [List.length_cons] at h hlength
      omega
  have hpat : pat ≠ [] := by rintro rfl; simp at h
  rcases memmemLoop_least hpat buf 0 with ⟨i, heq, hi, hlt⟩ | ⟨heq, hnone⟩
  · have hlength := hi.length_le
    rw [List.length_drop] at hlength
    rw [heq, Nat.zero_add]
    exact .inl ⟨⟨by omega, hi⟩, fun j hj hocc => hlt j hj hocc.2⟩
  · exact .inr ⟨heq, fun i hi => hnone i hi.2⟩

theorem slowMemmem_eq {buf pat : List UInt8} {i : Nat} (hpat : pat ≠ [])
    (hfound : pat <+: buf.drop i) (hfirst : ∀ j < i, ¬ pat <+: buf.drop j) :
    slowMemmem buf pat = i := by
  have hlength := hfound.length_le
  have hpos : 0 < pat.length := List.length_pos_iff.mpr hpat
  rw [List.length_drop] at hlength
  exact (slowMemmem_least buf pat).unique
    (.inl ⟨⟨by omega, hfound⟩, fun j hj hocc => hfirst j hj hocc.2⟩)

theorem memmemWalk_least {start tail : List UInt8} {c : UInt8} (hstart : start.length < 2 ^ 64)
    {pos : Nat} (hpos : pos + (c :: tail).length ≤ start.length + 1)
    (hbefore : ∀ j < pos, ¬ OccursAt start (c :: tail) j) :
    IsLeastOffset start (c :: tail) (memmemWalk start (c :: tail) c pos (start.length - pos)).1 ∧
      ∀ range ∈ (memmemWalk start (c :: tail) c pos (start.length - pos)).2,
        range.1 + range.2 ≤ start.length := by
  induction hn : start.length - pos using Nat.strongRecOn generalizing pos with
  | ind n ih =>
    subst hn
    rw [List.length_cons] at hpos
    obtain ⟨count, hcount⟩ : ∃ count, pos + count + tail.length = start.length :=
      ⟨start.length - pos - tail.length, by omega⟩
    rw [memmemWalk, show (((start.length - pos : Nat) : Int) - (c :: tail).length + 1) % 2 ^ 64 =
      count by rw [List.length_cons]; omega, Int.toNat_natCast]
    -- the first byte of what is left to find is among those `memchr` looks at
    have hleft : ∀ {i}, OccursAt start (c :: tail) i →
        ∃ k < count, pos + k = i ∧ ((start.drop pos).take count)[k]? = some c := by
      rintro i ⟨hlength, hocc⟩
      have hle : pos ≤ i := Nat.le_of_not_lt fun hlt => hbefore i hlt ⟨hlength, hocc⟩
      obtain ⟨k, rfl⟩ := Nat.exists_eq_add_of_le hle
      rw [List.length_cons] at hlength
      have hlt : k < count := by omega
      refine ⟨k, hlt, rfl, ?_⟩
      rw [List.getElem?_take_of_lt hlt, List.getElem?_drop, ← List.head?_drop]
      obtain ⟨back, hback⟩ := hocc
      rw [← hback]
      rfl
    split_ifs with hzero
    · refine ⟨.inr ⟨rfl, fun i hi => ?_⟩, nofun⟩
      obtain ⟨k, hk, -⟩ := hleft hi
      omega
    dsimp only
    split
    · rename_i hchr
      refine ⟨.inr ⟨rfl, fun i hi => ?_⟩, by simp; omega⟩
      obtain ⟨k, -, -, hget⟩ := hleft hi
      exact List.idxOf?_eq_none_iff.mp hchr (List.mem_of_getElem? hget)
    rename_i i hchr
    obtain ⟨hlt, -, hfirst⟩ := List.idxOf?_eq_some_iff.mp hchr
    rw [List.length_take, List.length_drop] at hlt
    have hnot : ∀ j < pos + i, ¬ OccursAt start (c :: tail) j := by
      intro j hj hocc
      obtain ⟨k, -, rfl, hget⟩ := hleft hocc
      exact hfirst k (by omega) (List.getElem?_eq_some_iff.mp hget).2
    have hcmp : OccursAt start (c :: tail) (pos + i) ↔
        (start.drop (pos + i)).take (c :: tail).length = c :: tail := by
      rw [OccursAt, List.prefix_iff_eq_take, eq_comm, and_iff_right (by simp; omega)]
    split_ifs with hfound
    · exact ⟨.inl ⟨hcmp.mpr hfound, hnot⟩, by simp; omega⟩
    obtain ⟨hleast, hinside⟩ := ih _ (by omega) (by simp; omega)
      (Nat.forall_lt_succ_right.mpr ⟨hnot, mt hcmp.mp hfound⟩) rfl
    refine ⟨hleast, List.forall_mem_cons.mpr ⟨by simp; omega, ?_⟩⟩
    exact List.forall_mem_cons.mpr ⟨by simp; omega, hinside⟩

/-- **The search is exact**, and no byte behind the buffer is looked at. -/
theorem memmemRun_exact (buf pat : List UInt8) (hbuf : buf.length < 2 ^ 64) :
    IsLeastOffset buf pat (memmemRun buf pat).1 ∧
      (∀ range ∈ (memmemRun buf pat).2, range.1 + range.2 ≤ buf.length) ∧
      slowMemmem buf pat = (memmemRun buf pat).1 := by
  suffices h : IsLeastOffset buf pat (memmemRun buf pat).1 ∧
      ∀ range ∈ (memmemRun buf pat).2, range.1 + range.2 ≤ buf.length from
    ⟨h.1, h.2, (slowMemmem_least buf pat).unique h.1⟩
  cases pat with
  | nil => exact ⟨.inl ⟨⟨Nat.zero_le _, List.nil_prefix⟩, nofun⟩, nofun⟩
  | cons c pat =>
    rw [memmemRun]
    split_ifs with hlt
    · exact ⟨.inr ⟨rfl, fun i hi => by have := hi.1; omega⟩, nofun⟩
    · exact memmemWalk_least hbuf (by omega) nofun

theorem memmemRun_exact_overlapping :
    IsLeastOffset [1, 1, 2] [1, 2] (memmemRun [1, 1, 2] [1, 2]).1 :=
  (memmemRun_exact [1, 1, 2] [1, 2] (by decide)).1

def overwrite (buf : List UInt8) (offset : Nat) (bytes : List UInt8) : List UInt8 :=
  buf.take offset ++ bytes ++ buf.drop (offset + bytes.length)

theorem overwrite_append {front old back bytes : List UInt8} (h : bytes.length = old.length) :
    overwrite (front ++ old ++ back) front.length bytes = front ++ bytes ++ back := by
  have hfront : (front ++ old ++ back).take front.length = front := by
    rw [List.append_assoc, List.take_left]
  rw [overwrite, hfront, h, List.drop_left' (by simp)]

/-! ### The extra nonce -/

theorem extraFields_of_some {n : Nat} {s rest : List UInt8} {field : TxExtraField}
    (h : serializeTxExtraField false s = some (field, rest)) :
    readTxExtraFields (n + 1) s = field :: readTxExtraFields n rest := by
  rw [readTxExtraFields, h]
  cases rest with
  | nil => cases n <;> rfl
  | cons b rest => rfl

theorem extraFields_of_none {n : Nat} {s : List UInt8}
    (h : serializeTxExtraField false s = none) : readTxExtraFields n s = [] := by
  cases n with
  | zero => rfl
  | succ n => rw [readTxExtraFields, h]

/-- The extra bytes of a template in front of the data of the nonce. -/
def nonceHead (key : PublicKey) (size : Nat) : List UInt8 :=
  (TxExtraField.pubKey key).write ++ [0x02, UInt8.ofNat size]

/-- The tag and the key, the tag and the size. -/
def nonceOffset : Nat := 1 + 32 + 1 + 1

theorem length_nonceHead (key : PublicKey) (size : Nat) :
    (nonceHead key size).length = nonceOffset := by
  have hkey : key.toList.length = 32 := key.toList_length
  simp [nonceHead, TxExtraField.write, nonceOffset, hkey]

section Nonce

variable {key : PublicKey} {size : Nat} {nonce rest : List UInt8}

theorem extraFields_nonceHead (n : Nat) :
    readTxExtraFields (n + 1) (nonceHead key size ++ rest) =
      .pubKey key :: readTxExtraFields n (0x02 :: UInt8.ofNat size :: rest) := by
  have hkey : Reads serializeTxExtraField (TxExtraField.pubKey key).write (.pubKey key) :=
    reads_txExtraField trivial rfl
  rw [nonceHead, List.append_assoc]
  exact extraFields_of_some (hkey false _)

theorem pubKeyFromExtra_nonceHead :
    getTxPubKeyFromExtra (nonceHead key size ++ rest) = key := by
  have hlength : (nonceHead key size ++ rest).length = 34 + rest.length + 1 := by
    rw [List.length_append, length_nonceHead, nonceOffset]
    omega
  rw [getTxPubKeyFromExtra, hlength, extraFields_nonceHead]
  rfl

theorem extraNonce?_nonceHead :
    extraNonce? (nonceHead key size ++ rest) =
      (readTxExtraFields (33 + rest.length + 1) (0x02 :: UInt8.ofNat size :: rest)).findSome?
        TxExtraField.nonce? := by
  have hlength : (nonceHead key size ++ rest).length = 33 + rest.length + 1 + 1 := by
    rw [List.length_append, length_nonceHead, nonceOffset]
    omega
  rw [extraNonce?, hlength, extraFields_nonceHead]
  rfl

theorem extraNonce?_of_le (hsize : size ≤ 127) (hnonce : nonce.length = size) :
    extraNonce? (nonceHead key size ++ (nonce ++ rest)) = some nonce := by
  have hwrite : 0x02 :: UInt8.ofNat size :: (nonce ++ rest) =
      (TxExtraField.nonce nonce).write ++ rest := by
    have hvarint : writeVarint size = [UInt8.ofNat size] := by
      rw [writeVarint, if_pos (by omega)]
    simp [TxExtraField.write, writeString, hnonce, hvarint]
  have hreadable : (TxExtraField.nonce nonce).Readable := by
    change nonce.length ≤ 255
    omega
  rw [extraNonce?_nonceHead, hwrite,
    extraFields_of_some (reads_txExtraField hreadable rfl false rest)]
  rfl

/-- From 128 on it is the first digit of a longer varint. A zero behind it ends
that, and the high bit is lost. -/
theorem length_extraNonce?_of_ge (hsize : 128 ≤ size) (hmax : size ≤ 255)
    (h : extraNonce? (nonceHead key size ++ 0 :: rest) = some nonce) :
    nonce.length = size - 128 := by
  have hbyte : (UInt8.ofNat size).toNat = size := UInt8.toNat_ofNat_of_lt' (show size < 256 by omega)
  rw [extraNonce?_nonceHead] at h
  cases hfield : serializeTxExtraField false (0x02 :: UInt8.ofNat size :: 0 :: rest) with
  | none =>
    rw [extraFields_of_none hfield] at h
    cases h
  | some result =>
    obtain ⟨field, s1⟩ := result
    rw [extraFields_of_some hfield] at h
    obtain ⟨data, s2, hstring, hfield⟩ := Reader.bind_some
      (show (serializeString >>= fun nonce => Reader.guard (nonce.length ≤ txExtraNonceMaxCount)
        >>= fun _ => pure (.nonce nonce)) false (UInt8.ofNat size :: 0 :: rest) =
          some (field, s1) from hfield)
    obtain ⟨_, s3, -, hfield⟩ := Reader.bind_some hfield
    cases hfield
    obtain rfl : data = nonce := Option.some.inj h
    obtain ⟨cnt, s4, hcnt, hstring⟩ := Reader.bind_some hstring
    obtain ⟨_, s5, -, hstring⟩ := Reader.bind_some hstring
    rw [Reader.length_of_times hstring]
    simp only [serializeUvarint, readVarint_cons, Bool.false_eq_true, false_and, if_false,
      Option.some.injEq, hbyte] at hcnt
    rw [if_neg (by omega), readVarintLoop, if_neg (by omega), if_pos (by decide)] at hcnt
    have hvalue : size % 128 = cnt := (Prod.mk.inj hcnt).1
    omega

end Nonce

/-! ### Replacing the nonce -/

/-- A blob parses as the block, but for the data of the extra nonce, which has the
given size still. -/
def NonceReplaced (b : Block) (size : Nat) (blob : List UInt8) : Prop :=
  ∃ b' nonce, parseAndValidateBlockFromBlob .null blob = some b' ∧ nonce.length = size ∧
    extraNonce? b'.minerTx.extra = some nonce ∧
    (b.withExtra (overwrite b.minerTx.extra nonceOffset nonce)).Same b'

/-- A template, as far as the reserved area is concerned: the extra bytes are the
key, a nonce of zeros and padding. -/
structure Reserved (b : Block) (key : PublicKey) (size delta : Nat) : Prop where
  wellFormed : b.WellFormed
  writable : Writable b
  nonce : b.nonce = 0
  extra : b.minerTx.extra =
    nonceHead key size ++ (List.replicate size 0 ++ List.replicate delta 0)

namespace Reserved

variable {b b' : Block} {key : PublicKey} {size delta : Nat} {nonce pad back : List UInt8}

section

variable (h : Reserved b key size delta)
include h

theorem length_eq (hnonce : nonce.length = size) (hpad : pad.length = delta) :
    (nonceHead key size ++ (nonce ++ pad)).length = b.minerTx.extra.length := by
  simp [h.extra, hnonce, hpad]

theorem overwrite_extra (hnonce : nonce.length = size) :
    overwrite b.minerTx.extra nonceOffset nonce =
      nonceHead key size ++ (nonce ++ List.replicate delta 0) := by
  have hold : nonce.length = (List.replicate size (0 : UInt8)).length := by simp [hnonce]
  rw [h.extra, ← List.append_assoc, ← length_nonceHead key size, overwrite_append hold,
    List.append_assoc]

/-- A blob with other bytes for the nonce and the padding is read up to there. -/
theorem serializeBlock_eq (hnonce : nonce.length = size) (hpad : pad.length = delta) (strict : Bool)
    (s : List UInt8) :
    serializeBlock .null strict
        (bytesBeforeExtra b ++ (nonceHead key size ++ (nonce ++ pad)) ++ s) =
      finishBlock (b.withExtra (nonceHead key size ++ (nonce ++ pad)))
        (b.withExtra (nonceHead key size ++ (nonce ++ pad))).minerTx.toTransactionPrefix
        strict s := by
  have hlength := h.length_eq hnonce hpad
  rw [← beforeExtra_withExtra hlength]
  exact serializeBlock_bytesBeforeExtra (h.wellFormed.withExtra hlength)
    (h.writable.withExtra _) strict s

/-- With the bytes of the template behind the nonce, only the nonce changes. -/
theorem nonceReplaced (hsize : size ≤ 127) (hnonce : nonce.length = size) :
    NonceReplaced b size (bytesBeforeExtra b ++
      (nonceHead key size ++ (nonce ++ List.replicate delta 0)) ++ bytesAfterExtra b) := by
  have hpad : (List.replicate delta (0 : UInt8)).length = delta := List.length_replicate
  have hlength := h.length_eq hnonce hpad
  have hblob := (h.writable.withExtra
    (nonceHead key size ++ (nonce ++ List.replicate delta 0))).blockToBlob_eq
  rw [beforeExtra_withExtra hlength] at hblob
  refine ⟨Block.null.readInto (b.withExtra
    (nonceHead key size ++ (nonce ++ List.replicate delta 0))), nonce, ?_, hnonce,
    extraNonce?_of_le hsize hnonce, ?_⟩
  · exact (congrArg _ hblob.symm).trans (parse_blockToBlob (h.wellFormed.withExtra hlength))
  · rw [h.overwrite_extra hnonce]
    exact (Block.same_readInto_iff rfl rfl).mpr fun _ => h.nonce

/-- The bytes behind the nonce are those of the template, or the count of the hashes
breaks off. -/
theorem of_nonceReplaced (hmax : size ≤ 255) {w : List UInt8} (hw : w.length + 1 = size)
    {x z : UInt8} (hback : List.replicate delta 0 ++ bytesAfterExtra b = z :: back)
    (hreplaced : NonceReplaced b size
      (bytesBeforeExtra b ++ (nonceHead key size ++ 0 :: w) ++ x :: back)) :
    size ≤ 127 ∧
      (x = z ∨ b.minerTx.version ≤ 1 ∧ delta = 0 ∧ b.txHashes = [] ∧ x = 0x80) := by
  obtain ⟨b', nonce, hparse, hlength, hfound, hsame⟩ := hreplaced
  have hread := serializeBlock_of_parse hparse
  obtain ⟨height, hvin⟩ := h.writable.vin
  have hvin' : ∀ extra, (b.withExtra extra).minerTx.vin = [.gen height] := fun _ => hvin
  have hnonce : (0 :: w : List UInt8).length = size := hw
  -- a size that is not its own varint is not read as this size
  have hsmall : ∀ pad, b'.minerTx.extra = nonceHead key size ++ ((0 :: w) ++ pad) →
      size ≤ 127 := by
    intro pad hextra
    by_contra hlarge
    rw [hextra] at hfound
    have hshort := length_extraNonce?_of_ge (by omega) hmax hfound
    omega
  cases delta with
  | succ k =>
    -- the byte is one of the padding
    obtain ⟨rfl, rfl⟩ := List.cons.inj
      (show 0 :: (List.replicate k 0 ++ bytesAfterExtra b) = z :: back from hback)
    have hpad : (x :: List.replicate k 0).length = k + 1 := by simp
    have hblob : bytesBeforeExtra b ++ (nonceHead key size ++ 0 :: w) ++
        x :: (List.replicate k 0 ++ bytesAfterExtra b) =
        bytesBeforeExtra b ++ (nonceHead key size ++ ((0 :: w) ++ x :: List.replicate k 0)) ++
          bytesAfterExtra b := by simp
    rw [hblob, h.serializeBlock_eq hnonce hpad] at hread
    obtain ⟨hextra, -⟩ := finishBlock_inv (hvin' _) hread
    refine ⟨hsmall _ hextra, .inl ?_⟩
    have hkept := hextra.symm.trans hsame.minerTx.extra
    rw [h.overwrite_extra hlength] at hkept
    have hpadding := (List.append_inj (List.append_cancel_left hkept) (hnonce.trans hlength.symm)).2
    exact (List.cons.inj hpadding).1
  | zero =>
    have hblob : nonceHead key size ++ 0 :: w = nonceHead key size ++ ((0 :: w) ++ []) := by simp
    rw [hblob, h.serializeBlock_eq hnonce rfl] at hread
    obtain ⟨hextra, hhashes, htype⟩ := finishBlock_inv (hvin' _) hread
    refine ⟨hsmall _ hextra, ?_⟩
    rcases h.writable.version with hversion | hversion
    · -- the byte is the first one of the count of the hashes
      rw [List.replicate_zero, List.nil_append, bytesAfterExtra, if_pos (by omega),
        List.nil_append] at hback
      have hvector := hhashes (by change b.minerTx.version ≤ 1; omega)
      rw [hsame.txHashes] at hvector
      rcases first_byte_of_vector h.wellFormed.txHashes hback hvector with hx | hx
      · exact .inl hx
      · exact .inr ⟨by omega, rfl, hx⟩
    · -- the byte is the type of the RingCT part
      rw [List.replicate_zero, List.nil_append, bytesAfterExtra, if_neg (by omega)] at hback
      obtain ⟨type, s', hs, htype⟩ := htype (by change 1 < b.minerTx.version; omega)
      obtain ⟨rfl, -⟩ := List.cons.inj hs
      have hnull := (hsame.minerTx.rctSignatures (by change 1 < b.minerTx.version; omega)
        (by change b.minerTx.vin ≠ []; simp [hvin])).type
      rw [htype] at hnull
      have hzero : x.toNat = 0 := by
        rw [hnull]
        change b.minerTx.rctSignatures.type = 0
        rw [h.writable.rctSignatures]
        rfl
      left
      rw [← (List.cons.inj hback).1]
      exact UInt8.toNat_inj.mp hzero

/-- **The reserved area.** The last byte that is overwritten is `x`; the bytes in
front of it replace the nonce but for its first byte. -/
theorem nonceReplaced_iff (hmax : size ≤ 255) {w : List UInt8} (hw : w.length + 1 = size)
    {x z : UInt8} (hback : List.replicate delta 0 ++ bytesAfterExtra b = z :: back) :
    NonceReplaced b size (bytesBeforeExtra b ++ (nonceHead key size ++ 0 :: w) ++ x :: back) ↔
      size ≤ 127 ∧
        (x = z ∨ b.minerTx.version ≤ 1 ∧ delta = 0 ∧ b.txHashes = [] ∧ x = 0x80) := by
  refine ⟨h.of_nonceReplaced hmax hw hback, ?_⟩
  rintro ⟨hsize, rfl | ⟨hversion, rfl, hhashes, rfl⟩⟩
  · have hnonce : (0 :: w : List UInt8).length = size := hw
    have hreplaced := h.nonceReplaced hsize hnonce
    rw [← hback]
    simpa only [List.append_assoc] using hreplaced
  · -- the broken count is read as the one of the template
    have hnonce : (0 :: w : List UInt8).length = size := hw
    have hafter : bytesAfterExtra b = [0] := by
      rw [bytesAfterExtra, if_pos hversion, hhashes]
      simp [writeVector, writeVarint]
    obtain ⟨rfl, rfl⟩ := List.cons.inj (hback.symm.trans hafter)
    have hreplaced := h.nonceReplaced hsize hnonce
    rw [hafter] at hreplaced
    obtain ⟨b', nonce, hparse, hrest⟩ := hreplaced
    refine ⟨b', nonce, Eq.trans ?_ hparse, hrest⟩
    obtain ⟨height, hvin⟩ := h.writable.vin
    have hversion' : ∀ extra, (b.withExtra extra).minerTx.version ≤ 1 := fun _ => hversion
    have hvin' : ∀ extra, (b.withExtra extra).minerTx.vin = [.gen height] := fun _ => hvin
    have hbroken : serializeVector (serializeBlob 32) false [0x80] = some ([], []) := rfl
    have hcount : serializeVector (serializeBlob 32) false [0] = some ([], []) := rfl
    have hblob : nonceHead key size ++ 0 :: w =
        nonceHead key size ++ ((0 :: w) ++ List.replicate 0 0) := by simp
    rw [hblob, parseAndValidateBlockFromBlob, parseAndValidateBlockFromBlob,
      h.serializeBlock_eq hnonce rfl, h.serializeBlock_eq hnonce rfl,
      finishBlock_of_le (hversion' _) (hvin' _), finishBlock_of_le (hversion' _) (hvin' _),
      Reader.bind_of_some _ hbroken, Reader.bind_of_some _ hcount]

end

end Reserved

/-! ### Templates have a reserved area -/

/-- The numbers that a template takes over fit their types, as those of a stored
chain do. -/
structure TemplateFits (bc : Blockchain) (now : Nat) : Prop where
  fork : bc.hardfork.currentForkIndex < bc.hardfork.heights.entries.length
  now : now < 2 ^ 64
  timestamps : ∀ b ∈ bc.db.chain, b.timestamp < 2 ^ 64
  height : bc.db.height + Blockchain.minedMoneyUnlockWindow < 2 ^ 64

theorem HardFork.lastForkVersion_lt (hf : HardFork) : hf.lastForkVersion < 256 := by
  rw [HardFork.lastForkVersion]
  cases hlast : hf.heights.entries.getLast? with
  | none => decide
  | some p => exact hf.heights.version_lt p (List.mem_of_getLast? hlast)

theorem templateParent_wellFormed : Blockchain.templateParent.WellFormed := by
  refine ⟨show 1 < 2 ^ 8 by decide, show 0 < 2 ^ 8 by decide, show 0 < 2 ^ 32 by decide,
    ⟨show 1 ≤ 1 by decide, show 1 < 2 ^ 64 by decide⟩, ?_,
    Transaction.wellFormed_null (by decide +kernel), ?_⟩
  · decide
  · have htag : getMmTagFromExtra (TxExtraField.mergeMiningTag ⟨0, nullHash⟩).write =
        some ⟨0, nullHash⟩ := by decide +kernel
    exact ⟨⟨0, nullHash⟩, htag, rfl⟩

namespace TemplateFits

variable {bc : Blockchain} {now : Nat}

theorem currentVersion (h : TemplateFits bc now) :
    1 ≤ bc.currentVersion ∧ bc.currentVersion < 256 := by
  have hmem := List.getElem_mem h.fork
  rw [Blockchain.currentVersion, HardFork.getCurrentVersion, ForkTable.versionAt,
    List.getElem?_eq_getElem h.fork]
  exact ⟨bc.hardfork.heights.version_pos _ hmem, bc.hardfork.heights.version_lt _ hmem⟩

theorem templateTimestamp (h : TemplateFits bc now) : bc.templateTimestamp now < 2 ^ 64 := by
  unfold Blockchain.templateTimestamp
  split
  · exact h.now
  refine max_lt ?_ (subU64_lt _ _)
  have hle : median bc.timestampWindow ≤ 2 ^ 64 - 1 := by
    refine median_le fun x hx => ?_
    obtain ⟨b, hb, rfl⟩ := List.mem_map.mp hx
    have hlt := h.timestamps b (List.mem_of_mem_drop hb)
    omega
  omega

end TemplateFits

namespace Blockchain.IsTemplate

variable {env : Env} {bc : Blockchain} {args : TemplateArgs} {exNonce : List UInt8} {b : Block}
  {key : PublicKey} {delta reward : Nat}

section

variable (h : IsTemplate env bc args exNonce b key delta reward)
include h

theorem majorVersion : b.majorVersion = bc.currentVersion :=
  (congrArg BlockHeader.majorVersion h.header_eq.1).trans (templateBase_majorVersion _)

theorem nonce : b.nonce = 0 :=
  (congrArg BlockHeader.nonce h.header_eq.1).trans (templateBase_nonce _)

theorem parentBlock (hmined : isMergeMined b.toBlockHeader = true) : b.parentBlock.WellFormed := by
  rw [h.header_eq.1] at hmined
  rw [h.header_eq.2, templateBase_parentBlock hmined]
  exact templateParent_wellFormed

theorem minerTxVersion : b.minerTx.version = 1 ∨ b.minerTx.version = 2 := by
  rw [h.pays.version_eq]
  split
  · exact .inr rfl
  · exact .inl rfl

theorem writable (hfits : TemplateFits bc args.now) (hversion : bc.currentVersion ≤ 8) :
    Writable b where
  majorVersion := h.majorVersion ▸ hversion
  timestamp := h.timestamp ▸ hfits.templateTimestamp
  parentBlock := h.parentBlock
  version := h.minerTxVersion
  isMmTx := h.pays.isMmTx
  vin := ⟨_, h.pays.vin⟩
  signatures := h.pays.signatures
  rctSignatures := h.pays.rctSignatures

/-- The miner transaction can be read back. Its outputs are amounts of 64 bits since
their sum is. -/
theorem minerTx_wellFormed (hfits : TemplateFits bc args.now)
    (hvout : b.minerTx.vout.length < 2 ^ 64) (hextra : b.minerTx.extra.length < 2 ^ 64) :
    b.minerTx.WellFormed := by
  have hheight := hfits.height
  have hclaimed : claimedReward bc.currentVersion reward (templateFee bc.txPool b) < 2 ^ 64 := by
    unfold claimedReward
    have hlt := u64_lt (reward + templateFee bc.txPool b)
    split <;> omega
  refine ⟨⟨?_, ?_, ?_, ⟨hvout, fun o ho => ⟨?_, ?_⟩⟩, hextra⟩, fun _ => ?_, fun _ first hfirst => ?_⟩
  · rcases h.minerTxVersion with hversion | hversion <;> omega
  · rwa [h.pays.unlockTime]
  · rw [h.pays.vin]
    refine ⟨show 1 < 2 ^ 64 by decide, fun i hi => ?_⟩
    obtain rfl := List.mem_singleton.mp hi
    change bc.db.height < 2 ^ 64
    omega
  · have hle : o.amount ≤ (b.minerTx.vout.map (·.amount)).sum :=
      List.single_le_sum (fun _ _ => Nat.zero_le _) _ (List.mem_map.mpr ⟨o, ho, rfl⟩)
    exact (hle.trans h.pays.sum_le).trans_lt hclaimed
  · obtain ⟨outKey, hkey⟩ := h.pays.targets o ho
    rw [hkey]
    trivial
  · rw [h.pays.signatures, h.pays.vin]
    exact .inr ⟨rfl, by simp [TxIn.signatureSize]⟩
  · rw [h.pays.rctSignatures]
    exact ⟨.inl rfl, show 0 < 2 ^ 64 by decide, fun hsimple => absurd hsimple (by decide),
      fun hne => absurd rfl hne, fun hne => absurd rfl hne, fun hne => absurd rfl hne,
      fun hne => absurd rfl hne⟩

theorem wellFormed (hfits : TemplateFits bc args.now) (hversion : bc.currentVersion ≤ 8)
    (hblob : (blockToBlob b).length < 2 ^ 64) : b.WellFormed := by
  have houts : b.minerTx.vout.length ≤ (b.minerTx.vout.flatMap writeTxout).length :=
    length_le_length_flatMap fun o _ => writeTxout_ne_nil o
  have hhashes : b.txHashes.length ≤ (b.txHashes.flatMap List.Vector.toList).length := by
    refine length_le_length_flatMap fun id _ hnil => ?_
    have hlength : id.toList.length = 32 := id.toList_length
    simp [hnil] at hlength
  rw [(h.writable hfits hversion).blockToBlob_eq] at hblob
  simp only [bytesBeforeExtra, bytesAfterExtra, prefixBytes, writeVector, List.length_append]
    at hblob
  have hminor : b.minorVersion < 2 ^ 8 := by
    have hle := @templateBase_minorVersion_le bc (bc.templateTimestamp args.now)
    have hlt := bc.hardfork.lastForkVersion_lt
    rw [h.header_eq.1]
    omega
  refine ⟨?_, hminor, h.timestamp ▸ hfits.templateTimestamp, h.nonce ▸ by decide, h.parentBlock,
    h.minerTx_wellFormed hfits (by omega) (by omega), h.minerTxVersion, by omega⟩
  rw [h.majorVersion]
  exact ⟨hfits.currentVersion.1, hversion⟩

end

theorem reserved {size : Nat}
    (h : IsTemplate env bc args (List.replicate size 0) b key delta reward)
    (hfits : TemplateFits bc args.now) (hversion : bc.currentVersion ≤ 8)
    (hblob : (blockToBlob b).length < 2 ^ 64) (hsize : 1 ≤ size) :
    Reserved b key size delta := by
  refine ⟨h.wellFormed hfits hversion hblob, h.writable hfits hversion, h.nonce, ?_⟩
  obtain ⟨extra, hextra, hpadded⟩ := h.extra
  have hne : List.replicate size (0 : UInt8) ≠ [] := by
    simp
    omega
  rw [minerExtra, if_neg hne, addExtraNonceToTxExtra] at hextra
  split at hextra
  · cases hextra
    rw [hpadded, nonceHead, List.length_replicate]
    simp [addTxPubKeyToExtra, TxExtraField.write]
  · cases hextra

end Blockchain.IsTemplate

/-! ### The reserved area of a response -/

section Response

variable {c : Crypto} {env : Env} {bc bc' : Blockchain} {coreReady : Bool}
  {argsFor : String → Option TemplateArgs} {req : GetBlockTemplateRequest}
  {res : GetBlockTemplateResponse} {args : TemplateArgs} {t : BlockTemplate}

theorem onGetblocktemplate_ok
    (h : onGetblocktemplate c env bc coreReady argsFor req = (.ok res, bc'))
    (hargs : argsFor req.walletAddress = some args)
    (ht : (bc.createBlockTemplate env args (List.replicate req.reserveSize 0)).1 = some t) :
    req.reserveSize ≤ 255 ∧ templateResponse c req.reserveSize t = .ok res := by
  unfold onGetblocktemplate at h
  rw [hargs] at h
  dsimp only at h
  rw [ht] at h
  split at h
  · cases h
  split at h
  · cases h
  rename_i hsize
  split at h
  · cases h
  · exact ⟨by omega, (Prod.mk.inj h).1⟩

theorem templateResponse_ok {reserveSize : Nat} (h : templateResponse c reserveSize t = .ok res) :
    res.blocktemplateBlob = blockToBlob t.block ∧
      slowMemmem (blockToBlob t.block) (getTxPubKeyFromExtra t.block.minerTx.extra).toList ≠ 0 ∧
      res.reservedOffset = slowMemmem (blockToBlob t.block)
        (getTxPubKeyFromExtra t.block.minerTx.extra).toList + 35 := by
  unfold templateResponse at h
  dsimp only at h
  split at h
  · cases h
  split at h
  · cases h
  rename_i hfound
  split at h
  · cases h
  · cases h
    exact ⟨rfl, hfound, rfl⟩

theorem blockToBlob_of_lt {b : Block} (h : 8 < b.majorVersion) :
    blockToBlob b = writeVarint b.majorVersion := by
  have hfails : (Output.emit (writeVarint b.majorVersion) ++
      Output.check (decide (b.majorVersion ≤ 8))).ok = false := by
    rw [decide_eq_false (by omega)]
    rfl
  have hheader : writeBlockHeader b.toBlockHeader =
      Output.emit (writeVarint b.majorVersion) ++ Output.check (decide (b.majorVersion ≤ 8)) :=
    Output.append_of_not_ok hfails _
  rw [blockToBlob, writeBlock, hheader, Output.append_assoc, Output.append_assoc,
    Output.append_of_not_ok hfails]
  simp [Output.append_of_ok, Output.emit, Output.check]

theorem currentVersion_le_of_found {key : PublicKey} (hfits : TemplateFits bc args.now)
    (hmajor : t.block.majorVersion = bc.currentVersion)
    (hfound : slowMemmem (blockToBlob t.block) key.toList ≠ 0) : bc.currentVersion ≤ 8 := by
  by_contra hlater
  have hlength : key.toList.length = 32 := key.toList_length
  have hlt : bc.currentVersion < 2 ^ (7 * (1 + 1)) :=
    hfits.currentVersion.2.trans (by decide)
  have hshort := length_writeVarint_le 1 hlt
  refine hfound (if_pos (.inl ?_))
  rw [blockToBlob_of_lt (by omega), hmajor]
  omega

theorem slowMemmem_reserved {b : Block} {key : PublicKey} {size delta : Nat}
    (h : Reserved b key size delta)
    (hfirst : ∀ i < (bytesBeforeExtra b).length + 1, ¬ key.toList <+: (blockToBlob b).drop i) :
    slowMemmem (blockToBlob b) key.toList = (bytesBeforeExtra b).length + 1 := by
  have hlength : key.toList.length = 32 := key.toList_length
  have hne : key.toList ≠ [] := by
    intro hnil
    simp [hnil] at hlength
  refine slowMemmem_eq hne ?_ hfirst
  have hblob : blockToBlob b = (bytesBeforeExtra b ++ [0x01]) ++ (key.toList ++
      ([0x02, UInt8.ofNat size] ++ (List.replicate size 0 ++ List.replicate delta 0) ++
        bytesAfterExtra b)) := by
    rw [h.writable.blockToBlob_eq, h.extra, nonceHead, TxExtraField.write]
    simp
  rw [hblob, List.drop_left' (by simp)]
  exact List.prefix_append _ _

theorem bytesAfterExtra_ne_nil (b : Block) : bytesAfterExtra b ≠ [] := by
  intro hnil
  have hcount := (List.append_eq_nil_iff.mp hnil).2
  rw [writeVector] at hcount
  exact writeVarint_ne_nil _ (List.append_eq_nil_iff.mp hcount).1

/-- **The reserved area.** For every successful call, whatever the pool writes there:
the blob parses as the template with another nonce of the same size, exactly if the
nonce has at most 127 bytes and the last byte stays as it is, or stands for the number
of transactions of a block that has none and is written as a varint that breaks off. -/
theorem getblocktemplate_reserved_iff
    (h : onGetblocktemplate c env bc coreReady argsFor req = (.ok res, bc'))
    (hargs : argsFor req.walletAddress = some args)
    (ht : (bc.createBlockTemplate env args (List.replicate req.reserveSize 0)).1 = some t)
    (hsize : 1 ≤ req.reserveSize) (hfits : TemplateFits bc args.now)
    (hmemory : res.blocktemplateBlob.length < 2 ^ 64)
    (hfirst : ∀ i < (bytesBeforeExtra t.block).length + 1,
      ¬ (getTxPubKeyFromExtra t.block.minerTx.extra).toList <+: res.blocktemplateBlob.drop i)
    {w : List UInt8} (hw : w.length = req.reserveSize) :
    NonceReplaced t.block req.reserveSize (overwrite res.blocktemplateBlob res.reservedOffset w) ↔
      req.reserveSize ≤ 127 ∧
        (w.getLast? = res.blocktemplateBlob[res.reservedOffset + req.reserveSize - 1]? ∨
          bc.currentVersion < 4 ∧ t.block.minerTx.extra.length = nonceOffset + req.reserveSize ∧
            t.block.txHashes = [] ∧ w.getLast? = some 0x80) := by
  obtain ⟨hmax, hresponse⟩ := onGetblocktemplate_ok h hargs ht
  obtain ⟨hblob, hfound, hoffset⟩ := templateResponse_ok hresponse
  obtain ⟨key, delta, reward, htemplate⟩ := Blockchain.template_spec ht
  rw [hblob] at hmemory hfirst ⊢
  have hversion := currentVersion_le_of_found hfits htemplate.majorVersion hfound
  have hreserved := htemplate.reserved hfits hversion hmemory hsize
  have hkey : getTxPubKeyFromExtra t.block.minerTx.extra = key := by
    rw [hreserved.extra, pubKeyFromExtra_nonceHead]
  rw [hkey] at hfirst hoffset
  rw [slowMemmem_reserved hreserved hfirst] at hoffset
  -- the byte behind the nonce
  obtain ⟨z, back, hback⟩ : ∃ z back,
      List.replicate delta 0 ++ bytesAfterExtra t.block = z :: back :=
    List.exists_cons_of_ne_nil fun hnil =>
      bytesAfterExtra_ne_nil t.block (List.append_eq_nil_iff.mp hnil).2
  -- the bytes that are written, the last one behind the nonce
  have hne : w ≠ [] := by
    intro hnil
    simp [hnil] at hw
    omega
  obtain ⟨w', x, rfl⟩ := (List.eq_nil_or_concat' w).resolve_left hne
  have hw' : w'.length + 1 = req.reserveSize := by simpa using hw
  have hsplit : blockToBlob t.block =
      (bytesBeforeExtra t.block ++ (nonceHead key req.reserveSize ++ [0])) ++
        (List.replicate w'.length 0 ++ [z]) ++ back := by
    rw [hreserved.writable.blockToBlob_eq, hreserved.extra, ← hw', List.replicate_succ]
    simp only [List.append_assoc, List.cons_append, List.nil_append, hback]
  have hfront : res.reservedOffset =
      (bytesBeforeExtra t.block ++ (nonceHead key req.reserveSize ++ [0])).length := by
    rw [hoffset, List.length_append, List.length_append, length_nonceHead]
    rfl
  have hwritten : overwrite (blockToBlob t.block) res.reservedOffset (w' ++ [x]) =
      bytesBeforeExtra t.block ++ (nonceHead key req.reserveSize ++ 0 :: w') ++ x :: back := by
    rw [hfront, hsplit, overwrite_append (by simp)]
    simp
  have hbyte : (blockToBlob t.block)[res.reservedOffset + req.reserveSize - 1]? = some z := by
    have hindex : res.reservedOffset + req.reserveSize - 1 =
        (bytesBeforeExtra t.block ++ (nonceHead key req.reserveSize ++ [0]) ++
          List.replicate w'.length 0).length := by
      rw [List.length_append, ← hfront, List.length_replicate]
      omega
    rw [hindex, hsplit, ← List.append_assoc, List.append_assoc, List.getElem?_append_right le_rfl]
    simp
  have hv1 : t.block.minerTx.version ≤ 1 ↔ bc.currentVersion < 4 := by
    rw [htemplate.pays.version_eq]
    split <;> omega
  have hunpadded : delta = 0 ↔
      t.block.minerTx.extra.length = nonceOffset + req.reserveSize := by
    rw [hreserved.extra, List.length_append, length_nonceHead]
    simp
  rw [hwritten, hreserved.nonceReplaced_iff hmax hw' hback, hbyte, List.getLast?_concat,
    Option.some_inj, Option.some_inj, hv1, hunpadded]

end Response

/-! ### A call at version 5 -/

section Call

open Blockchain

def nullCrypto : Crypto := ⟨fun _ => nullHash, fun _ _ _ => nullHash, fun _ => nullHash, nullHash⟩

def reservedArgs : TemplateArgs :=
  { aheadArgs 1400 with
    keys := fun _ => ⟨List.Vector.replicate 32 7, fun _ => some (nullBlob 32)⟩ }

def reservedCall : Except RpcError GetBlockTemplateResponse × Blockchain :=
  onGetblocktemplate nullCrypto .permissive aheadChain true (fun _ => some reservedArgs)
    ⟨8, "address"⟩

def reservedTemplate : Option BlockTemplate :=
  (aheadChain.createBlockTemplate .permissive reservedArgs (List.replicate 8 0)).1

theorem reservedCall_ok : ∃ res t, reservedCall = (.ok res, reservedCall.2) ∧
    reservedTemplate = some t ∧
    (∀ i < (bytesBeforeExtra t.block).length + 1,
      ¬ (getTxPubKeyFromExtra t.block.minerTx.extra).toList <+: res.blocktemplateBlob.drop i) ∧
    res.blocktemplateBlob.length < 2 ^ 64 ∧
    res.blocktemplateBlob[res.reservedOffset + 8 - 1]? = some 0 ∧
    (parseAndValidateBlockFromBlob .null (overwrite res.blocktemplateBlob res.reservedOffset
      (List.replicate 8 0xff))).isNone = true := by
  have hrun : ∃ res ∈ reservedCall.1.toOption, ∃ t ∈ reservedTemplate,
      (∀ i < (bytesBeforeExtra t.block).length + 1,
        ¬ (getTxPubKeyFromExtra t.block.minerTx.extra).toList <+: res.blocktemplateBlob.drop i) ∧
      res.blocktemplateBlob.length < 2 ^ 64 ∧
      res.blocktemplateBlob[res.reservedOffset + 8 - 1]? = some 0 ∧
      (parseAndValidateBlockFromBlob .null (overwrite res.blocktemplateBlob res.reservedOffset
        (List.replicate 8 0xff))).isNone = true := by
    decide +kernel
  obtain ⟨res, hres, t, ht, hrest⟩ := hrun
  refine ⟨res, t, Prod.ext ?_ rfl, ht, hrest⟩
  cases hcall : reservedCall.1 with
  | error e => simp [hcall, Except.toOption] at hres
  | ok r =>
    rw [hcall] at hres
    exact congrArg _ (Option.some.inj hres)

theorem getblocktemplate_reserved_kept : ∃ res t, reservedCall = (.ok res, reservedCall.2) ∧
    reservedTemplate = some t ∧
    NonceReplaced t.block 8
      (overwrite res.blocktemplateBlob res.reservedOffset [1, 2, 3, 4, 5, 6, 7, 0]) := by
  obtain ⟨res, t, hcall, ht, hfirst, hmemory, hlast, -⟩ := reservedCall_ok
  have hfits : TemplateFits aheadChain reservedArgs.now :=
    ⟨by decide +kernel, by decide +kernel, by decide +kernel, by decide +kernel⟩
  refine ⟨res, t, hcall, ht, ?_⟩
  exact (getblocktemplate_reserved_iff hcall rfl ht (by decide) hfits hmemory hfirst rfl).mpr
    ⟨by decide, .inl hlast.symm⟩

/-- A pool that writes 255 into all of the eight bytes has a blob that does not parse:
the last one is read as the type of the RingCT part. -/
theorem getblocktemplate_reserved_broken : ∃ res t, reservedCall = (.ok res, reservedCall.2) ∧
    reservedTemplate = some t ∧
    (∀ i < (bytesBeforeExtra t.block).length + 1,
      ¬ (getTxPubKeyFromExtra t.block.minerTx.extra).toList <+: res.blocktemplateBlob.drop i) ∧
    parseAndValidateBlockFromBlob .null (overwrite res.blocktemplateBlob res.reservedOffset
      (List.replicate 8 0xff)) = none := by
  obtain ⟨res, t, hcall, ht, hfirst, -, -, hbroken⟩ := reservedCall_ok
  exact ⟨res, t, hcall, ht, hfirst, Option.isNone_iff_eq_none.mp hbroken⟩

end Call

end Lethean
