import Lethean.CryptonoteBasic.TxSerialization

/-!
# Lethean.CryptonoteBasic.TxCanonical

When is a parsed blob the canonical one? Field by field, the readers decode
what the writers write, except for the varints, whose errors the archive
ignores. A blob that parses is the serialization of the transaction it parses
to if and only if every varint read on the way ended properly.
-/

namespace Lethean

open Codec BinaryArchive

/-! ### Inputs and outputs -/

theorem decodes_bytes :
    Decodes (serializeVector Reader.byte) fun l o => o = writeVector (fun b => [b]) l :=
  decodes_vector Decodes.byte

theorem decodes_uvarint64 : Decodes (serializeUvarint 64) fun v o => o = writeVarint v :=
  decodes_uvarint

theorem decodes_txoutToScript :
    Decodes serializeTxoutToScript fun t o => o = writeTxoutToScript t := by
  refine (decodes_vector (decodes_blob 32)).bind fun keys o1 h1 => ?_
  refine decodes_bytes.bind fun script o2 h2 => ?_
  exact Decodes.pure (by simp [h1, h2, writeTxoutToScript])

theorem decodes_txin : Decodes serializeTxin fun i o => o = writeTxin i := by
  refine Decodes.byte.bind fun tag o0 h0 => ?_
  subst h0
  split
  · rename_i htag
    refine decodes_uvarint64.bind fun height o1 h1 => ?_
    exact Decodes.pure (by simp [h1, htag, writeTxin])
  split
  · rename_i htag
    refine (decodes_blob 32).bind fun prev o1 h1 => ?_
    refine decodes_uvarint64.bind fun prevout o2 h2 => ?_
    refine decodes_bytes.bind fun sigset o3 h3 => ?_
    exact Decodes.pure (by simp [h1, h2, h3, htag, writeTxin])
  split
  · rename_i htag
    refine (decodes_blob 32).bind fun prev o1 h1 => ?_
    refine decodes_uvarint64.bind fun prevout o2 h2 => ?_
    refine decodes_txoutToScript.bind fun script o3 h3 => ?_
    refine decodes_bytes.bind fun sigset o4 h4 => ?_
    exact Decodes.pure (by simp [h1, h2, h3, h4, htag, writeTxin])
  split
  · rename_i htag
    refine decodes_uvarint64.bind fun amount o1 h1 => ?_
    refine (decodes_vector decodes_uvarint64).bind fun keyOffsets o2 h2 => ?_
    refine (decodes_blob 32).bind fun kImage o3 h3 => ?_
    exact Decodes.pure (by simp [h1, h2, h3, htag, writeTxin])
  · exact Decodes.fail

theorem decodes_txoutTarget :
    Decodes serializeTxoutTarget fun t o => o = writeTxoutTarget t := by
  refine Decodes.byte.bind fun tag o0 h0 => ?_
  subst h0
  split
  · rename_i htag
    refine decodes_txoutToScript.bind fun script o1 h1 => ?_
    exact Decodes.pure (by simp [h1, htag, writeTxoutTarget])
  split
  · rename_i htag
    refine (decodes_blob 32).bind fun hash o1 h1 => ?_
    exact Decodes.pure (by simp [h1, htag, writeTxoutTarget])
  split
  · rename_i htag
    refine (decodes_blob 32).bind fun key o1 h1 => ?_
    exact Decodes.pure (by simp [h1, htag, writeTxoutTarget])
  · exact Decodes.fail

theorem decodes_txout : Decodes serializeTxout fun t o => o = writeTxout t := by
  refine decodes_uvarint64.bind fun amount o1 h1 => ?_
  refine decodes_txoutTarget.bind fun target o2 h2 => ?_
  exact Decodes.pure (by simp [h1, h2, writeTxout])

theorem decodes_txPrefix (isMmTx : Bool) :
    Decodes (serializeTransactionPrefix isMmTx) fun tx o =>
      writeTransactionPrefix tx = Output.emit o := by
  refine decodes_uvarint64.bind fun version o1 h1 => ?_
  refine Decodes.guard.bind fun _ o2 ⟨hallowed, h2⟩ => ?_
  refine decodes_uvarint64.bind fun unlockTime o3 h3 => ?_
  refine (decodes_vector decodes_txin).bind fun vin o4 h4 => ?_
  refine (decodes_vector decodes_txout).bind fun vout o5 h5 => ?_
  refine decodes_bytes.bind fun extra o6 h6 => ?_
  refine Decodes.pure ?_
  simp [h1, h2, h3, h4, h5, h6, hallowed, writeTransactionPrefix]

/-! ### Signatures -/

/-- The loop that writes the signatures accepts what was read for the inputs. -/
theorem decodes_signatureVectors : ∀ vin : List TxIn,
    Decodes (serializeSignatureVectors vin) fun l o => l.length = vin.length ∧
      writeSignatureLoop false vin l = Output.emit o := by
  intro vin
  induction vin with
  | nil => exact Decodes.pure ⟨rfl, rfl⟩
  | cons i vin ih =>
    refine (decodes_signatures _).bind fun s o1 ⟨hlen, h1⟩ => ?_
    refine ih.bind fun l o2 ⟨hlen', h2⟩ => ?_
    refine Decodes.pure ⟨by simp [hlen'], ?_⟩
    simp [writeSignatureLoop, hlen, h1, h2]

theorem signatureVectors_of_length {vin : List TxIn} {l : List (List Signature)}
    (h : l.length = vin.length) :
    writeSignatureVectors vin l = writeSignatureLoop false vin l := by
  cases vin with
  | nil =>
    obtain rfl := List.eq_nil_of_length_eq_zero h
    rfl
  | cons i vin =>
    cases l with
    | nil => cases h
    | cons s l => simp [writeSignatureVectors, h]

/-! ### RingCT -/

theorem decodes_ecdhTuple : Decodes serializeEcdhTuple fun t o => o = writeEcdhTuple t := by
  refine (decodes_blob 32).bind fun mask o1 h1 => ?_
  refine (decodes_blob 32).bind fun amount o2 h2 => ?_
  exact Decodes.pure (by simp [h1, h2, writeEcdhTuple])

theorem decodes_pseudoOuts (rv : RctSig) (inputs : Nat) :
    Decodes (serializePseudoOuts rv inputs) fun l o =>
      ∀ rv' : RctSig, rv'.type = rv.type → rv'.pseudoOuts = l →
        writePseudoOuts rv' inputs = Output.emit o := by
  unfold serializePseudoOuts
  split
  · rename_i hsimple
    refine (decodes_times (decodes_blob 32) inputs).mono fun l o ⟨hlen, ho⟩ rv' htype hl => ?_
    simp [writePseudoOuts, htype, hsimple, hl, hlen, ho]
  · rename_i hsimple
    refine Decodes.pure fun rv' htype _ => ?_
    simp [writePseudoOuts, htype, hsimple]

theorem decodes_rctsigBase (rv : RctSig) (inputs outputs : Nat) :
    Decodes (serializeRctsigBase rv inputs outputs) fun rv' o =>
      writeRctsigBase rv' inputs outputs = Output.emit o := by
  refine Decodes.byte.bind fun type o0 h0 => ?_
  dsimp only
  split
  · rename_i hnull
    have htype : UInt8.ofNat rctTypeNull = type := by rw [← hnull, UInt8.ofNat_toNat]
    exact Decodes.pure (by simp [writeRctsigBase, hnull, htype, h0])
  rename_i hnull
  refine Decodes.guard.bind fun _ o1 ⟨hdata, h1⟩ => ?_
  refine decodes_uvarint64.bind fun txnFee o2 h2 => ?_
  refine (decodes_pseudoOuts _ inputs).bind fun pseudoOuts o3 h3 => ?_
  refine (decodes_times decodes_ecdhTuple outputs).bind fun ecdhInfo o4 ⟨hlen4, h4⟩ => ?_
  refine (decodes_times (decodes_blob 32) outputs).bind fun outPk o5 ⟨hlen5, h5⟩ => ?_
  refine Decodes.pure ?_
  have hpseudo := h3 { rv with type := type.toNat, txnFee, pseudoOuts, ecdhInfo, outPk } rfl rfl
  simp only [RctSig.carriesData] at hdata
  simp [writeRctsigBase, RctSig.carriesData, hnull, hdata, hpseudo, hlen4, hlen5, h0, h1, h2, h4,
    h5]

theorem decodes_rangeSig : Decodes serializeRangeSig fun r o => o = writeRangeSig r := by
  refine (decodes_blob _).bind fun asig o1 h1 => ?_
  refine (decodes_blob _).bind fun ci o2 h2 => ?_
  exact Decodes.pure (by simp [h1, h2, writeRangeSig])

def mgSigBytes (m : MgSig) : List UInt8 :=
  m.ss.flatMap (fun row => row.flatMap List.Vector.toList) ++ m.cc.toList

theorem decodes_mgSig (rows columns : Nat) :
    Decodes (serializeMgSig rows columns) fun m o =>
      writeMgSig rows columns m = Output.emit (mgSigBytes m) ∧ o = mgSigBytes m := by
  refine ((decodes_times (decodes_blob 32) columns).times rows).bind
    fun ss o1 ⟨hrows, hcolumns, h1⟩ => ?_
  refine (decodes_blob 32).bind fun cc o2 h2 => ?_
  refine Decodes.pure ⟨?_, by simp [mgSigBytes, h1, h2]⟩
  have hmatrix : Output.concat (ss.map fun row =>
      Output.check (row.length = columns) ++ Output.emit (row.flatMap List.Vector.toList)) =
        Output.emit (ss.flatMap fun row => row.flatMap List.Vector.toList) :=
    Output.concat_map fun row hrow => by simp [hcolumns row hrow]
  simp [writeMgSig, mgSigBytes, hrows, hmatrix]

theorem decodes_rctsigPrunable (rv : RctSig) (inputs outputs mixin : Nat) :
    Decodes (serializeRctsigPrunable rv inputs outputs mixin) fun rv' o =>
      writeRctsigBase rv' inputs outputs = writeRctsigBase rv inputs outputs ∧
        writeRctsigPrunable rv' inputs outputs mixin = Output.emit o := by
  unfold serializeRctsigPrunable
  split
  · rename_i hnull
    exact Decodes.pure ⟨rfl, by simp [writeRctsigPrunable, hnull]⟩
  rename_i hnull
  refine Decodes.guard.bind fun _ o1 ⟨hdata, h1⟩ => ?_
  refine (decodes_times decodes_rangeSig outputs).bind fun rangeSigs o2 ⟨hlen2, h2⟩ => ?_
  refine ((decodes_mgSig _ _).times _).bind fun mgs o3 ⟨hlen3, hmg, h3⟩ => ?_
  refine Decodes.pure ⟨rfl, ?_⟩
  have hmgs := Output.concat_map hmg
  simp only [RctSig.carriesData] at hdata
  simp [writeRctsigPrunable, RctSig.carriesData, RctSig.mgElements, RctSig.mgSs2Elements, hnull,
    hdata, hlen2, h1, h2, h3] at hlen3 hmgs ⊢
  simp [hlen3, hmgs]

/-! ### Transactions -/

theorem decodes_rctSignatures (rv : RctSig) (first : TxIn) (inputs outputs : Nat) :
    Decodes (serializeRctSignatures rv first inputs outputs) fun rv' o =>
      writeRctsigBase rv' inputs outputs ++ writeRctsigPrunable rv' inputs outputs first.mixin =
        Output.emit o := by
  refine (decodes_rctsigBase rv inputs outputs).bind fun rv1 o1 h1 => ?_
  refine (decodes_rctsigPrunable rv1 inputs outputs _).mono fun rv2 o2 ⟨hbase, h2⟩ => ?_
  rw [hbase, h1, h2, Output.emit_append_emit]

theorem decodes_transaction (tx0 : Transaction) :
    Decodes (serializeTransaction tx0) fun tx o => writeTransaction tx = Output.emit o := by
  refine (decodes_txPrefix _).bind fun txPrefix o1 h1 => ?_
  split
  · rename_i hversion
    refine (decodes_signatureVectors txPrefix.vin).bind fun signatures o2 ⟨hlen, h2⟩ => ?_
    refine Decodes.pure ?_
    simp [writeTransaction, hversion, signatureVectors_of_length hlen, h1, h2]
  · rename_i hversion
    split
    · rename_i hvin
      exact Decodes.pure (by simp [writeTransaction, hversion, hvin, h1])
    · rename_i first rest hvin
      refine (decodes_rctSignatures _ first _ _).bind fun rv o2 h2 => ?_
      refine Decodes.pure ?_
      rw [hvin, List.length_cons] at h2
      simp [writeTransaction, hversion, hvin, h1, h2]

/-- Every varint of the blob that the parser reads ends properly: a parser that
checks this, and is the same otherwise, accepts the blob. -/
def VarintsOk (tx₀ : Transaction) (blob : List UInt8) : Prop :=
  (serializeTransaction tx₀ true blob).isSome

instance (tx₀ : Transaction) (blob : List UInt8) : Decidable (VarintsOk tx₀ blob) :=
  inferInstanceAs (Decidable (_ = true))

theorem txToBlob_eq_iff {tx0 tx : Transaction} {blob : List UInt8}
    (h : parseAndValidateTxFromBlob tx0 blob = some tx) :
    txToBlob tx = blob ↔ VarintsOk tx0 blob := by
  have hs : serializeTransaction tx0 false blob = some (tx, []) := by
    unfold parseAndValidateTxFromBlob at h
    split at h
    · rename_i tx' hread
      rwa [← Option.some.inj h]
    · cases h
  refine (decodes_transaction tx0).eq_iff_isSome hs fun o hwrite => ?_
  rw [txToBlob, hwrite]
  rfl

/-- **Canonical parsing.** A blob that parses is the serialization of the
transaction it parses to exactly when all varints in it end properly. Two such
blobs that parse to the same transaction are equal. -/
theorem parse_canonical_iff (tx₀ tx : Transaction) (blob : List UInt8)
    (h : parseAndValidateTxFromBlob tx₀ blob = some tx) :
    (txToBlob tx = blob ↔ VarintsOk tx₀ blob) ∧
      ∀ tx₁ blob', parseAndValidateTxFromBlob tx₁ blob' = some tx →
        VarintsOk tx₀ blob → VarintsOk tx₁ blob' → blob = blob' := by
  refine ⟨txToBlob_eq_iff h, fun tx₁ blob' h' hok hok' => ?_⟩
  calc blob = txToBlob tx := ((txToBlob_eq_iff h).mpr hok).symm
    _ = blob' := (txToBlob_eq_iff h').mpr hok'

def clearTransaction : Transaction :=
  { Transaction.null with
    vin := [.toKey 300 [7, 1] (nullBlob 32)]
    vout := [⟨5, .toKey (nullBlob 32)⟩]
    extra := [1, 2]
    signatures := [[nullBlob 64, nullBlob 64]] }

def clearBlob : List UInt8 :=
  [1, 0, 1, 2, 0xac, 2, 2, 7, 1] ++ List.replicate 32 0 ++ [1, 5, 2] ++ List.replicate 32 0 ++
    [2, 1, 2] ++ List.replicate 128 0

/-- A ring of two, an output, two extra bytes and the signatures. -/
theorem parse_canonical_iff_clear :
    parseAndValidateTxFromBlob .null clearBlob = some clearTransaction ∧
      txToBlob clearTransaction = clearBlob := by
  have hparse : parseAndValidateTxFromBlob .null clearBlob = some clearTransaction := by
    decide +kernel
  exact ⟨hparse, (parse_canonical_iff .null clearTransaction _ hparse).1.mpr (by decide +kernel)⟩

/-- The five bytes of an empty version 1 transaction. Its first byte alone parses to the same
transaction: the varints that are missing read as 0. -/
theorem truncated_blob_parses :
    parseAndValidateTxFromBlob .null [1] = some .null ∧
      parseAndValidateTxFromBlob .null [1, 0, 0, 0, 0] = some .null ∧
      txToBlob .null ≠ [1] := by
  refine ⟨by decide +kernel, by decide +kernel, by decide +kernel⟩

end Lethean
