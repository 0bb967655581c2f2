import Lethean.CryptonoteBasic.TxCanonical

/-!
# Lethean.CryptonoteBasic.TxRoundTrip

A well-formed transaction survives serialization. The format leaves out the
sizes that other fields imply: one signature vector for each input, one RingCT
commitment for each output, one MLSAG row for each member of the first ring. A
transaction is well formed when its vectors have these sizes; then the writer
does not stop, and the reader gives every serialized field back.
-/

namespace Lethean

open Codec BinaryArchive

/-! ### Values that fit their types -/

structure TxoutToScript.Fits (t : TxoutToScript) : Prop where
  keys : t.keys.length < 2 ^ 64
  script : t.script.length < 2 ^ 64

/-- The numbers and sizes of an input have 64 bits. -/
def TxIn.Fits : TxIn → Prop
  | .gen height => height < 2 ^ 64
  | .toScript _ prevout sigset => prevout < 2 ^ 64 ∧ sigset.length < 2 ^ 64
  | .toScripthash _ prevout script sigset =>
    prevout < 2 ^ 64 ∧ script.Fits ∧ sigset.length < 2 ^ 64
  | .toKey amount keyOffsets _ =>
    amount < 2 ^ 64 ∧ keyOffsets.length < 2 ^ 64 ∧ ∀ offset ∈ keyOffsets, offset < 2 ^ 64

@[inherit_doc TxIn.Fits]
def TxoutTarget.Fits : TxoutTarget → Prop
  | .toScript script => script.Fits
  | .toScripthash _ => True
  | .toKey _ => True

@[inherit_doc TxIn.Fits]
structure TxOut.Fits (o : TxOut) : Prop where
  amount : o.amount < 2 ^ 64
  target : o.target.Fits

@[inherit_doc TxIn.Fits]
structure TransactionPrefix.Fits (tx : TransactionPrefix) : Prop where
  version : tx.version < 2 ^ 64
  unlockTime : tx.unlockTime < 2 ^ 64
  vin : tx.vin.length < 2 ^ 64 ∧ ∀ i ∈ tx.vin, i.Fits
  vout : tx.vout.length < 2 ^ 64 ∧ ∀ o ∈ tx.vout, o.Fits
  extra : tx.extra.length < 2 ^ 64

/-! ### Inputs and outputs -/

theorem reads_txoutToScript {t : TxoutToScript} (h : t.Fits) :
    Reads serializeTxoutToScript (writeTxoutToScript t) t := by
  refine (reads_vector h.keys ?_ fun key _ => reads_blob key).bind ?_
  · intro key _ hnil
    have hlength : key.toList.length = 32 := key.toList_length
    simp [hnil] at hlength
  · exact (reads_bytes h.script).last (Reads.pure _)

theorem writeTxin_ne_nil (i : TxIn) : writeTxin i ≠ [] := by
  cases i <;> simp [writeTxin]

theorem reads_txin {i : TxIn} (h : i.Fits) : Reads serializeTxin (writeTxin i) i := by
  cases i with
  | gen height =>
    refine Reads.byte_bind ?_
    rw [if_pos rfl]
    exact (reads_uvarint h).last (Reads.pure _)
  | toScript prev prevout sigset =>
    obtain ⟨hprevout, hsigset⟩ := h
    refine Reads.byte_bind ?_
    rw [if_neg (by decide), if_pos rfl, List.append_assoc]
    refine (reads_blob prev).bind ((reads_uvarint hprevout).bind ?_)
    exact (reads_bytes hsigset).last (Reads.pure _)
  | toScripthash prev prevout script sigset =>
    obtain ⟨hprevout, hscript, hsigset⟩ := h
    refine Reads.byte_bind ?_
    rw [if_neg (by decide), if_neg (by decide), if_pos rfl, List.append_assoc, List.append_assoc]
    refine (reads_blob prev).bind ((reads_uvarint hprevout).bind ?_)
    exact (reads_txoutToScript hscript).bind ((reads_bytes hsigset).last (Reads.pure _))
  | toKey amount keyOffsets kImage =>
    obtain ⟨hamount, hsize, hoffsets⟩ := h
    refine Reads.byte_bind ?_
    rw [if_neg (by decide), if_neg (by decide), if_neg (by decide), if_pos rfl,
      List.append_assoc]
    refine (reads_uvarint hamount).bind ?_
    refine (reads_vector hsize (fun offset _ => writeVarint_ne_nil offset)
      fun offset hoffset => reads_uvarint (hoffsets offset hoffset)).bind ?_
    exact (reads_blob kImage).last (Reads.pure _)

theorem reads_txoutTarget {t : TxoutTarget} (h : t.Fits) :
    Reads serializeTxoutTarget (writeTxoutTarget t) t := by
  cases t with
  | toScript script =>
    refine Reads.byte_bind ?_
    rw [if_pos rfl]
    exact (reads_txoutToScript h).last (Reads.pure _)
  | toScripthash hash =>
    refine Reads.byte_bind ?_
    rw [if_neg (by decide), if_pos rfl]
    exact (reads_blob hash).last (Reads.pure _)
  | toKey key =>
    refine Reads.byte_bind ?_
    rw [if_neg (by decide), if_neg (by decide), if_pos rfl]
    exact (reads_blob key).last (Reads.pure _)

theorem writeTxout_ne_nil (o : TxOut) : writeTxout o ≠ [] := by
  simp [writeTxout, writeVarint_ne_nil]

theorem reads_txout {o : TxOut} (h : o.Fits) : Reads serializeTxout (writeTxout o) o :=
  (reads_uvarint h.amount).bind ((reads_txoutTarget h.target).last (Reads.pure _))

/-- The reader checks the version under its own flag, and keeps that. -/
theorem roundTrips_txPrefix {tx : TransactionPrefix} (h : tx.Fits) {isMmTx : Bool}
    (hwritten : versionAllowed tx.version tx.isMmTx = true)
    (hread : versionAllowed tx.version isMmTx = true) :
    RoundTrips (writeTransactionPrefix tx) (serializeTransactionPrefix isMmTx)
      { tx with isMmTx } := by
  rw [writeTransactionPrefix, Output.append_assoc]
  refine RoundTrips.append (.emit (reads_uvarint h.version)) ?_
  refine RoundTrips.guard hwritten hread (.emit ?_)
  rw [List.append_assoc, List.append_assoc]
  refine (reads_uvarint h.unlockTime).bind ?_
  refine (reads_vector h.vin.1 (fun i _ => writeTxin_ne_nil i)
    fun i hi => reads_txin (h.vin.2 i hi)).bind ?_
  refine (reads_vector h.vout.1 (fun o _ => writeTxout_ne_nil o)
    fun o ho => reads_txout (h.vout.2 o ho)).bind ?_
  exact (reads_bytes h.extra).last (Reads.pure _)

/-! ### Signatures -/

/-- The signatures are those the inputs ask for: one vector for each input, of
its size, or none at all where no input asks for any. -/
def SignaturesFor (vin : List TxIn) (signatures : List (List Signature)) : Prop :=
  List.Forall₂ (fun i s => s.length = i.signatureSize) vin signatures ∨
    signatures = [] ∧ ∀ i ∈ vin, i.signatureSize = 0

def signaturesRead (vin : List TxIn) (signatures : List (List Signature)) :
    List (List Signature) :=
  if signatures = [] then vin.map fun _ => [] else signatures

theorem roundTrips_signatureLoop {vin : List TxIn} {signatures : List (List Signature)}
    (h : List.Forall₂ (fun i s => s.length = i.signatureSize) vin signatures) :
    RoundTrips (writeSignatureLoop false vin signatures) (serializeSignatureVectors vin)
      signatures := by
  induction h with
  | nil => exact .emit (Reads.pure [])
  | @cons i s vin signatures hsize _ ih =>
    rw [writeSignatureLoop, if_neg (by decide), Output.append_assoc]
    refine RoundTrips.check (by simp [hsize]) ?_
    rw [serializeSignatureVectors, ← hsize]
    exact (RoundTrips.emit (reads_signatures s)).append (ih.last (Reads.pure _))

theorem roundTrips_noSignatures {vin : List TxIn} (h : ∀ i ∈ vin, i.signatureSize = 0) :
    RoundTrips (writeSignatureLoop true vin []) (serializeSignatureVectors vin)
      (vin.map fun _ => []) := by
  induction vin with
  | nil => exact .emit (Reads.pure [])
  | cons i vin ih =>
    have hsize : i.signatureSize = 0 := h i (by simp)
    rw [writeSignatureLoop, if_pos rfl]
    refine RoundTrips.check (by simp [hsize]) ?_
    obtain ⟨o, hwrite, hread⟩ := ih fun x hx => h x (by simp [hx])
    refine ⟨o, hwrite, ?_⟩
    rw [serializeSignatureVectors, hsize]
    exact (reads_signatures []).bind (hread.last (Reads.pure _))

theorem roundTrips_signatures {vin : List TxIn} {signatures : List (List Signature)}
    (h : SignaturesFor vin signatures) :
    RoundTrips (writeSignatureVectors vin signatures) (serializeSignatureVectors vin)
      (signaturesRead vin signatures) := by
  rcases h with hall | ⟨rfl, hnone⟩
  · rw [signatureVectors_of_length hall.length_eq.symm]
    have hread : signaturesRead vin signatures = signatures := by
      unfold signaturesRead
      split
      · rename_i hnil
        subst hnil
        cases hall
        rfl
      · rfl
    rw [hread]
    exact roundTrips_signatureLoop hall
  · exact roundTrips_noSignatures hnone

/-! ### RingCT -/

/-- The size of an input's ring; inputs without one count as a single member. -/
def TxIn.ringSize : TxIn → Nat
  | .toKey _ keyOffsets _ => keyOffsets.length
  | _ => 1

theorem TxIn.u64_mixin_add_one {i : TxIn} (h : i.Fits) : u64 (i.mixin + 1) = i.ringSize := by
  cases i with
  | toKey amount keyOffsets kImage =>
    obtain ⟨-, hsize, -⟩ := h
    simp only [TxIn.mixin, TxIn.ringSize, u64, subU64]
    omega
  | gen height => rfl
  | toScript prev prevout sigset => rfl
  | toScripthash prev prevout script sigset => rfl

structure MgSig.Sized (m : MgSig) (rows columns : Nat) : Prop where
  rows : m.ss.length = rows
  columns : ∀ row ∈ m.ss, row.length = columns

/-- A RingCT part of a known type, whose vectors have the sizes that the inputs,
the outputs and the first ring imply. The null type has none. -/
structure RctSig.WellFormed (rv : RctSig) (inputs outputs ringSize : Nat) : Prop where
  type : rv.type = rctTypeNull ∨ rv.type = rctTypeFull ∨ rv.type = rctTypeSimple
  txnFee : rv.txnFee < 2 ^ 64
  pseudoOuts : rv.type = rctTypeSimple → rv.pseudoOuts.length = inputs
  ecdhInfo : rv.type ≠ rctTypeNull → rv.ecdhInfo.length = outputs
  outPk : rv.type ≠ rctTypeNull → rv.outPk.length = outputs
  rangeSigs : rv.type ≠ rctTypeNull → rv.rangeSigs.length = outputs
  mgs : rv.type ≠ rctTypeNull → rv.mgs.length = rv.mgElements inputs ∧
    ∀ m ∈ rv.mgs, m.Sized ringSize (rv.mgSs2Elements inputs)

/-- What `rv₀` becomes when the base part of `rv` is read into it. -/
def RctSig.readBase (rv₀ rv : RctSig) : RctSig :=
  if rv.type = rctTypeNull then { rv₀ with type := rv.type }
  else
    { rv₀ with
      type := rv.type, txnFee := rv.txnFee
      pseudoOuts := if rv.type = rctTypeSimple then rv.pseudoOuts else rv₀.pseudoOuts
      ecdhInfo := rv.ecdhInfo, outPk := rv.outPk }

/-- What `rv₀` becomes when `rv` is read into it. -/
def RctSig.readInto (rv₀ rv : RctSig) : RctSig :=
  if rv.type = rctTypeNull then { rv₀ with type := rv.type }
  else
    { rv with pseudoOuts := if rv.type = rctTypeSimple then rv.pseudoOuts else rv₀.pseudoOuts }

section Rct

variable {rv : RctSig} {inputs outputs ringSize : Nat}

theorem RctSig.WellFormed.carriesData (h : rv.WellFormed inputs outputs ringSize)
    (hnull : rv.type ≠ rctTypeNull) : rv.carriesData = true := by
  rcases h.type with htype | htype | htype
  · exact absurd htype hnull
  · simp [RctSig.carriesData, htype]
  · simp [RctSig.carriesData, htype]

theorem RctSig.WellFormed.toNat_type (h : rv.WellFormed inputs outputs ringSize) :
    (UInt8.ofNat rv.type).toNat = rv.type := by
  rcases h.type with htype | htype | htype <;> rw [htype] <;> rfl

theorem reads_ecdhTuple (t : EcdhTuple) : Reads serializeEcdhTuple (writeEcdhTuple t) t :=
  (reads_blob t.mask).bind ((reads_blob t.amount).last (Reads.pure _))

theorem reads_rangeSig (r : RangeSig) : Reads serializeRangeSig (writeRangeSig r) r :=
  (reads_blob r.asig).bind ((reads_blob r.ci).last (Reads.pure _))

theorem roundTrips_pseudoOuts (h : rv.WellFormed inputs outputs ringSize) (rv0 : RctSig) :
    RoundTrips (writePseudoOuts rv inputs) (serializePseudoOuts { rv0 with type := rv.type } inputs)
      (if rv.type = rctTypeSimple then rv.pseudoOuts else rv0.pseudoOuts) := by
  unfold writePseudoOuts serializePseudoOuts
  dsimp only
  split
  · rename_i hsimple
    rw [← h.pseudoOuts hsimple]
    exact RoundTrips.check (by simp) (.emit (reads_blobs rv.pseudoOuts))
  · exact .emit (Reads.pure _)

theorem roundTrips_rctsigBase (h : rv.WellFormed inputs outputs ringSize) (rv0 : RctSig) :
    RoundTrips (writeRctsigBase rv inputs outputs) (serializeRctsigBase rv0 inputs outputs)
      (rv0.readBase rv) := by
  refine RoundTrips.append (.emit (Reads.byte _)) ?_
  dsimp only
  rw [h.toNat_type, RctSig.readBase]
  split
  · exact .emit (Reads.pure _)
  rename_i hnull
  simp only [Output.append_assoc]
  refine RoundTrips.guard (h.carriesData hnull) (h.carriesData hnull) ?_
  refine RoundTrips.append (.emit (reads_uvarint h.txnFee)) ?_
  refine (roundTrips_pseudoOuts h rv0).append ?_
  refine RoundTrips.check (by simp [h.ecdhInfo hnull]) ?_
  rw [← h.ecdhInfo hnull]
  refine RoundTrips.append (.emit (Reads.times fun t _ => reads_ecdhTuple t)) ?_
  rw [h.ecdhInfo hnull]
  refine RoundTrips.check (by simp [h.outPk hnull]) ?_
  rw [← h.outPk hnull]
  exact (RoundTrips.emit (reads_blobs rv.outPk)).last (Reads.pure _)

theorem roundTrips_mgSig {m : MgSig} {rows columns : Nat} (h : m.Sized rows columns) :
    RoundTrips (writeMgSig rows columns m) (serializeMgSig rows columns) m := by
  rw [writeMgSig, Output.append_assoc]
  refine RoundTrips.check (by simp [h.rows]) ?_
  rw [← h.rows]
  refine (RoundTrips.times fun row hrow => ?_).append
    (RoundTrips.last (.emit (reads_blob m.cc)) (Reads.pure _))
  rw [← h.columns row hrow]
  exact RoundTrips.check (by simp) (.emit (reads_blobs row))

theorem roundTrips_rctsigPrunable (h : rv.WellFormed inputs outputs ringSize) {mixin : Nat}
    (hmixin : u64 (mixin + 1) = ringSize) (rv0 : RctSig) :
    RoundTrips (writeRctsigPrunable rv inputs outputs mixin)
      (serializeRctsigPrunable (rv0.readBase rv) inputs outputs mixin) (rv0.readInto rv) := by
  unfold writeRctsigPrunable serializeRctsigPrunable RctSig.readInto
  by_cases hnull : rv.type = rctTypeNull
  · rw [if_pos hnull, if_pos hnull, RctSig.readBase, if_pos hnull, if_pos hnull]
    exact .emit (Reads.pure _)
  obtain ⟨hcount, hsized⟩ := h.mgs hnull
  rw [if_neg hnull, if_neg hnull, RctSig.readBase, if_neg hnull, if_neg hnull, hmixin]
  simp only [Output.append_assoc]
  refine RoundTrips.guard (h.carriesData hnull) (h.carriesData hnull) ?_
  refine RoundTrips.check (by simp [h.rangeSigs hnull]) ?_
  rw [← h.rangeSigs hnull]
  refine RoundTrips.append (.emit (Reads.times fun r _ => reads_rangeSig r)) ?_
  refine RoundTrips.check (by simp [hcount]) ?_
  have hmgs := RoundTrips.times fun m hm => roundTrips_mgSig (hsized m hm)
  rw [hcount] at hmgs
  exact hmgs.last (Reads.pure _)

end Rct

/-! ### Transactions -/

/-- A transaction whose parts have the sizes its version and its inputs and
outputs imply. -/
structure Transaction.WellFormed (tx : Transaction) : Prop where
  fits : tx.toTransactionPrefix.Fits
  signatures : tx.version ≤ 1 → SignaturesFor tx.vin tx.signatures
  rctSignatures : 1 < tx.version → ∀ first ∈ tx.vin.head?,
    tx.rctSignatures.WellFormed tx.vin.length tx.vout.length first.ringSize

/-- What `tx₀` becomes when `tx` is read into it. -/
def Transaction.readInto (tx₀ tx : Transaction) : Transaction :=
  { tx with
    isMmTx := tx₀.isMmTx
    signatures := if tx.version ≤ 1 then signaturesRead tx.vin tx.signatures else tx₀.signatures
    rctSignatures :=
      if tx.version ≤ 1 ∨ tx.vin = [] then tx₀.rctSignatures
      else tx₀.rctSignatures.readInto tx.rctSignatures }

theorem roundTrips_transaction {tx : Transaction} (h : tx.WellFormed) (tx0 : Transaction)
    (hwritten : versionAllowed tx.version tx.isMmTx = true)
    (hread : versionAllowed tx.version tx0.isMmTx = true) :
    RoundTrips (writeTransaction tx) (serializeTransaction tx0) (tx0.readInto tx) := by
  refine (roundTrips_txPrefix h.fits hwritten hread).append ?_
  dsimp only
  by_cases hversion : tx.version ≤ 1
  · rw [if_pos hversion, if_pos hversion]
    refine (roundTrips_signatures (h.signatures hversion)).last ?_
    simp only [Transaction.readInto, hversion, true_or, if_true]
    exact Reads.pure _
  rw [if_neg hversion, if_neg hversion]
  cases hvin : tx.vin with
  | nil =>
    simp only [Transaction.readInto, hversion, hvin, or_true, if_true, if_false]
    exact .emit (Reads.pure _)
  | cons first rest =>
    have hrct := h.rctSignatures (by omega) first (by simp [hvin])
    have hmixin : u64 (first.mixin + 1) = first.ringSize :=
      TxIn.u64_mixin_add_one (h.fits.vin.2 first (by simp [hvin]))
    rw [hvin] at hrct
    refine RoundTrips.last ((roundTrips_rctsigBase hrct tx0.rctSignatures).append
      (roundTrips_rctsigPrunable hrct hmixin tx0.rctSignatures)) ?_
    simp only [Transaction.readInto, hversion, hvin, reduceCtorEq, or_self, if_false]
    exact Reads.pure _

/-! ### What is the same afterwards -/

/-- Equal, or both without any signature: an empty list and a list of empty lists
are not told apart. -/
def SameSignatures (signatures signatures' : List (List Signature)) : Prop :=
  signatures' = signatures ∨ (∀ s ∈ signatures, s = []) ∧ ∀ s ∈ signatures', s = []

/-- The same serialized fields of the RingCT part. -/
structure RctSig.SameSerialized (rv rv' : RctSig) : Prop where
  type : rv'.type = rv.type
  txnFee : rv.type ≠ rctTypeNull → rv'.txnFee = rv.txnFee
  pseudoOuts : rv.type = rctTypeSimple → rv'.pseudoOuts = rv.pseudoOuts
  ecdhInfo : rv.type ≠ rctTypeNull → rv'.ecdhInfo = rv.ecdhInfo
  outPk : rv.type ≠ rctTypeNull → rv'.outPk = rv.outPk
  rangeSigs : rv.type ≠ rctTypeNull → rv'.rangeSigs = rv.rangeSigs
  mgs : rv.type ≠ rctTypeNull → rv'.mgs = rv.mgs

/-- The same transaction as far as it is serialized. A version 2 transaction has
no signatures outside its RingCT part, and without inputs no RingCT part. -/
structure Transaction.SameSerialized (tx tx' : Transaction) : Prop where
  version : tx'.version = tx.version
  unlockTime : tx'.unlockTime = tx.unlockTime
  vin : tx'.vin = tx.vin
  vout : tx'.vout = tx.vout
  extra : tx'.extra = tx.extra
  signatures : (1 < tx.version → ∀ s ∈ tx.signatures, s = []) →
    SameSignatures tx.signatures tx'.signatures
  rctSignatures : 1 < tx.version → tx.vin ≠ [] →
    tx.rctSignatures.SameSerialized tx'.rctSignatures

theorem RctSig.sameSerialized_readInto (rv0 rv : RctSig) :
    rv.SameSerialized (rv0.readInto rv) := by
  unfold RctSig.readInto
  split
  · rename_i hnull
    refine ⟨rfl, ?_, fun hsimple => ?_, ?_, ?_, ?_, ?_⟩
    case refine_2 => exact absurd (hnull.symm.trans hsimple) (by decide)
    all_goals exact fun hdata => absurd hnull hdata
  · exact ⟨rfl, fun _ => rfl, fun hsimple => if_pos hsimple, fun _ => rfl, fun _ => rfl,
      fun _ => rfl, fun _ => rfl⟩

theorem sameSignatures_signaturesRead (vin : List TxIn) (signatures : List (List Signature)) :
    SameSignatures signatures (signaturesRead vin signatures) := by
  unfold signaturesRead
  split
  · rename_i hnil
    subst hnil
    exact .inr ⟨by simp, by simp⟩
  · exact .inl rfl

theorem Transaction.sameSerialized_readInto (tx : Transaction) {tx0 : Transaction}
    (hfresh : tx0.signatures = []) : tx.SameSerialized (tx0.readInto tx) := by
  refine ⟨rfl, rfl, rfl, rfl, rfl, fun hnone => ?_, fun hversion hvin => ?_⟩
  · by_cases hversion : tx.version ≤ 1
    · rw [Transaction.readInto, if_pos hversion]
      exact sameSignatures_signaturesRead tx.vin tx.signatures
    · rw [Transaction.readInto, if_neg hversion, hfresh]
      exact .inr ⟨hnone (by omega), by simp⟩
  · have hcarried : ¬ (tx.version ≤ 1 ∨ tx.vin = []) := by
      simp [hvin, hversion]
    simp only [Transaction.readInto, if_neg hcarried]
    exact RctSig.sameSerialized_readInto _ _

/-- **Round trip.** A well-formed transaction is written without error, and parsing
its blob gives a transaction with the same serialized fields. -/
theorem tx_round_trip (tx : Transaction) (hversion : tx.version = 1 ∨ tx.version = 2)
    (h : tx.WellFormed) :
    (writeTransaction tx).ok = true ∧
      ∃ tx', parseAndValidateTxFromBlob .null (txToBlob tx) = some tx' ∧
        tx.SameSerialized tx' := by
  have hallowed : ∀ isMmTx, versionAllowed tx.version isMmTx = true := by
    rcases hversion with hv | hv <;> rw [hv] <;> decide
  obtain ⟨o, hwrite, hread⟩ := roundTrips_transaction h .null (hallowed _) (hallowed _)
  refine ⟨by rw [hwrite]; rfl, Transaction.null.readInto tx, ?_,
    tx.sameSerialized_readInto rfl⟩
  have hblob : txToBlob tx = o ++ [] := by rw [txToBlob, hwrite, List.append_nil]; rfl
  rw [parseAndValidateTxFromBlob, hblob, hread false []]

def simpleTransaction : Transaction :=
  { version := 2, unlockTime := 0, isMmTx := false
    vin := [.toKey 0 [7, 1] (nullBlob 32)], vout := [⟨0, .toKey (nullBlob 32)⟩], extra := [1]
    signatures := []
    rctSignatures :=
      { type := rctTypeSimple, txnFee := 300, pseudoOuts := [nullBlob 32]
        ecdhInfo := [⟨nullBlob 32, nullBlob 32⟩], outPk := [nullBlob 32]
        rangeSigs := [⟨nullBlob _, nullBlob _⟩]
        mgs := [⟨[[nullBlob 32, nullBlob 32], [nullBlob 32, nullBlob 32]], nullBlob 32⟩] } }

theorem simpleTransaction_wellFormed : simpleTransaction.WellFormed where
  fits := by
    refine ⟨by decide, by decide, ⟨by decide, ?_⟩, ⟨by decide, ?_⟩, by decide⟩
    · intro i hi
      obtain rfl := List.mem_singleton.mp hi
      exact ⟨by decide, by decide, by decide⟩
    · intro o ho
      obtain rfl := List.mem_singleton.mp ho
      exact ⟨by decide, trivial⟩
  signatures := fun hversion => absurd hversion (by decide)
  rctSignatures := by
    intro _ first hfirst
    obtain rfl := Option.some.inj hfirst
    refine ⟨by decide, by decide, fun _ => rfl, fun _ => rfl, fun _ => rfl, fun _ => rfl,
      fun _ => ⟨rfl, fun m hm => ?_⟩⟩
    obtain rfl := List.mem_singleton.mp hm
    exact ⟨rfl, by decide⟩

theorem tx_round_trip_simple :
    ∃ tx', parseAndValidateTxFromBlob .null (txToBlob simpleTransaction) = some tx' ∧
      simpleTransaction.SameSerialized tx' :=
  (tx_round_trip simpleTransaction (.inr rfl) simpleTransaction_wellFormed).2

end Lethean
