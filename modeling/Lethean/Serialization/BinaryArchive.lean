import Lethean.Common.Varint
import Lethean.CryptonoteBasic.Types

/-!
# Lethean.Serialization.BinaryArchive

`binary_archive<false>` as readers and `binary_archive<true>` as writers, with
the vector serializers of `vector.h` and `crypto.h`.

The reading archive drops the result of `read_varint` (`XXX handle failure`).
That is the lax mode of the readers here. The strict mode is not in the source:
it gives up whenever a varint does not end properly, and serves to say which
inputs the lax one treats well. A stream that has failed never recovers before
the next check of its state, so a failed read ends the reader at once.
-/

namespace Lethean

open Codec

namespace BinaryArchive

/-! ### Reading -/

/-- `serialize_uvarint` on an integer of the given width. -/
def serializeUvarint (bits : Nat) : Reader Nat := fun strict s =>
  let (ending, v, rest) := readVarint bits s
  if strict = true ∧ ending ≠ .done then none else some (v, rest)

def serializeBlob (n : Nat) : Reader (Blob n) := fun _ s =>
  if h : n ≤ s.length then some (⟨s.take n, by rw [List.length_take, Nat.min_eq_left h]⟩, s.drop n)
  else none

/-- `do_serialize` on a vector: the count, the sanity check, the elements. -/
def serializeVector {α : Type} (element : Reader α) : Reader (List α) := do
  let cnt ← serializeUvarint 64
  Reader.need cnt
  element.times cnt

/-- `do_serialize` on a `vector<signature>` of known size. -/
def serializeSignatures (cnt : Nat) : Reader (List Signature) := do
  Reader.need (cnt * 64 % 2 ^ 64)
  (serializeBlob 64).times cnt

/-! ### Writing -/

/-- What a writing archive has put out, and whether it is still going. -/
structure Output where
  bytes : List UInt8
  ok : Bool
  deriving DecidableEq

namespace Output

def emit (bytes : List UInt8) : Output := ⟨bytes, true⟩

/-- `if (!c) return false`. -/
def check (c : Bool) : Output := ⟨[], c⟩

/-- One part after the other, unless the first one returned `false`. -/
instance : Append Output where
  append a b := if a.ok then ⟨a.bytes ++ b.bytes, b.ok⟩ else a

@[simp] theorem bytes_emit (bytes : List UInt8) : (emit bytes).bytes = bytes := rfl

@[simp] theorem emit_append_emit (a b : List UInt8) : emit a ++ emit b = emit (a ++ b) := rfl

@[simp] theorem check_true_append (o : Output) : check true ++ o = o := rfl

@[simp] theorem emit_append_check_true (a : List UInt8) : emit a ++ check true = emit a := by
  change (⟨a ++ [], true⟩ : Output) = emit a
  rw [List.append_nil]
  rfl

theorem append_of_ok {a : Output} (h : a.ok = true) (b : Output) :
    a ++ b = ⟨a.bytes ++ b.bytes, b.ok⟩ := if_pos h

theorem append_of_not_ok {a : Output} (h : a.ok = false) (b : Output) : a ++ b = a :=
  if_neg (by simp [h])

theorem append_assoc (a b c : Output) : a ++ b ++ c = a ++ (b ++ c) := by
  cases ha : a.ok with
  | false => rw [append_of_not_ok ha, append_of_not_ok ha, append_of_not_ok ha]
  | true =>
    rw [append_of_ok ha, append_of_ok ha]
    cases hb : b.ok with
    | false => rw [append_of_not_ok hb, append_of_not_ok rfl, hb]
    | true => rw [append_of_ok hb, append_of_ok rfl, List.append_assoc]

def concat (parts : List Output) : Output := parts.foldr (· ++ ·) (emit [])

theorem concat_map {α : Type} {f : α → Output} {w : α → List UInt8} {l : List α}
    (h : ∀ a ∈ l, f a = emit (w a)) : concat (l.map f) = emit (l.flatMap w) := by
  induction l with
  | nil => rfl
  | cons a l ih =>
    have htail : concat (l.map f) = emit (l.flatMap w) := ih fun x hx => h x (by simp [hx])
    change f a ++ concat (l.map f) = _
    rw [htail, h a (by simp), emit_append_emit, List.flatMap_cons]

end Output

/-- `do_serialize` on a vector, when writing. -/
def writeVector {α : Type} (element : α → List UInt8) (v : List α) : List UInt8 :=
  writeVarint v.length ++ v.flatMap element

/-! ### The readers decode what the writers write -/

variable {α : Type}

theorem decodes_uvarint {bits : Nat} :
    Decodes (serializeUvarint bits) fun v o => o = writeVarint v := by
  intro s v rest hs
  rcases hread : readVarint bits s with ⟨ending, v', rest'⟩
  obtain ⟨hdone, hother⟩ := readVarint_spec hread
  simp only [serializeUvarint, hread, Bool.false_eq_true, false_and, if_false, Option.some.injEq,
    Prod.mk.injEq] at hs ⊢
  obtain ⟨rfl, rfl⟩ := hs
  refine ⟨writeVarint v', rfl, ?_⟩
  by_cases hend : ending = .done
  · exact .inl ⟨by simp [hend], hdone hend⟩
  · exact .inr ⟨by simp [hend], hother hend⟩

theorem decodes_blob (n : Nat) : Decodes (serializeBlob n) fun v o => o = v.toList := by
  intro s v rest hs
  unfold serializeBlob at hs ⊢
  by_cases h : n ≤ s.length
  · rw [dif_pos h] at hs ⊢
    cases hs
    exact ⟨s.take n, rfl, .inl ⟨rfl, (List.take_append_drop n s).symm⟩⟩
  · rw [dif_neg h] at hs
    cases hs

theorem decodes_times {r : Reader α} {w : α → List UInt8} (h : Decodes r fun a o => o = w a)
    (n : Nat) : Decodes (r.times n) fun l o => l.length = n ∧ o = l.flatMap w := by
  have hr : Decodes r fun a o => True ∧ o = w a := h.mono fun _ _ ho => ⟨trivial, ho⟩
  exact (hr.times n).mono fun l o ⟨hlen, _, ho⟩ => ⟨hlen, ho⟩

theorem decodes_vector {r : Reader α} {w : α → List UInt8} (h : Decodes r fun a o => o = w a) :
    Decodes (serializeVector r) fun l o => o = writeVector w l := by
  refine decodes_uvarint.bind fun cnt o1 ho1 => ?_
  refine (Decodes.need cnt).bind fun _ o2 ho2 => ?_
  refine (decodes_times h cnt).mono fun l o3 ⟨hlen, ho3⟩ => ?_
  rw [ho1, ho2, ho3, List.nil_append, writeVector, hlen]

theorem decodes_signatures (cnt : Nat) : Decodes (serializeSignatures cnt) fun l o =>
    l.length = cnt ∧ o = l.flatMap List.Vector.toList := by
  refine (Decodes.need _).bind fun _ o1 ho1 => ?_
  refine (decodes_times (decodes_blob 64) cnt).mono fun l o2 ⟨hlen, ho2⟩ => ⟨hlen, ?_⟩
  rw [ho1, ho2, List.nil_append]

/-! ### The readers read back what the writers write -/

theorem reads_uvarint {bits n : Nat} (h : n < 2 ^ bits) :
    Reads (serializeUvarint bits) (writeVarint n) n := by
  intro strict rest
  simp [serializeUvarint, readVarint_writeVarint h]

theorem reads_blob {n : Nat} (blob : Blob n) : Reads (serializeBlob n) blob.toList blob := by
  intro strict rest
  have hlength : blob.toList.length = n := blob.toList_length
  rw [serializeBlob, dif_pos (by simp [hlength])]
  exact congrArg some (Prod.ext (Subtype.ext (List.take_left' hlength)) (List.drop_left' hlength))

theorem reads_blobs {n : Nat} (l : List (Blob n)) :
    Reads ((serializeBlob n).times l.length) (l.flatMap List.Vector.toList) l :=
  Reads.times fun blob _ => reads_blob blob

theorem reads_byte_times (str : List UInt8) : Reads (Reader.byte.times str.length) str str := by
  have htimes := Reads.times (w := fun b => [b]) fun b (_ : b ∈ str) => Reads.byte b
  rwa [List.flatMap_singleton'] at htimes

theorem length_le_length_flatMap {w : α → List UInt8} {l : List α} (hne : ∀ a ∈ l, w a ≠ []) :
    l.length ≤ (l.flatMap w).length := by
  induction l with
  | nil => exact Nat.zero_le _
  | cons a l ih =>
    have hpos : 0 < (w a).length := List.length_pos_iff.mpr (hne a (by simp))
    have htail := ih fun x hx => hne x (by simp [hx])
    rw [List.length_cons, List.flatMap_cons, List.length_append]
    omega

theorem reads_vector {r : Reader α} {w : α → List UInt8} {l : List α} (hsize : l.length < 2 ^ 64)
    (hne : ∀ a ∈ l, w a ≠ []) (h : ∀ a ∈ l, Reads r (w a) a) :
    Reads (serializeVector r) (writeVector w l) l :=
  (reads_uvarint hsize).bind (Reads.need_bind (length_le_length_flatMap hne) (Reads.times h))

theorem reads_bytes {l : List UInt8} (hsize : l.length < 2 ^ 64) :
    Reads (serializeVector Reader.byte) (writeVector (fun b => [b]) l) l :=
  reads_vector hsize (by simp) fun b _ => Reads.byte b

theorem reads_signatures (l : List Signature) :
    Reads (serializeSignatures l.length) (l.flatMap List.Vector.toList) l := by
  have hlength : (l.flatMap List.Vector.toList).length = l.length * 64 := by
    rw [List.length_flatMap]
    simp
  exact Reads.need_bind (hlength ▸ Nat.mod_le _ _) (reads_blobs l)

/-- The writer does not stop, and from its bytes the reader returns `a`. -/
def RoundTrips (out : Output) (r : Reader α) (a : α) : Prop :=
  ∃ o, out = Output.emit o ∧ Reads r o a

namespace RoundTrips

variable {β : Type} {out out' : Output} {r : Reader α} {f : α → Reader β} {a : α} {b : β}

theorem emit {o : List UInt8} (h : Reads r o a) : RoundTrips (Output.emit o) r a := ⟨o, rfl, h⟩

theorem append (h : RoundTrips out r a) (h' : RoundTrips out' (f a) b) :
    RoundTrips (out ++ out') (r >>= f) b := by
  obtain ⟨o, rfl, hr⟩ := h
  obtain ⟨o', rfl, hf⟩ := h'
  exact ⟨o ++ o', rfl, hr.bind hf⟩

theorem last (h : RoundTrips out r a) (hf : Reads (f a) [] b) : RoundTrips out (r >>= f) b := by
  obtain ⟨o, rfl, hr⟩ := h
  exact ⟨o, rfl, hr.last hf⟩

/-- A check of the writer that the reader makes too. -/
theorem guard {c : Bool} {p : Prop} [Decidable p] (hc : c = true) (hp : p)
    {r : Unit → Reader α} (h : RoundTrips out (r ()) a) :
    RoundTrips (Output.check c ++ out) (Reader.guard p >>= r) a := by
  obtain ⟨o, rfl, hr⟩ := h
  subst hc
  exact ⟨o, rfl, (Reads.guard hp).bind hr⟩

/-- A check of the writer that the reader meets by what it reads. -/
theorem check {c : Bool} (hc : c = true) (h : RoundTrips out r a) :
    RoundTrips (Output.check c ++ out) r a := by
  subst hc
  exact h

theorem times {w : α → Output} {l : List α} (h : ∀ a ∈ l, RoundTrips (w a) r a) :
    RoundTrips (Output.concat (l.map w)) (r.times l.length) l := by
  induction l with
  | nil => exact .emit (Reads.pure [])
  | cons a l ih =>
    have htail := ih fun x hx => h x (by simp [hx])
    exact (h a (by simp)).append (htail.last (Reads.pure (a :: l)))

end RoundTrips

end BinaryArchive

end Lethean
