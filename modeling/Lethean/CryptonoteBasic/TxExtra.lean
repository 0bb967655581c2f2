import Lethean.Serialization.BinaryArchive

/-!
# Lethean.CryptonoteBasic.TxExtra

`tx_extra.h` and `parse_tx_extra`: the fields of a transaction's extra bytes.
Only reading is modelled, in the archive's lax mode.
-/

namespace Lethean

open Codec BinaryArchive

/-- `tx_extra_merge_mining_tag`. -/
structure MergeMiningTag where
  depth : Nat
  merkleRoot : Hash
  deriving DecidableEq

inductive TxExtraField
  | padding (size : Nat)
  | pubKey (pubKey : PublicKey)
  | nonce (nonce : List UInt8)
  | mergeMiningTag (tag : MergeMiningTag)
  | mysteriousMinergate (data : List UInt8)
  deriving DecidableEq

/-- `do_serialize` on a `std::string`. -/
def serializeString : Reader (List UInt8) := do
  let size ← serializeUvarint 64
  Reader.need size
  Reader.byte.times size

def txExtraPaddingMaxCount : Nat := 255

def txExtraNonceMaxCount : Nat := 255

/-- `tx_extra_padding`: zeros up to the end of the extra bytes. The tag counts
as the first of them. -/
def serializeTxExtraPadding : Reader TxExtraField := fun _ s =>
  if s.all (· = 0) ∧ s.length + 1 ≤ txExtraPaddingMaxCount then
    some (.padding (s.length + 1), [])
  else none

/-- The inner archive of a merge mining tag, which must be read to its end. -/
def serializeMergeMiningHelper : Reader MergeMiningTag := do
  let depth ← serializeUvarint 64
  let merkleRoot ← serializeBlob 32
  pure ⟨depth, merkleRoot⟩

/-- `tx_extra_merge_mining_tag`: a string with an archive of its own. -/
def serializeMergeMiningTag : Reader MergeMiningTag := do
  let field ← serializeString
  match serializeMergeMiningHelper false field with
  | some (tag, []) => pure tag
  | _ => Reader.fail

def serializeTxExtraField : Reader TxExtraField := do
  let tag ← Reader.byte
  if tag = 0x00 then serializeTxExtraPadding
  else if tag = 0x01 then do
    let pubKey ← serializeBlob 32
    pure (.pubKey pubKey)
  else if tag = 0x02 then do
    let nonce ← serializeString
    Reader.guard (nonce.length ≤ txExtraNonceMaxCount)
    pure (.nonce nonce)
  else if tag = 0x03 then do
    let tag ← serializeMergeMiningTag
    pure (.mergeMiningTag tag)
  else if tag = 0xde then do
    let data ← serializeString
    pure (.mysteriousMinergate data)
  else Reader.fail

/-- The loop of `parse_tx_extra`. Every field has at least one byte, so there
are no more fields than bytes. -/
def parseTxExtraLoop : Nat → List UInt8 → Option (List TxExtraField)
  | 0, _ => none
  | n + 1, s =>
    match serializeTxExtraField false s with
    | none => none
    | some (field, []) => some [field]
    | some (field, b :: rest) => (parseTxExtraLoop n (b :: rest)).map (field :: ·)

def parseTxExtra (txExtra : List UInt8) : Option (List TxExtraField) :=
  if txExtra = [] then some [] else parseTxExtraLoop txExtra.length txExtra

/-- `get_mm_tag_from_extra`: the first merge mining tag. -/
def getMmTagFromExtra (txExtra : List UInt8) : Option MergeMiningTag := do
  let fields ← parseTxExtra txExtra
  fields.findSome? fun
    | .mergeMiningTag tag => some tag
    | _ => none

end Lethean
