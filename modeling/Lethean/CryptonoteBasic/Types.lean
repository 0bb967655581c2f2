import Mathlib

/-!
# Lethean.CryptonoteBasic.Types

The data model of `cryptonote_basic.h` and `rctTypes.h`: transactions, blocks
and the containers they are made of.

Fixed-size byte blobs (`crypto::hash`, `crypto::public_key`, `rct::key`, ...)
are byte vectors of their exact length, so a value of the wrong size cannot be
built. Machine integers are natural numbers; where a computation of the source
wraps, the wrap is written out at the computation. Hash caches (`hash_valid`,
`blob_size`) are not part of a value and are left out, as are the RingCT fields
that no serializer writes (`message`, `mixRing`, `senderPk`, `II`, `dest`).
-/

namespace Lethean

/-- A blob of exactly `n` bytes. -/
abbrev Blob (n : Nat) := List.Vector UInt8 n

abbrev Hash := Blob 32

instance : LawfulBEq Hash := inferInstance

/-- The id whose first two bytes are the number `n`. -/
def numberedHash (n : Nat) : Hash :=
  ⟨[UInt8.ofNat n, UInt8.ofNat (n / 256)] ++ List.replicate 30 0, rfl⟩

abbrev PublicKey := Blob 32

abbrev KeyImage := Blob 32

/-- `crypto::signature`: two scalars. -/
abbrev Signature := Blob 64

/-- `rct::key`. -/
abbrev RctKey := Blob 32

/-- A blob all of whose bytes are zero (`AUTO_VAL_INIT`). -/
def nullBlob (n : Nat) : Blob n := ⟨List.replicate n 0, List.length_replicate⟩

def nullHash : Hash := nullBlob 32

/-! ### Outputs and inputs -/

structure TxoutToScript where
  keys : List PublicKey
  script : List UInt8
  deriving DecidableEq

/-- `txout_target_v`. -/
inductive TxoutTarget
  | toScript (script : TxoutToScript)
  | toScripthash (hash : Hash)
  | toKey (key : PublicKey)
  deriving DecidableEq

structure TxOut where
  amount : Nat
  target : TxoutTarget
  deriving DecidableEq

/-- `txin_v`, with the fields of each alternative inlined. -/
inductive TxIn
  | gen (height : Nat)
  | toScript (prev : Hash) (prevout : Nat) (sigset : List UInt8)
  | toScripthash (prev : Hash) (prevout : Nat) (script : TxoutToScript) (sigset : List UInt8)
  | toKey (amount : Nat) (keyOffsets : List Nat) (kImage : KeyImage)
  deriving DecidableEq

namespace TxIn

/-- `transaction::get_signature_size`. -/
def signatureSize : TxIn → Nat
  | gen _ => 0
  | toScript _ _ _ => 0
  | toScripthash _ _ _ _ => 0
  | toKey _ keyOffsets _ => keyOffsets.length

/-- The key image an input spends, if it is a `txin_to_key`. -/
def keyImage? : TxIn → Option KeyImage
  | toKey _ _ kImage => some kImage
  | _ => none

end TxIn

/-! ### RingCT parts -/

/-- `rct::ecdhTuple`, without the unserialized `senderPk`. -/
structure EcdhTuple where
  mask : RctKey
  amount : RctKey
  deriving DecidableEq

/-- `rct::rangeSig`: a Borromean signature (`s0`, `s1`, `ee`) and the bit
commitments. All parts are blobs: 64 + 64 + 1 keys, then 64 keys. -/
structure RangeSig where
  asig : Blob (129 * 32)
  ci : Blob (64 * 32)
  deriving DecidableEq

/-- `rct::mgSig`, without the unserialized key images. -/
structure MgSig where
  ss : List (List RctKey)
  cc : RctKey
  deriving DecidableEq

def rctTypeNull : Nat := 0
def rctTypeFull : Nat := 1
def rctTypeSimple : Nat := 2

/-- `rct::rctSig`: the base part and the prunable part. `outPk` holds the
masks only; the destinations are rebuilt from the outputs. -/
structure RctSig where
  type : Nat
  txnFee : Nat
  pseudoOuts : List RctKey
  ecdhInfo : List EcdhTuple
  outPk : List RctKey
  rangeSigs : List RangeSig
  mgs : List MgSig
  deriving DecidableEq

def RctSig.null : RctSig :=
  { type := rctTypeNull, txnFee := 0, pseudoOuts := [], ecdhInfo := [], outPk := [],
    rangeSigs := [], mgs := [] }

/-! ### Transactions and blocks -/

structure TransactionPrefix where
  version : Nat
  unlockTime : Nat
  isMmTx : Bool
  vin : List TxIn
  vout : List TxOut
  extra : List UInt8
  deriving DecidableEq

structure Transaction extends TransactionPrefix where
  signatures : List (List Signature)
  rctSignatures : RctSig
  deriving DecidableEq

/-- `transaction::set_null`, the state of a default-constructed transaction. -/
def Transaction.null : Transaction :=
  { version := 1, unlockTime := 0, isMmTx := false, vin := [], vout := [], extra := [],
    signatures := [], rctSignatures := RctSig.null }

def Transaction.keyImages (tx : Transaction) : List KeyImage := tx.vin.filterMap TxIn.keyImage?

/-- `bytecoin_block`: the merge-mined parent of a version 2 or 3 block. -/
structure BytecoinBlock where
  majorVersion : Nat
  minorVersion : Nat
  prevId : Hash
  nonce : Nat
  numberOfTransactions : Nat
  minerTxBranch : List Hash
  minerTx : Transaction
  blockchainBranch : List Hash
  deriving DecidableEq

/-- A default-constructed `bytecoin_block`. -/
def BytecoinBlock.null : BytecoinBlock :=
  { majorVersion := 0, minorVersion := 0, prevId := nullHash, nonce := 0,
    numberOfTransactions := 0, minerTxBranch := [], minerTx := Transaction.null,
    blockchainBranch := [] }

structure BlockHeader where
  majorVersion : Nat
  minorVersion : Nat
  timestamp : Nat
  prevId : Hash
  nonce : Nat
  deriving DecidableEq

structure Block extends BlockHeader where
  parentBlock : BytecoinBlock
  minerTx : Transaction
  txHashes : List Hash
  deriving DecidableEq

/-- A default-constructed `block` with the given header. -/
def Block.ofHeader (header : BlockHeader) : Block :=
  { header with
    parentBlock := BytecoinBlock.null, minerTx := Transaction.null, txHashes := [] }

end Lethean
