import Lethean.Common.Varint
import Lethean.CryptonoteBasic.Types
import Lethean.Ringct.RctOps

/-!
# Lethean.Crypto.KeyDerivation

The one-time keys of `crypto.cpp`: a sender and a receiver derive the same secret
from each other's public key, and with it the key of an output and, for the
receiver only, the secret key behind it.

Public keys are bytes and points are read from them, which may fail. The group is
that of the RingCT signatures; the hashes are arbitrary functions.
-/

namespace Lethean

/-- The group with its keys as bytes, and the hashes of `crypto.cpp`. -/
structure KeyCurve (ℓ : Nat) (Point : Type) extends Ringct.Curve ℓ Point PublicKey where
  /-- `ge_frombytes_vartime` -/
  toPoint : PublicKey → Option Point
  toPoint_ofPoint : ∀ P, toPoint (ofPoint P) = some P
  hashBytesToScalar : List UInt8 → ZMod ℓ
  hashToEc : PublicKey → Point

abbrev KeyDerivation := Blob 32

structure AccountPublicAddress where
  spendPublicKey : PublicKey
  viewPublicKey : PublicKey
  isSwapAddr : Bool
  deriving DecidableEq

structure AccountKeys (ℓ : Nat) where
  accountAddress : AccountPublicAddress
  spendSecretKey : ZMod ℓ
  viewSecretKey : ZMod ℓ

structure Keypair (ℓ : Nat) where
  pub : PublicKey
  sec : ZMod ℓ

namespace KeyCurve

section

variable {ℓ : Nat} {Point : Type} [AddCommGroup Point] [Module (ZMod ℓ) Point]
  (C : KeyCurve ℓ Point)

def secretKeyToPublicKey (sec : ZMod ℓ) : PublicKey := C.ofPoint (sec • C.G)

def generateKeyDerivation (key1 : PublicKey) (key2 : ZMod ℓ) : Option KeyDerivation :=
  (C.toPoint key1).map fun point => C.ofPoint ((8 : Nat) • key2 • point)

def derivationToScalar (derivation : KeyDerivation) (outputIndex : Nat) : ZMod ℓ :=
  C.hashBytesToScalar (derivation.toList ++ writeVarint outputIndex)

def derivePublicKey (derivation : KeyDerivation) (outputIndex : Nat) (base : PublicKey) :
    Option PublicKey :=
  (C.toPoint base).map fun point =>
    C.ofPoint (point + C.derivationToScalar derivation outputIndex • C.G)

def deriveSecretKey (derivation : KeyDerivation) (outputIndex : Nat) (base : ZMod ℓ) : ZMod ℓ :=
  base + C.derivationToScalar derivation outputIndex

def generateKeyImage (pub : PublicKey) (sec : ZMod ℓ) : KeyImage :=
  C.ofPoint (sec • C.hashToEc pub)

def generateKeyImageHelper (ack : AccountKeys ℓ) (txPublicKey : PublicKey)
    (realOutputIndex : Nat) : Option (Keypair ℓ × KeyImage) := do
  let recvDerivation ← C.generateKeyDerivation txPublicKey ack.viewSecretKey
  let pub ← C.derivePublicKey recvDerivation realOutputIndex ack.accountAddress.spendPublicKey
  let sec := C.deriveSecretKey recvDerivation realOutputIndex ack.spendSecretKey
  pure (⟨pub, sec⟩, C.generateKeyImage pub sec)

/-- `is_out_to_acc`. When a key cannot be read, the source compares with a key it
has not initialised; such an output does not count as found here. -/
def isOutToAcc (acc : AccountKeys ℓ) (outKey txPubKey : PublicKey) (outputIndex : Nat) : Bool :=
  match C.generateKeyDerivation txPubKey acc.viewSecretKey with
  | none => false
  | some derivation =>
    decide (C.derivePublicKey derivation outputIndex acc.accountAddress.spendPublicKey =
      some outKey)

/-! ### Sender and receiver -/

structure Account extends AccountKeys ℓ where
  spend_eq : accountAddress.spendPublicKey = C.secretKeyToPublicKey spendSecretKey
  view_eq : accountAddress.viewPublicKey = C.secretKeyToPublicKey viewSecretKey

variable {C}

/-- The derivation is the same from either side. -/
theorem derivation_comm (a b : ZMod ℓ) :
    C.generateKeyDerivation (C.secretKeyToPublicKey a) b =
      C.generateKeyDerivation (C.secretKeyToPublicKey b) a := by
  simp only [generateKeyDerivation, secretKeyToPublicKey, C.toPoint_ofPoint, Option.map_some]
  rw [smul_comm a b]

theorem derivePublicKey_toPublicKey (derivation : KeyDerivation) (outputIndex : Nat)
    (base : ZMod ℓ) :
    C.derivePublicKey derivation outputIndex (C.secretKeyToPublicKey base) =
      some (C.secretKeyToPublicKey (C.deriveSecretKey derivation outputIndex base)) := by
  simp only [derivePublicKey, secretKeyToPublicKey, C.toPoint_ofPoint, Option.map_some,
    deriveSecretKey, add_smul]

variable {txKey : ZMod ℓ} {derivation : KeyDerivation} {outKey : PublicKey}

section

variable (acc : C.Account) {i : Nat}
  (hderivation : C.generateKeyDerivation acc.accountAddress.viewPublicKey txKey = some derivation)
  (hkey : C.derivePublicKey derivation i acc.accountAddress.spendPublicKey = some outKey)
include hderivation hkey

/-- What a sender makes of an address with the secret key `txKey`: the shared
derivation, and the key of the output. -/
theorem Account.of_sent :
    C.generateKeyDerivation (C.secretKeyToPublicKey txKey) acc.viewSecretKey = some derivation ∧
      outKey = C.secretKeyToPublicKey (C.deriveSecretKey derivation i acc.spendSecretKey) := by
  rw [acc.view_eq, derivation_comm] at hderivation
  rw [acc.spend_eq, derivePublicKey_toPublicKey] at hkey
  exact ⟨hderivation, (Option.some.inj hkey).symm⟩

theorem Account.isOutToAcc_of_sent :
    C.isOutToAcc acc.toAccountKeys outKey (C.secretKeyToPublicKey txKey) i = true := by
  have hshared := (acc.of_sent hderivation hkey).1
  simp [isOutToAcc, hshared, hkey]

theorem Account.generateKeyImageHelper_of_sent :
    ∃ inEphemeral image, C.generateKeyImageHelper acc.toAccountKeys
        (C.secretKeyToPublicKey txKey) i = some (inEphemeral, image) ∧
      C.secretKeyToPublicKey inEphemeral.sec = outKey := by
  obtain ⟨hshared, houtKey⟩ := acc.of_sent hderivation hkey
  set sec := C.deriveSecretKey derivation i acc.spendSecretKey
  refine ⟨⟨outKey, sec⟩, C.generateKeyImage outKey sec, ?_, houtKey.symm⟩
  simp only [generateKeyImageHelper, hshared, Option.bind_eq_bind, Option.bind_some, hkey]
  rfl

end

end

end KeyCurve

end Lethean
