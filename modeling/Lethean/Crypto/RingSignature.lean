import Lethean.CryptonoteCore.ConstructTx

/-!
# Lethean.Crypto.RingSignature

The ring signatures of `crypto.cpp`. The signer draws a challenge and a response
for every other member, so that their challenges are fixed before the hash of all
commitments is known; its own challenge is what is missing to that hash.

Scalars are reduced, so they pass `sc_check`.
-/

namespace Lethean

/-- `crypto::signature`, as scalars. -/
structure RingSig (ℓ : Nat) where
  c : ZMod ℓ
  r : ZMod ℓ

namespace KeyCurve

variable {ℓ : Nat} {Point : Type} [AddCommGroup Point] [Module (ZMod ℓ) Point]
  (C : KeyCurve ℓ Point)

/-- An entry of `rs_comm`. -/
def entryBytes (a b : Point) : List UInt8 := (C.ofPoint a).toList ++ (C.ofPoint b).toList

/-- The entry of a member whose signature is known. -/
def memberEntry (image : Point) (pub : PublicKey) (sig : RingSig ℓ) : Option (List UInt8) :=
  (C.toPoint pub).map fun point =>
    C.entryBytes (sig.c • point + sig.r • C.G) (sig.r • C.hashToEc pub + sig.c • image)

/-- `generate_ring_signature`, where `none` is `abort`. The random scalars are `k` and the
signatures of the other members. -/
def generateRingSignature (prefixHash : Hash) (image : KeyImage) (pubs : List PublicKey)
    (sec : ZMod ℓ) (secIndex : Nat) (k : ZMod ℓ) (random : Nat → RingSig ℓ) :
    Option (Nat → RingSig ℓ) := do
  let imageUnp ← C.toPoint image
  let ab ← pubs.zipIdx.mapM fun (pub, i) =>
    if i = secIndex then some (C.entryBytes (k • C.G) (k • C.hashToEc pub))
    else C.memberEntry imageUnp pub (random i)
  let sum := ∑ i ∈ Finset.range pubs.length, if i = secIndex then 0 else (random i).c
  let c := C.hashBytesToScalar (prefixHash.toList ++ ab.flatten) - sum
  some (Function.update random secIndex ⟨c, k - c * sec⟩)

def checkRingSignature (prefixHash : Hash) (image : KeyImage) (pubs : List PublicKey)
    (sig : Nat → RingSig ℓ) : Bool :=
  (do let imageUnp ← C.toPoint image
      let ab ← pubs.zipIdx.mapM fun (pub, i) => C.memberEntry imageUnp pub (sig i)
      some (C.hashBytesToScalar (prefixHash.toList ++ ab.flatten) -
        ∑ i ∈ Finset.range pubs.length, (sig i).c)) = some 0

variable {C} {pubs : List PublicKey} {sec k : ZMod ℓ} {secIndex : Nat}

/-- With its response the signer's entry is the one it was hashed with. -/
theorem memberEntry_signer (c : ZMod ℓ) :
    C.memberEntry (sec • C.hashToEc (C.secretKeyToPublicKey sec)) (C.secretKeyToPublicKey sec)
        ⟨c, k - c * sec⟩ =
      some (C.entryBytes (k • C.G) (k • C.hashToEc (C.secretKeyToPublicKey sec))) := by
  have hclose : ∀ P : Point, c • sec • P + (k - c * sec) • P = k • P := by
    intro P
    rw [smul_smul, ← add_smul, add_sub_cancel]
  have htoPoint : C.toPoint (C.secretKeyToPublicKey sec) = some (sec • C.G) :=
    C.toPoint_ofPoint _
  simp only [memberEntry, htoPoint, Option.map_some]
  rw [hclose, add_comm, hclose]

theorem sum_update_c (random : Nat → RingSig ℓ) (sig : RingSig ℓ) (h : secIndex < pubs.length) :
    ∑ i ∈ Finset.range pubs.length, (Function.update random secIndex sig i).c =
      sig.c + ∑ i ∈ Finset.range pubs.length, if i = secIndex then 0 else (random i).c := by
  have hsplit : ∀ i, (Function.update random secIndex sig i).c =
      (if i = secIndex then sig.c else 0) + if i = secIndex then 0 else (random i).c := by
    intro i
    by_cases hi : i = secIndex <;> simp [hi, Function.update_of_ne]
  simp [hsplit, Finset.sum_add_distrib, h]

/-- **Ring signatures verify**: the challenges of all members add up to the hash. -/
theorem ring_signature_verifies (prefixHash : Hash) (random : Nat → RingSig ℓ) {image : KeyImage}
    (hvalid : ∀ pub ∈ pubs, (C.toPoint pub).isSome = true)
    (hown : pubs[secIndex]? = some (C.secretKeyToPublicKey sec))
    (himage : image = C.generateKeyImage (C.secretKeyToPublicKey sec) sec) :
    ∃ sig, C.generateRingSignature prefixHash image pubs sec secIndex k random = some sig ∧
      C.checkRingSignature prefixHash image pubs sig = true := by
  have hpoint : C.toPoint image = some (sec • C.hashToEc (C.secretKeyToPublicKey sec)) := by
    rw [himage, generateKeyImage, C.toPoint_ofPoint]
  simp only [generateRingSignature, checkRingSignature, hpoint, Option.bind_eq_bind,
    Option.bind_some]
  generalize hentry : (fun x : PublicKey × Nat =>
    if x.2 = secIndex then some (C.entryBytes (k • C.G) (k • C.hashToEc x.1))
    else C.memberEntry (sec • C.hashToEc (C.secretKeyToPublicKey sec)) x.1 (random x.2)) = entry
  -- both loops fill the buffer alike, whatever the challenge of the signer is
  have hentries : ∀ c, ∀ x ∈ pubs.zipIdx, entry x = some ((entry x).getD []) ∧
      C.memberEntry (sec • C.hashToEc (C.secretKeyToPublicKey sec)) x.1
        (Function.update random secIndex ⟨c, k - c * sec⟩ x.2) = entry x := by
    rintro c ⟨pub, i⟩ hx
    have hpub : pubs[i]? = some pub := List.mem_zipIdx_iff_getElem?.mp hx
    obtain ⟨point, hpoint⟩ := Option.isSome_iff_exists.mp (hvalid pub (List.mem_of_getElem? hpub))
    subst hentry
    by_cases hi : i = secIndex
    · subst hi
      obtain rfl : pub = C.secretKeyToPublicKey sec := Option.some.inj (hpub.symm.trans hown)
      simp [memberEntry_signer]
    · simp [hi, memberEntry, hpoint]
  rw [mapM_eq_some fun x hx => (hentries 0 x hx).1, Option.bind_some]
  refine ⟨_, rfl, ?_⟩
  rw [mapM_eq_some fun x hx => (hentries _ x hx).2.trans (hentries 0 x hx).1,
    sum_update_c _ _ (List.getElem?_eq_some_iff.mp hown).1]
  simp

open TxCrypto (sampleTxCrypto) in
/-- A ring of two, signed by the second member. -/
theorem ring_signature_verifies_two :
    let C := sampleTxCrypto.toKeyCurve
    let image := C.generateKeyImage (C.secretKeyToPublicKey 5) 5
    let pubs := [C.secretKeyToPublicKey 4, C.secretKeyToPublicKey 5]
    ∃ sig, C.generateRingSignature nullHash image pubs 5 1 3 (fun _ => ⟨1, 2⟩) = some sig ∧
      C.checkRingSignature nullHash image pubs sig = true :=
  ring_signature_verifies nullHash _ (by simp [secretKeyToPublicKey, toPoint_ofPoint]) rfl rfl

end KeyCurve

end Lethean
