import Lethean.Wallet.LookupMaps

/-!
# Lethean.Wallet.ImportMaps

What the imports do to `m_key_images` and `m_pub_keys`, and the maps over whole runs
of a wallet.

`import_outputs` clears the transfers and not the maps, `import_key_images` and
`load_tx` overwrite key images and leave the entries of the old ones. An entry that
is not entered again leads to the wrong transfer from then on, or out of range.
-/

namespace Lethean

open Frame Positions

/-! ### Imports -/

/-- The outputs that `import_outputs` gets to push, with their keys. -/
def importedOutputs (env : WalletEnv) :
    Nat → List TransferDetails → List (PublicKey × TransferDetails)
  | _, [] => []
  | i, td :: outputs =>
    match importedTransfer env i td with
    | .error _ => []
    | .ok imported => imported :: importedOutputs env (i + 1) outputs

/-- Every entry of the maps is entered again. -/
structure Wallet2.CoveredBy (w : Wallet2) (imported : List (PublicKey × TransferDetails)) :
    Prop where
  images : ∀ k, w.keyImages k ≠ none → k ∈ imported.map (·.2.keyImage)
  keys : ∀ p, w.pubKeys p ≠ none → p ∈ imported.map (·.1)

/-- No other key image has an entry at an index that gets one of the images. -/
def Wallet2.KeepsImages (w : Wallet2) (keyImages : List KeyImage) : Prop :=
  ∀ k i, w.keyImages k = some i → i < keyImages.length → k ∈ keyImages

def Wallet2.pushTransfers (w : Wallet2) (imported : List (PublicKey × TransferDetails)) : Wallet2 :=
  { w with
    transfers := w.transfers ++ imported.map (·.2)
    keyImages := place w.keyImages w.transfers.length (imported.map (·.2.keyImage))
    pubKeys := place w.pubKeys w.transfers.length (imported.map (·.1)) }

theorem importedTransfer_ok {env : WalletEnv} {i : Nat} {td : TransferDetails}
    {imported : PublicKey × TransferDetails} (h : importedTransfer env i td = .ok imported) :
    imported.2.getPublicKey = some imported.1 := by
  unfold importedTransfer at h
  split at h
  · cases h
  split at h
  · cases h
  split at h
  · cases h
  split at h
  · rename_i pub keyImage key _ hkey
    split at h
    · cases h
    · rename_i heq
      cases h
      rwa [not_not.mp heq]
  · cases h

theorem of_mem_importedOutputs {env : WalletEnv} {imported : PublicKey × TransferDetails}
    {outputs : List TransferDetails} {i : Nat} (h : imported ∈ importedOutputs env i outputs) :
    imported.2.getPublicKey = some imported.1 := by
  induction outputs generalizing i with
  | nil =>
    cases h
  | cons td outputs ih =>
    rw [importedOutputs] at h
    split at h
    · cases h
    · rename_i first hfirst
      rcases List.mem_cons.mp h with rfl | hrest
      · exact importedTransfer_ok hfirst
      · exact ih hrest

theorem importOutputsFrom_final (env : WalletEnv) (outputs : List TransferDetails) (i : Nat)
    (w : Wallet2) :
    final (importOutputsFrom env i outputs w) = w.pushTransfers (importedOutputs env i
      outputs) := by
  induction outputs generalizing i w with
  | nil =>
    simp [importOutputsFrom, importedOutputs, Wallet2.pushTransfers, place]
  | cons td outputs ih =>
    rw [importOutputsFrom, importedOutputs]
    cases himported : importedTransfer env i td with
    | error e => simp [Wallet2.pushTransfers, place]
    | ok imported =>
      dsimp only
      rw [modify_bind, ih]
      simp [Wallet2.pushTransfers, Wallet2.pushTransfer, place]

theorem Wallet2.CoveredBy.maps {env : WalletEnv} {outputs : List TransferDetails} {w : Wallet2}
    (h : w.CoveredBy (importedOutputs env 0 outputs)) :
    (final (importOutputs env outputs w)).Maps := by
  have hfinal : final (importOutputs env outputs w) =
      (w.withTransfers []).pushTransfers (importedOutputs env 0 outputs) := by
    rw [← importOutputsFrom_final]
    unfold importOutputs
    rw [modify_bind]
    cases hrun : importOutputsFrom env 0 outputs (w.withTransfers []) with
    | ok u w' =>
      rw [bind_ok hrun]
      rfl
    | error e w' =>
      rw [bind_error hrun]
      rfl
  rw [hfinal]
  generalize himported : importedOutputs env 0 outputs = imported at h
  have hkeys : ∀ {p}, p ∈ imported → p.2.getPublicKey = some p.1 := by
    rw [← himported]
    exact of_mem_importedOutputs
  refine ⟨?_, ?_, fun td htd _ => ?_, fun td htd => ?_⟩
  · have hpoints := points_replace (h.images _)
    rw [List.map_map] at hpoints
    rw [Wallet2.images, Wallet2.pushTransfers]
    simpa [Wallet2.withTransfers, Function.comp_def] using hpoints
  · have hpoints := points_replace (h.keys _)
    have heq : (imported.map (·.1)).map some = (imported.map (·.2)).map (·.getPublicKey) := by
      rw [List.map_map, List.map_map]
      exact List.map_congr_left fun p hp => (hkeys hp).symm
    rwa [heq] at hpoints
  · refine place_ne_none (.inr ?_)
    obtain ⟨p, hp, rfl⟩ := List.mem_map.mp htd
    exact List.mem_map.mpr ⟨p, hp, rfl⟩
  · obtain ⟨p, hp, rfl⟩ := List.mem_map.mp htd
    rw [hkeys hp]
    exact Option.some_ne_none _

/-! ### Key images -/

section KeyImages

variable {w : Wallet2}

theorem Wallet2.setKeyImages_keyImages (keyImages : List KeyImage) (w : Wallet2) (i : Nat) :
    (w.setKeyImages i keyImages).keyImages = place w.keyImages i keyImages := by
  induction keyImages generalizing w i with
  | nil => rfl
  | cons keyImage keyImages ih => exact ih (w.setKeyImage i keyImage) (i + 1)

theorem Wallet2.setKeyImages_pubKeys (keyImages : List KeyImage) (w : Wallet2) (i : Nat) :
    (w.setKeyImages i keyImages).pubKeys = w.pubKeys := by
  induction keyImages generalizing w i with
  | nil => rfl
  | cons keyImage keyImages ih => exact ih (w.setKeyImage i keyImage) (i + 1)

/-- The transfers from index `i` on get the key images, the others stay. -/
theorem Wallet2.getElem?_setKeyImages (keyImages : List KeyImage) (w : Wallet2) (i j : Nat) :
    (w.setKeyImages i keyImages).transfers[j]? = (w.transfers[j]?).map fun td =>
      if i ≤ j then ((keyImages[j - i]?).map td.withKeyImage).getD td else td := by
  induction keyImages generalizing w i j with
  | nil =>
    simp [setKeyImages]
  | cons keyImage keyImages ih =>
    rw [setKeyImages, ih]
    simp only [setKeyImage, List.getElem?_modify, Option.map_map, Option.map_eq_map]
    congr 1
    funext td
    rcases Nat.lt_trichotomy i j with hlt | rfl | hgt
    · have hstep : j - i = j - (i + 1) + 1 := by omega
      simp [Nat.ne_of_lt hlt, Nat.le_of_lt hlt, Nat.succ_le_of_lt hlt, hstep]
    · simp
    · simp [Nat.ne_of_gt hgt, Nat.not_le_of_lt hgt, Nat.not_le_of_lt (Nat.lt_succ_of_lt hgt)]

theorem Wallet2.setKeyImages_publicKeys (w : Wallet2) (i : Nat) (keyImages : List KeyImage) :
    (w.setKeyImages i keyImages).publicKeys = w.publicKeys := by
  refine List.ext_getElem? fun j => ?_
  rw [publicKeys, publicKeys, List.getElem?_map, List.getElem?_map, getElem?_setKeyImages,
    Option.map_map]
  congr 1
  funext td
  dsimp only [Function.comp_apply]
  split
  · cases keyImages[j - i]? <;> rfl
  · rfl

theorem Wallet2.setKeyImages_images (w : Wallet2) {keyImages : List KeyImage}
    (hlen : keyImages.length ≤ w.transfers.length) :
    (w.setKeyImages 0 keyImages).images =
      keyImages.map some ++ w.images.drop keyImages.length := by
  refine List.ext_getElem? fun j => ?_
  rw [images, List.getElem?_map, getElem?_setKeyImages, Option.map_map]
  rcases Nat.lt_or_ge j keyImages.length with hlt | hge
  · have hj : w.transfers[j]? = some w.transfers[j] := List.getElem?_eq_getElem (by omega)
    rw [List.getElem?_append_left (by simpa using hlt), hj]
    simp [TransferDetails.withKeyImage, hlt]
  · have hnone : keyImages[j]? = none := List.getElem?_eq_none hge
    rw [List.getElem?_append_right (by simpa using hge), List.getElem?_drop, images,
      List.length_map, Nat.add_sub_cancel' hge, List.getElem?_map]
    simp [hnone, Function.comp_def]

/-- Key images for the first transfers keep the maps right if no other image has an
entry there. -/
theorem Wallet2.Maps.setKeyImages (h : w.Maps) {keyImages : List KeyImage}
    (hlen : keyImages.length ≤ w.transfers.length) (hkeeps : w.KeepsImages keyImages) :
    (w.setKeyImages 0 keyImages).Maps := by
  refine ⟨?_, ?_, fun td htd hknown => ?_, fun td htd => ?_⟩
  · rw [setKeyImages_keyImages, setKeyImages_images w hlen]
    exact h.images.overwrite fun {k i} => hkeeps k i
  · rw [setKeyImages_pubKeys, setKeyImages_publicKeys]
    exact h.keys
  · rw [setKeyImages_keyImages]
    obtain ⟨j, hj⟩ := List.mem_iff_getElem?.mp htd
    rw [getElem?_setKeyImages, Option.map_eq_some_iff] at hj
    obtain ⟨td0, htd0, rfl⟩ := hj
    simp only [Nat.zero_le, if_true, Nat.sub_zero] at hknown ⊢
    cases himage : keyImages[j]? with
    | none =>
      simp only [himage, Option.map_none, Option.getD_none] at hknown ⊢
      exact place_ne_none (.inl (h.known td0 (List.mem_of_getElem? htd0) hknown))
    | some keyImage => exact place_ne_none (.inr (List.mem_of_getElem? himage))
  · have hkeys := w.setKeyImages_publicKeys 0 keyImages
    have hmem : td.getPublicKey ∈ w.publicKeys := by
      rw [← hkeys]
      exact List.mem_map_of_mem htd
    obtain ⟨td0, htd0, heq⟩ := List.mem_map.mp hmem
    rw [← heq]
    exact h.keyed td0 htd0

theorem Wallet2.Maps.importKeyImages (h : w.Maps) {checks : KeyImageChecks}
    {signed : List (KeyImage × Signature)} {reply : Except WalletError (List Nat)}
    (hkeeps : signed.length ≤ w.transfers.length → w.KeepsImages (signed.map (·.1))) :
    (final (Lethean.importKeyImages checks signed reply w)).Maps := by
  unfold Lethean.importKeyImages
  rw [get_bind]
  split
  · exact h
  rename_i hlen
  have hlen' := Nat.le_of_not_lt hlen
  have hset := h.setKeyImages (by simpa using hlen') (hkeeps hlen')
  by_cases hempty : signed = []
  · simp only [hempty, if_true]
    exact h
  rw [if_neg hempty]
  cases hchecks : checkSignedKeyImages checks w signed.length 0 signed with
  | error e => exact h
  | ok _ =>
    dsimp only
    rw [modify_bind]
    cases reply with
    | error e => exact hset
    | ok spentStatus =>
      dsimp only
      split
      · exact hset
      · refine SameMaps.maps (SameMaps.mapIdx _ fun i td => ?_) hset
        split <;> rfl

theorem Wallet2.setKeyImages_withPubKeys (keyImages : List KeyImage) :
    ∀ (w : Wallet2) (i : Nat) (pubKeys : PublicKey → Option Nat),
      (w.withPubKeys pubKeys).setKeyImages i keyImages =
        (w.setKeyImages i keyImages).withPubKeys pubKeys := by
  induction keyImages with
  | nil => exact fun _ _ _ => rfl
  | cons keyImage keyImages ih => exact fun w i => ih (w.setKeyImage i keyImage) (i + 1)

theorem loadKeyImages_eq (keyImages : List KeyImage) {w : Wallet2} {i : Nat} (hkeyed : w.Keyed)
    (hlen : i + keyImages.length ≤ w.transfers.length) (hpoints : Points w.pubKeys w.publicKeys) :
    ∃ pubKeys, loadKeyImages i keyImages w =
        .ok ⟨⟩ ((w.setKeyImages i keyImages).withPubKeys pubKeys) ∧
      Points pubKeys w.publicKeys := by
  induction keyImages generalizing w i with
  | nil => exact ⟨w.pubKeys, rfl, hpoints⟩
  | cons keyImage keyImages ih =>
    rw [List.length_cons] at hlen
    obtain ⟨td, htd⟩ : ∃ td, w.transfers[i]? = some td :=
      ⟨_, List.getElem?_eq_getElem (by omega)⟩
    obtain ⟨pub, hpub⟩ := Option.ne_none_iff_exists'.mp (hkeyed td (List.mem_of_getElem? htd))
    have hkeys : (w.setKeyImage i keyImage).publicKeys = w.publicKeys :=
      w.setKeyImages_publicKeys i [keyImage]
    have hget : ((w.setKeyImage i keyImage).transfers[i]?).bind (·.getPublicKey) = some pub := by
      rwa [Wallet2.setKeyImage, List.getElem?_modify_eq, htd]
    have hentry : w.publicKeys[i]? = some (some pub) := by
      rw [Wallet2.publicKeys, List.getElem?_map, htd, Option.map_some, hpub]
    let w' := (w.setKeyImage i keyImage).withPubKeys (Function.update w.pubKeys pub (some i))
    have hkeyed' : w'.Keyed := by
      intro td' htd'
      have hmem : td'.getPublicKey ∈ w.publicKeys := by
        rw [← hkeys]
        exact List.mem_map_of_mem htd'
      obtain ⟨td0, htd0, heq⟩ := List.mem_map.mp hmem
      rw [← heq]
      exact hkeyed td0 htd0
    have hlen' : i + 1 + keyImages.length ≤ w'.transfers.length := by
      change _ ≤ (w.transfers.modify i _).length
      rw [List.length_modify]
      omega
    have hpoints' : Points w'.pubKeys w'.publicKeys := by
      change Points (Function.update w.pubKeys pub (some i)) (w.setKeyImage i keyImage).publicKeys
      rw [hkeys]
      exact hpoints.enter hentry
    obtain ⟨pubKeys, hload, hpointsEnd⟩ := ih hkeyed' hlen' hpoints'
    refine ⟨pubKeys, ?_, hkeys ▸ hpointsEnd⟩
    rw [loadKeyImages, modify_bind, get_bind, hget]
    dsimp only
    rw [modify_bind]
    exact hload.trans (by rw [Wallet2.setKeyImages_withPubKeys]; rfl)

theorem Wallet2.Maps.loadTx (h : w.Maps) {Ptx : Type} {signedTxs : SignedTxSet Ptx}
    {accept : SignedTxSet Ptx → Bool}
    (hkeeps : accept signedTxs = true → signedTxs.keyImages.length ≤ w.transfers.length →
      w.KeepsImages signedTxs.keyImages) :
    (final (Lethean.loadTx signedTxs accept w)).Maps := by
  unfold Lethean.loadTx
  split
  · exact h
  rename_i haccept
  rw [get_bind]
  split
  · exact h
  rename_i hlen
  have hlen' := Nat.le_of_not_lt hlen
  have hset := h.setKeyImages hlen' (hkeeps (Bool.eq_true_of_not_eq_false haccept) hlen')
  obtain ⟨pubKeys, hload, hpoints⟩ := loadKeyImages_eq signedTxs.keyImages (i := 0) h.keyed
    (by rwa [Nat.zero_add]) h.keys
  rw [bind_ok hload]
  refine ⟨hset.images, ?_, hset.known, hset.keyed⟩
  change Points pubKeys (w.setKeyImages 0 signedTxs.keyImages).publicKeys
  rwa [Wallet2.setKeyImages_publicKeys]

end KeyImages

/-! ### Runs of a wallet -/

/-- The calls that change the transfers or the maps. -/
inductive WalletCall (Ptx : Type)
  | processNewTransaction (t : NewTransaction)
  | detachBlockchain (height : Nat)
  | importOutputs (outputs : List TransferDetails)
  | importKeyImages (checks : KeyImageChecks) (signedKeyImages : List (KeyImage × Signature))
      (reply : Except WalletError (List Nat))
  | loadTx (signedTxs : SignedTxSet Ptx) (accept : SignedTxSet Ptx → Bool)

namespace WalletCall

variable {Ptx : Type}

def run (env : WalletEnv) (w : Wallet2) : WalletCall Ptx → Wallet2
  | processNewTransaction t => final (Lethean.processNewTransaction env t w)
  | detachBlockchain height => final (Lethean.detachBlockchain height w)
  | importOutputs outputs => final (Lethean.importOutputs env outputs w)
  | importKeyImages checks signed reply => final (Lethean.importKeyImages checks signed reply w)
  | loadTx signedTxs accept => final (Lethean.loadTx signedTxs accept w)

/-- What a call needs of the wallet to keep the maps right. -/
def KeepsMaps (env : WalletEnv) (w : Wallet2) : WalletCall Ptx → Prop
  | processNewTransaction _ => True
  | detachBlockchain height => w.Detachable height
  | importOutputs outputs => w.CoveredBy (importedOutputs env 0 outputs)
  | importKeyImages _ signed _ =>
    signed.length ≤ w.transfers.length → w.KeepsImages (signed.map (·.1))
  | loadTx signedTxs accept =>
    accept signedTxs = true → signedTxs.keyImages.length ≤ w.transfers.length →
      w.KeepsImages signedTxs.keyImages

theorem maps_run {env : WalletEnv} {w : Wallet2} (h : w.Maps) {call : WalletCall Ptx}
    (hkeeps : call.KeepsMaps env w) : (call.run env w).Maps := by
  cases call with
  | processNewTransaction t => exact (callInvariant_maps env t).processNewTransaction h
  | detachBlockchain height => exact h.detachBlockchain hkeeps
  | importOutputs outputs => exact hkeeps.maps
  | importKeyImages checks signed reply => exact h.importKeyImages hkeeps
  | loadTx signedTxs accept => exact h.loadTx hkeeps

end WalletCall

/-- `w` is reached from `w₀` by calls that find the wallet as they need it. -/
inductive KeepingRun (env : WalletEnv) (Ptx : Type) (w₀ : Wallet2) : Wallet2 → Prop
  | start : KeepingRun env Ptx w₀ w₀
  | call {w : Wallet2} (call : WalletCall Ptx) : KeepingRun env Ptx w₀ w →
      call.KeepsMaps env w → KeepingRun env Ptx w₀ (call.run env w)

theorem KeepingRun.maps {env : WalletEnv} {Ptx : Type} {w0 w : Wallet2}
    (h : KeepingRun env Ptx w0 w) (h0 : w0.Maps) : w.Maps := by
  induction h with
  | start => exact h0
  | call call _ hkeeps ih => exact call.maps_run ih hkeeps

/-- The maps are right in every state of a run in which every call finds the wallet as
it needs it. -/
theorem lookupSound_of_keepingRun (env : WalletEnv) (Ptx : Type) (w₀ w : Wallet2)
    (h₀ : w₀.LookupSound) (hkeyed : w₀.Keyed) (hrun : KeepingRun env Ptx w₀ w) :
    w.LookupSound :=
  (Wallet2.maps_iff.mp (hrun.maps (Wallet2.maps_iff.mpr ⟨h₀, hkeyed⟩))).1

def walletWithOutput : Wallet2 :=
  (WalletCall.processNewTransaction (sampleReceipt (numberedHash 1) [numberedHash 7]
    [⟨5, .toKey (sampleOneTimeKey (numberedHash 7) 0)⟩] [] [] 3) : WalletCall Unit).run
    sampleWalletEnv (.fresh nullHash)

/-- The wallet takes over its own outputs: the entries are entered again. -/
theorem lookupSound_importOutputs_own :
    ((WalletCall.importOutputs walletWithOutput.transfers : WalletCall Unit).run sampleWalletEnv
      walletWithOutput).LookupSound := by
  have hfresh := Wallet2.maps_iff.mp (Wallet2.maps_fresh nullHash)
  have hstart : KeepingRun sampleWalletEnv Unit (.fresh nullHash) walletWithOutput :=
    .call _ .start trivial
  have hmaps := hstart.maps (Wallet2.maps_fresh nullHash)
  refine lookupSound_of_keepingRun sampleWalletEnv Unit (.fresh nullHash) _ hfresh.1 hfresh.2
    (hstart.call _ ⟨fun k hk => ?_, fun p hp => ?_⟩)
  · obtain ⟨i, hi⟩ := Option.ne_none_iff_exists'.mp hk
    obtain ⟨td, htd, rfl⟩ := Wallet2.points_images_iff.mp hmaps.images _ _ hi
    have hsame : (importedOutputs sampleWalletEnv 0 walletWithOutput.transfers).map (·.2.keyImage) =
        walletWithOutput.transfers.map (·.keyImage) := by decide +kernel
    rw [hsame]
    exact List.mem_map_of_mem (List.mem_of_getElem? htd)
  · obtain ⟨i, hi⟩ := Option.ne_none_iff_exists'.mp hp
    obtain ⟨td, htd, hpub⟩ := Wallet2.points_publicKeys_iff.mp hmaps.keys _ _ hi
    have hsame : (importedOutputs sampleWalletEnv 0 walletWithOutput.transfers).map
        (fun p => some p.1) = walletWithOutput.transfers.map (·.getPublicKey) := by decide +kernel
    have hmem : some p ∈ walletWithOutput.transfers.map (·.getPublicKey) :=
      hpub ▸ List.mem_map_of_mem (List.mem_of_getElem? htd)
    rw [← hsame] at hmem
    simpa using hmem

/-- The wallet takes over an empty list: the transfer is gone, its entries stay. -/
theorem not_lookupSound_importOutputs_nil :
    ¬ ((WalletCall.importOutputs [] : WalletCall Unit).run sampleWalletEnv
      walletWithOutput).LookupSound := by
  intro h
  have hentry : ((WalletCall.importOutputs [] : WalletCall Unit).run sampleWalletEnv
      walletWithOutput).keyImages (sampleOneTimeKey (numberedHash 7) 0) = some 0 := by
    decide +kernel
  obtain ⟨td, htd, -⟩ := h.keyImages _ _ hentry
  cases htd

end Lethean
