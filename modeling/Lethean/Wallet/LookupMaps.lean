import Lethean.Lib.Positions
import Lethean.Wallet.Imports

/-!
# Lethean.Wallet.LookupMaps

The maps `m_key_images` and `m_pub_keys` of a wallet lead from a key image and from
an output key to the index of a transfer. This module says which calls keep them
right.

`process_new_transaction` always does. The imports do not look at the entries that
are there: they have to cover them. `detach_blockchain` erases by key image and by
key, so that the transfers it drops must not share theirs with others. In a wallet
that only scans and detaches this is always so (`Exact`).
-/

namespace Lethean

open Frame Positions

/-! ### The maps of a wallet -/

namespace Wallet2

def images (w : Wallet2) : List (Option KeyImage) := w.transfers.map fun td => some td.keyImage

def publicKeys (w : Wallet2) : List (Option PublicKey) := w.transfers.map (·.getPublicKey)

def Keyed (w : Wallet2) : Prop := ∀ td ∈ w.transfers, td.getPublicKey ≠ none

/-- Every entry leads to the transfer with its key image or its key, and every known
key image has an entry. -/
structure LookupSound (w : Wallet2) : Prop where
  keyImages : ∀ k i, w.keyImages k = some i → ∃ td, w.transfers[i]? = some td ∧ td.keyImage = k
  pubKeys : ∀ p i, w.pubKeys p = some i →
    ∃ td, w.transfers[i]? = some td ∧ td.getPublicKey = some p
  known : ∀ td ∈ w.transfers, td.keyImageKnown = true → w.keyImages td.keyImage ≠ none

/-- The same over the lists of keys, with the keys themselves. -/
structure Maps (w : Wallet2) : Prop where
  images : Points w.keyImages w.images
  keys : Points w.pubKeys w.publicKeys
  known : ∀ td ∈ w.transfers, td.keyImageKnown = true → w.keyImages td.keyImage ≠ none
  keyed : w.Keyed

theorem points_images_iff {w : Wallet2} : Points w.keyImages w.images ↔
    ∀ k i, w.keyImages k = some i → ∃ td, w.transfers[i]? = some td ∧ td.keyImage = k := by
  simp only [Points, images, List.getElem?_map, Option.map_eq_some_iff, Option.some.injEq]

theorem points_publicKeys_iff {w : Wallet2} : Points w.pubKeys w.publicKeys ↔
    ∀ p i, w.pubKeys p = some i →
      ∃ td, w.transfers[i]? = some td ∧ td.getPublicKey = some p := by
  simp only [Points, publicKeys, List.getElem?_map, Option.map_eq_some_iff]

theorem maps_iff {w : Wallet2} : w.Maps ↔ w.LookupSound ∧ w.Keyed :=
  ⟨fun h => ⟨⟨points_images_iff.mp h.images, points_publicKeys_iff.mp h.keys, h.known⟩, h.keyed⟩,
    fun h => ⟨points_images_iff.mpr h.1.keyImages, points_publicKeys_iff.mpr h.1.pubKeys,
      h.1.known, h.2⟩⟩

theorem maps_fresh (genesis : Hash) : (fresh genesis).Maps :=
  ⟨Points.nil, Points.nil, nofun, nofun⟩

end Wallet2

/-- What of a transfer the maps are about. -/
def TransferDetails.marks (td : TransferDetails) : KeyImage × Option PublicKey × Bool :=
  (td.keyImage, td.getPublicKey, td.keyImageKnown)

theorem TransferDetails.marks_resetSpent (td : TransferDetails) (height : Nat) :
    (td.resetSpent height).marks = td.marks := by
  unfold resetSpent
  split <;> rfl

/-- The maps, and the transfers as far as they are about them, are the same. -/
structure SameMaps (w w' : Wallet2) : Prop where
  keyImages : w'.keyImages = w.keyImages
  pubKeys : w'.pubKeys = w.pubKeys
  marks : w'.transfers.map (·.marks) = w.transfers.map (·.marks)

namespace SameMaps

variable {w w' : Wallet2}

theorem images (h : SameMaps w w') : w'.images = w.images := by
  have hmap := congrArg (List.map fun m => some m.1) h.marks
  rwa [List.map_map, List.map_map] at hmap

theorem publicKeys (h : SameMaps w w') : w'.publicKeys = w.publicKeys := by
  have hmap := congrArg (List.map fun m => m.2.1) h.marks
  rwa [List.map_map, List.map_map] at hmap

theorem mem (h : SameMaps w w') {td : TransferDetails} (htd : td ∈ w'.transfers) :
    ∃ td0 ∈ w.transfers, td0.marks = td.marks := by
  have hmem : td.marks ∈ w'.transfers.map (·.marks) := List.mem_map_of_mem htd
  rw [h.marks] at hmem
  exact List.mem_map.mp hmem

theorem maps (h : SameMaps w w') (hw : w.Maps) : w'.Maps := by
  refine ⟨?_, ?_, fun td htd hknown => ?_, fun td htd => ?_⟩
  · rw [h.keyImages, h.images]
    exact hw.images
  · rw [h.pubKeys, h.publicKeys]
    exact hw.keys
  · obtain ⟨td0, hmem, hmarks⟩ := h.mem htd
    have himage : td0.keyImage = td.keyImage := congrArg (·.1) hmarks
    have hknown0 : td0.keyImageKnown = td.keyImageKnown := congrArg (·.2.2) hmarks
    rw [h.keyImages, ← himage]
    exact hw.known td0 hmem (hknown0.trans hknown)
  · obtain ⟨td0, hmem, hmarks⟩ := h.mem htd
    have hkey : td0.getPublicKey = td.getPublicKey := congrArg (·.2.1) hmarks
    rw [← hkey]
    exact hw.keyed td0 hmem

theorem mapIdx (w : Wallet2) {f : Nat → TransferDetails → TransferDetails}
    (hf : ∀ i td, (f i td).marks = td.marks) :
    SameMaps w (w.withTransfers (w.transfers.mapIdx f)) := by
  refine ⟨rfl, rfl, List.ext_getElem? fun i => ?_⟩
  change ((w.transfers.mapIdx f).map _)[i]? = _
  simp [Function.comp_def, hf]

theorem setSpent (w : Wallet2) (idx height : Nat) : SameMaps w (w.setSpent idx height) := by
  refine ⟨rfl, rfl, List.ext_getElem? fun i => ?_⟩
  rw [List.getElem?_map, List.getElem?_map, Wallet2.getElem?_setSpent, Option.map_map]
  congr 1
  funext td
  by_cases h : idx = i <;> simp [h, TransferDetails.marks, TransferDetails.spentAt,
    TransferDetails.getPublicKey]

theorem setTransfer {idx : Nat} {td td' : TransferDetails} (htd : w.transfers[idx]? = some td)
    (hmarks : td'.marks = td.marks) : SameMaps w (w.setTransfer idx td') := by
  refine ⟨rfl, rfl, List.ext_getElem? fun i => ?_⟩
  change ((w.transfers.set idx td').map _)[i]? = _
  rw [List.getElem?_map, List.getElem?_map, List.getElem?_set]
  split
  · rename_i heq
    subst heq
    rw [if_pos (List.getElem?_eq_some_iff.mp htd).1, htd]
    exact congrArg some hmarks
  · rfl

theorem processUnconfirmed (env : WalletEnv) (txid : Hash) (height : Nat) (w : Wallet2) :
    SameMaps w (processUnconfirmed env txid height w) := by
  unfold Lethean.processUnconfirmed
  split <;> exact ⟨rfl, rfl, rfl⟩

theorem processOutgoing (t : NewTransaction) (spent received : Nat) (w : Wallet2) :
    SameMaps w (processOutgoing t spent received w) := ⟨rfl, rfl, rfl⟩

theorem addPayment (env : WalletEnv) (t : NewTransaction) (received : Nat) (w : Wallet2) :
    SameMaps w (addPayment env t received w) := by
  unfold Lethean.addPayment
  split <;> exact ⟨rfl, rfl, rfl⟩

end SameMaps

/-! ### Scanning -/

section Scan

variable {env : WalletEnv} {t : NewTransaction} {pkIndex : Nat} {txPubKey : PublicKey}
  {found : FoundOut} {totals totals' : WalletEnv.Totals} {w w' : Wallet2}

theorem Wallet2.Maps.pushTransfer (h : w.Maps) {pub : PublicKey} {td : TransferDetails}
    (hpub : td.getPublicKey = some pub) : (w.pushTransfer pub td).Maps := by
  have himages := h.images.push td.keyImage
  have hkeys := h.keys.push pub
  rw [Wallet2.images, List.length_map] at himages
  rw [Wallet2.publicKeys, List.length_map] at hkeys
  refine ⟨?_, ?_, fun td' htd' hknown => ?_,
    forall_mem_concat.mpr ⟨h.keyed, by rw [hpub]; exact Option.some_ne_none _⟩⟩
  · rwa [Wallet2.images, Wallet2.pushTransfer, List.map_append]
  · rwa [Wallet2.publicKeys, Wallet2.pushTransfer, List.map_append, List.map_singleton, hpub]
  · change Function.update w.keyImages td.keyImage (some w.transfers.length) td'.keyImage ≠ none
    rcases List.mem_append.mp htd' with hold | hnew
    · by_cases heq : td'.keyImage = td.keyImage
      · rw [heq, Function.update_self]
        exact Option.some_ne_none _
      · rw [Function.update_of_ne heq]
        exact h.known td' hold hknown
    · rw [List.mem_singleton.mp hnew, Function.update_self]
      exact Option.some_ne_none _

section

variable (hfound : found.Of env t.tx txPubKey) (h : w.Maps)
  (hstep : RecordStep env t pkIndex found totals w totals' w')
include hfound h hstep

/-- Entering an output pushes a transfer with a new key, or leaves the maps as they
are. -/
theorem RecordStep.maps_cases :
    SameMaps w w' ∨
      w.pubKeys found.pub = none ∧
        w' = w.pushTransfer found.pub (newTransfer env t pkIndex found) := by
  cases hstep with
  | new hkey =>
    split
    · exact .inl ⟨rfl, rfl, rfl⟩
    · exact .inr ⟨hkey, rfl⟩
  | ignored _ _ _ => exact .inl ⟨rfl, rfl, rfl⟩
  | replaced hkey htd _ _ _ =>
    left
    split
    · exact ⟨rfl, rfl, rfl⟩
    obtain ⟨td0, htd0, hpub⟩ := Wallet2.points_publicKeys_iff.mp h.keys _ _ hkey
    rw [htd] at htd0
    cases htd0
    refine SameMaps.setTransfer htd ?_
    rw [TransferDetails.marks, publicKey_replacedTransfer hfound, ← hpub]
    rfl

theorem RecordStep.maps : w'.Maps := by
  rcases hstep.maps_cases hfound h with hsame | ⟨-, rfl⟩
  · exact hsame.maps h
  · exact h.pushTransfer (publicKey_newTransfer hfound)

end

theorem callInvariant_maps (env : WalletEnv) (t : NewTransaction) :
    CallInvariant env t Wallet2.Maps where
  unconfirmed h := (SameMaps.processUnconfirmed ..).maps h
  record _ hfound h hstep := hstep.maps hfound h
  spend h _ _ _ _ := (SameMaps.setSpent ..).maps h
  outgoing h := (SameMaps.processOutgoing ..).maps h
  payment h := (SameMaps.addPayment ..).maps h

end Scan

/-! ### Detaching -/

def Wallet2.detached (w : Wallet2) (height : Nat) : List TransferDetails :=
  w.transfers.drop (w.firstFrom height)

def Wallet2.attached (w : Wallet2) (height : Nat) : List TransferDetails :=
  w.transfers.take (w.firstFrom height)

/-- The transfers that are dropped have key images and keys of their own, with
entries. -/
structure Wallet2.Detachable (w : Wallet2) (height : Nat) : Prop where
  images : ((w.detached height).map (·.keyImage)).Nodup
  keys : ((w.detached height).map (·.getPublicKey)).Nodup
  imageEntry : ∀ td ∈ w.detached height, w.keyImages td.keyImage ≠ none
  keyEntry : ∀ td ∈ w.detached height, ∀ pub ∈ td.getPublicKey, w.pubKeys pub ≠ none
  apart : ∀ td ∈ w.attached height, td.keyImageKnown = true →
    ∀ td' ∈ w.detached height, td'.keyImage ≠ td.keyImage

theorem eraseKeyImages_eq {tds : List TransferDetails} {w : Wallet2}
    (hnodup : (tds.map (·.keyImage)).Nodup) (hentry : ∀ td ∈ tds, w.keyImages td.keyImage ≠ none) :
    eraseKeyImages tds w = .ok ⟨⟩
      (w.withKeyImages (without w.keyImages (tds.map fun td => some td.keyImage))) := by
  induction tds generalizing w with
  | nil => simp [eraseKeyImages, Wallet2.withKeyImages]
  | cons td tds ih =>
    rw [List.map_cons, List.nodup_cons] at hnodup
    have hfirst : w.keyImages td.keyImage ≠ none := hentry td (by simp)
    have hrest : ∀ td' ∈ tds,
        (w.withKeyImages (Function.update w.keyImages td.keyImage none)).keyImages td'.keyImage ≠
          none := by
      intro td' htd'
      have hne : td'.keyImage ≠ td.keyImage := by
        intro heq
        exact hnodup.1 (heq ▸ List.mem_map_of_mem htd')
      change Function.update w.keyImages td.keyImage none td'.keyImage ≠ none
      rw [Function.update_of_ne hne]
      exact hentry td' (by simp [htd'])
    rw [eraseKeyImages, get_bind, if_neg hfirst]
    change eraseKeyImages tds (w.withKeyImages _) = _
    rw [ih hnodup.2 hrest, List.map_cons, without_cons]
    rfl

theorem erasePubKeys_eq {tds : List TransferDetails} {w : Wallet2}
    (hkeyed : ∀ td ∈ tds, td.getPublicKey ≠ none) (hnodup : (tds.map (·.getPublicKey)).Nodup)
    (hentry : ∀ td ∈ tds, ∀ pub ∈ td.getPublicKey, w.pubKeys pub ≠ none) :
    erasePubKeys tds w = .ok ⟨⟩ (w.withPubKeys (without w.pubKeys (tds.map (·.getPublicKey)))) := by
  induction tds generalizing w with
  | nil => simp [erasePubKeys, Wallet2.withPubKeys]
  | cons td tds ih =>
    rw [List.map_cons, List.nodup_cons] at hnodup
    obtain ⟨pub, hpub⟩ := Option.ne_none_iff_exists'.mp (hkeyed td (by simp))
    have hfirst : w.pubKeys pub ≠ none := hentry td (by simp) pub hpub
    have hrest : ∀ td' ∈ tds, ∀ pub' ∈ td'.getPublicKey,
        (w.withPubKeys (Function.update w.pubKeys pub none)).pubKeys pub' ≠ none := by
      intro td' htd' pub' hpub'
      have hne : pub' ≠ pub := by
        rintro rfl
        exact hnodup.1 (List.mem_map.mpr ⟨td', htd', hpub'.trans hpub.symm⟩)
      change Function.update w.pubKeys pub none pub' ≠ none
      rw [Function.update_of_ne hne]
      exact hentry td' (by simp [htd']) pub' hpub'
    rw [erasePubKeys, hpub]
    dsimp only
    rw [get_bind, if_neg hfirst]
    change erasePubKeys tds (w.withPubKeys _) = _
    rw [ih (fun td' htd' => hkeyed td' (by simp [htd'])) hnodup.2 hrest, List.map_cons, hpub,
      without_cons]
    rfl

theorem eraseKeyImages_resetSpent (height : Nat) (tds : List TransferDetails) :
    eraseKeyImages (tds.map (·.resetSpent height)) = eraseKeyImages tds := by
  induction tds with
  | nil => rfl
  | cons td tds ih =>
    rw [List.map_cons, eraseKeyImages, eraseKeyImages, ih, td.keyImage_resetSpent]

theorem erasePubKeys_resetSpent (height : Nat) (tds : List TransferDetails) :
    erasePubKeys (tds.map (·.resetSpent height)) = erasePubKeys tds := by
  induction tds with
  | nil => rfl
  | cons td tds ih =>
    rw [List.map_cons, erasePubKeys, erasePubKeys, ih, td.getPublicKey_resetSpent]

def Wallet2.detachTransfers (w : Wallet2) (height : Nat) : Wallet2 :=
  { w with
    transfers := (w.attached height).map (·.resetSpent height)
    keyImages := without w.keyImages ((w.detached height).map fun td => some td.keyImage)
    pubKeys := without w.pubKeys ((w.detached height).map (·.getPublicKey)) }

theorem detachBlockchain_eq {w : Wallet2} {height : Nat} (hkeyed : w.Keyed)
    (h : w.Detachable height) :
    detachBlockchain height w =
      if w.blockchain.length < height then .error .undefined (w.detachTransfers height)
      else .ok ⟨⟩ ((w.detachTransfers height).truncate height) := by
  have hfirst : (w.withTransfers (w.transfers.map (·.resetSpent height))).firstFrom height =
      w.firstFrom height := by
    simp [Wallet2.firstFrom, Wallet2.withTransfers, List.findIdx_map, Function.comp_def,
      TransferDetails.blockHeight_resetSpent]
  have hdrop : (w.withTransfers (w.transfers.map (·.resetSpent height))).transfers.drop
      (w.firstFrom height) = (w.detached height).map (·.resetSpent height) := List.map_drop.symm
  have htake : (w.transfers.map (·.resetSpent height)).take (w.firstFrom height) =
      (w.attached height).map (·.resetSpent height) := List.map_take.symm
  have hkeyed' : ∀ td ∈ w.detached height, td.getPublicKey ≠ none :=
    fun td htd => hkeyed td (List.mem_of_mem_drop htd)
  have himages := eraseKeyImages_eq (w := w.withTransfers (w.transfers.map (·.resetSpent height)))
    h.images h.imageEntry
  unfold detachBlockchain
  rw [modify_bind, get_bind]
  rw [hfirst, hdrop, eraseKeyImages_resetSpent, erasePubKeys_resetSpent, bind_ok himages,
    bind_ok (erasePubKeys_eq hkeyed' h.keys (by exact h.keyEntry)), modify_bind]
  have hstate : ((((w.withTransfers (w.transfers.map (·.resetSpent height))).withKeyImages
      (without w.keyImages ((w.detached height).map fun td => some td.keyImage))).withPubKeys
      (without w.pubKeys ((w.detached height).map (·.getPublicKey)))).withTransfers
      ((w.transfers.map (·.resetSpent height)).take (w.firstFrom height))) =
      w.detachTransfers height := by
    rw [htake]
    rfl
  by_cases hlen : w.blockchain.length < height
  · rw [if_pos hlen, ← hstate]
    exact if_pos (c := w.blockchain.length < height) hlen ▸ rfl
  · rw [if_neg hlen, ← hstate]
    exact if_neg (c := w.blockchain.length < height) hlen ▸ rfl

theorem Wallet2.detachTransfers_images (w : Wallet2) (height : Nat) :
    (w.detachTransfers height).images = w.images.take (w.firstFrom height) := by
  rw [images, images, ← List.map_take, detachTransfers, List.map_map]
  exact List.map_congr_left fun td _ => congrArg some (td.keyImage_resetSpent height)

theorem Wallet2.detachTransfers_publicKeys (w : Wallet2) (height : Nat) :
    (w.detachTransfers height).publicKeys = w.publicKeys.take (w.firstFrom height) := by
  rw [publicKeys, publicKeys, ← List.map_take, detachTransfers, List.map_map]
  exact List.map_congr_left fun td _ => td.getPublicKey_resetSpent height

theorem Wallet2.Maps.detachTransfers {w : Wallet2} {height : Nat} (h : w.Maps)
    (hdetach : w.Detachable height) : (w.detachTransfers height).Maps := by
  have hmarks : ∀ {td}, td ∈ (w.detachTransfers height).transfers →
      ∃ td0 ∈ w.attached height, td0.marks = td.marks := by
    intro td htd
    obtain ⟨td0, htd0, rfl⟩ := List.mem_map.mp htd
    exact ⟨td0, htd0, td0.marks_resetSpent height |>.symm⟩
  refine ⟨?_, ?_, fun td htd hknown => ?_, fun td htd => ?_⟩
  · have himages := h.images.take (w.firstFrom height)
    rw [Wallet2.detachTransfers_images]
    rwa [Wallet2.images, ← List.map_drop] at himages
  · have hkeys := h.keys.take (w.firstFrom height)
    rw [Wallet2.detachTransfers_publicKeys]
    rwa [Wallet2.publicKeys, ← List.map_drop] at hkeys
  · obtain ⟨td0, htd0, heq⟩ := hmarks htd
    have himage : td0.keyImage = td.keyImage := congrArg (·.1) heq
    have hknown0 : td0.keyImageKnown = true := (congrArg (·.2.2) heq).trans hknown
    have hlive : some td0.keyImage ∉ (w.detached height).map fun td => some td.keyImage := by
      intro hmem
      obtain ⟨td', htd', hsame⟩ := List.mem_map.mp hmem
      exact hdetach.apart td0 htd0 hknown0 td' htd' (Option.some.inj hsame)
    change without w.keyImages _ td.keyImage ≠ none
    rw [← himage, without, if_neg hlive]
    exact h.known td0 (List.mem_of_mem_take htd0) hknown0
  · obtain ⟨td0, htd0, heq⟩ := hmarks htd
    have hkey : td0.getPublicKey = td.getPublicKey := congrArg (·.2.1) heq
    rw [← hkey]
    exact h.keyed td0 (List.mem_of_mem_take htd0)

theorem Wallet2.Maps.detachBlockchain {w : Wallet2} {height : Nat} (h : w.Maps)
    (hdetach : w.Detachable height) : (final (Lethean.detachBlockchain height w)).Maps := by
  rw [detachBlockchain_eq h.keyed hdetach]
  split
  · exact h.detachTransfers hdetach
  · have hsame : SameMaps (w.detachTransfers height) ((w.detachTransfers height).truncate height) :=
      ⟨rfl, rfl, rfl⟩
    exact hsame.maps (h.detachTransfers hdetach)

/-! ### Wallets that scan and detach -/

/-- A key image belongs to one output key. -/
def WalletEnv.ImagesDetermineKeys (env : WalletEnv) : Prop :=
  ∀ {txPubKey i pub txPubKey' i' pub' keyImage}, env.ephemeral txPubKey i = some (pub, keyImage) →
    env.ephemeral txPubKey' i' = some (pub', keyImage) → pub = pub'

/-- Every transfer has its own entries, under a key image that is that of its key. -/
structure Wallet2.Exact (env : WalletEnv) (w : Wallet2) : Prop where
  maps : w.Maps
  ownImages : Indexes w.keyImages w.images
  ownKeys : Indexes w.pubKeys w.publicKeys
  derived : ∀ td ∈ w.transfers, ∃ txPubKey i pub,
    env.ephemeral txPubKey i = some (pub, td.keyImage) ∧ td.getPublicKey = some pub

section Exact

variable {env : WalletEnv} {t : NewTransaction} {pkIndex : Nat} {txPubKey : PublicKey}
  {found : FoundOut} {totals totals' : WalletEnv.Totals} {w w' : Wallet2}

theorem Wallet2.exact_fresh (env : WalletEnv) (genesis : Hash) : (fresh genesis).Exact env :=
  ⟨maps_fresh genesis, Indexes.nil, Indexes.nil, nofun⟩

theorem SameMaps.exact (h : SameMaps w w') (hw : w.Exact env) : w'.Exact env := by
  refine ⟨h.maps hw.maps, ?_, ?_, fun td htd => ?_⟩
  · rw [h.keyImages, h.images]
    exact hw.ownImages
  · rw [h.pubKeys, h.publicKeys]
    exact hw.ownKeys
  · obtain ⟨td0, hmem, hmarks⟩ := h.mem htd
    have himage : td0.keyImage = td.keyImage := congrArg (·.1) hmarks
    have hkey : td0.getPublicKey = td.getPublicKey := congrArg (·.2.1) hmarks
    rw [← himage, ← hkey]
    exact hw.derived td0 hmem

theorem Wallet2.Exact.newImage (hdet : env.ImagesDetermineKeys) (h : w.Exact env)
    (hfound : found.Of env t.tx txPubKey) (hkey : w.pubKeys found.pub = none) :
    w.keyImages found.keyImage = none := by
  by_contra hknown
  obtain ⟨i, hi⟩ := Option.ne_none_iff_exists'.mp hknown
  obtain ⟨td, htd, himage⟩ := Wallet2.points_images_iff.mp h.maps.images _ _ hi
  obtain ⟨txPubKey', i', pub, hderived, hpub⟩ := h.derived td (List.mem_of_getElem? htd)
  rw [himage] at hderived
  obtain rfl := hdet hderived hfound.ephemeral
  have hentry : w.publicKeys[i]? = some (some found.pub) := by
    rw [Wallet2.publicKeys, List.getElem?_map, htd, Option.map_some, hpub]
  obtain ⟨k, hk, hown⟩ := h.ownKeys _ _ hentry
  cases hk
  simp [hkey] at hown

theorem RecordStep.exact (hdet : env.ImagesDetermineKeys) (hfound : found.Of env t.tx txPubKey)
    (h : w.Exact env) (hstep : RecordStep env t pkIndex found totals w totals' w') :
    w'.Exact env := by
  rcases hstep.maps_cases hfound h.maps with hsame | ⟨hkey, rfl⟩
  · exact hsame.exact h
  have hpub : (newTransfer env t pkIndex found).getPublicKey = some found.pub :=
    publicKey_newTransfer hfound
  have himages := h.ownImages.push (h.newImage hdet hfound hkey)
  have hkeys := h.ownKeys.push hkey
  rw [Wallet2.images, List.length_map] at himages
  rw [Wallet2.publicKeys, List.length_map] at hkeys
  refine ⟨hstep.maps hfound h.maps, ?_, ?_, forall_mem_concat.mpr
    ⟨h.derived, txPubKey, found.index, found.pub, hfound.ephemeral, hpub⟩⟩
  · rwa [Wallet2.images, Wallet2.pushTransfer, List.map_append]
  · rwa [Wallet2.publicKeys, Wallet2.pushTransfer, List.map_append, List.map_singleton, hpub]

/-- Detaching erases what belongs to the transfers it drops, and nothing else. -/
theorem Wallet2.Exact.detachable (h : w.Exact env) (height : Nat) : w.Detachable height := by
  have hmem : ∀ {td}, td ∈ w.detached height → td ∈ w.transfers := List.mem_of_mem_drop
  have himages : ((w.detached height).map fun td => some td.keyImage).Nodup := by
    have hnodup := h.ownImages.nodup.sublist (List.drop_sublist (w.firstFrom height) _)
    rwa [Wallet2.images, ← List.map_drop] at hnodup
  refine ⟨?_, ?_, fun td htd => ?_, fun td htd pub hpub => ?_, fun td htd _ td' htd' heq => ?_⟩
  · refine List.Nodup.of_map some ?_
    rwa [List.map_map]
  · have hnodup := h.ownKeys.nodup.sublist (List.drop_sublist (w.firstFrom height) _)
    rwa [Wallet2.publicKeys, ← List.map_drop] at hnodup
  · obtain ⟨i, hi⟩ := List.mem_iff_getElem?.mp
      (List.mem_map_of_mem (f := fun td => some td.keyImage) (hmem htd))
    obtain ⟨k, hk, hentry⟩ := h.ownImages _ _ hi
    cases hk
    simp [hentry]
  · obtain ⟨i, hi⟩ := List.mem_iff_getElem?.mp
      (List.mem_map_of_mem (f := (·.getPublicKey)) (hmem htd))
    obtain ⟨k, hk, hentry⟩ := h.ownKeys _ _ hi
    rw [hpub] at hk
    cases hk
    simp [hentry]
  · -- one key image on both sides of the cut would have two positions
    have hsplit : w.images.Nodup := h.ownImages.nodup
    rw [← List.take_append_drop (w.firstFrom height) w.images, List.nodup_append] at hsplit
    refine hsplit.2.2 (some td.keyImage) ?_ (some td'.keyImage) ?_ (congrArg some heq.symm)
    · rw [Wallet2.images, ← List.map_take]
      exact List.mem_map_of_mem htd
    · rw [Wallet2.images, ← List.map_drop]
      exact List.mem_map_of_mem htd'

end Exact

end Lethean
