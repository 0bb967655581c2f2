import Lethean.Wallet.Accounting
import Lethean.Wallet.LookupMaps

/-!
# Lethean.Wallet.Burnt

Outputs with one one-time key have one key image, so that only one of them can be
spent. `process_new_transaction` keeps the larger one, by comparing the amount of the
transfer with `tx.vout[o].amount`. For a RingCT output that is 0, not the amount: a
larger hidden output does not replace what is there.

The outputs of a run are collected next to the wallet. As long as no hidden output is
larger than the transfer that it meets, every unspent transfer is the largest output
with its key.
-/

namespace Lethean

open Frame Positions
open WalletEnv (Totals)

/-! ### The outputs of a call -/

/-- The outputs under the public keys from number `pkIndex` on that are entered: a call
that throws does not get to the others. -/
def scannedOuts (env : WalletEnv) (t : NewTransaction) :
    Nat → List PublicKey → Totals → Wallet2 → List FoundOut
  | _, [], _, _ => []
  | pkIndex, txPubKey :: keys, totals, w =>
    match scanPubKey env t pkIndex txPubKey totals w with
    | .ok totals' w' =>
      env.foundOuts t.tx t.minerTx txPubKey ++ scannedOuts env t (pkIndex + 1) keys totals' w'
    | .error _ _ => []

/-- The outputs that a call enters. Those of the pool are not entered. -/
def processedOuts (env : WalletEnv) (t : NewTransaction) (w : Wallet2) : List FoundOut :=
  if t.pool then [] else scannedOuts env t 0 (scannedKeys t) ⟨0, 0⟩ (afterUnconfirmed env t w)

def amountsOf (outs : List FoundOut) (pub : PublicKey) : Set Nat :=
  {amount | ∃ found ∈ outs, found.pub = pub ∧ found.amount = amount}

/-- Every unspent transfer has the largest amount of the outputs with its key. -/
def Wallet2.KeepsLargest (w : Wallet2) (outs : List FoundOut) : Prop :=
  ∀ td ∈ w.transfers, td.spent = false → ∀ pub ∈ td.getPublicKey,
    IsGreatest (amountsOf outs pub) td.amount

/-- No hidden output of the transaction is larger than the unspent transfer with its
key, or than another output of the transaction with its key. -/
structure HiddenFits (env : WalletEnv) (t : NewTransaction) (w : Wallet2) : Prop where
  recorded : ∀ found ∈ paidOuts env t, found.out.amount = 0 →
    ∀ td ∈ w.transferOf found.pub, td.spent = false → found.amount ≤ td.amount
  together : ∀ found ∈ paidOuts env t, found.out.amount = 0 →
    ∀ other ∈ paidOuts env t, other.pub = found.pub → found.amount ≤ other.amount

theorem mem_amountsOf_concat {outs : List FoundOut} {found : FoundOut} {pub : PublicKey} {n : Nat} :
    n ∈ amountsOf (outs ++ [found]) pub ↔
      n ∈ amountsOf outs pub ∨ found.pub = pub ∧ found.amount = n := by
  simp only [amountsOf, Set.mem_ofPred_eq, List.mem_append, List.mem_singleton, or_and_right,
    exists_or, exists_eq_left]

theorem amountsOf_concat_of_ne {outs : List FoundOut} {found : FoundOut} {pub : PublicKey}
    (h : pub ≠ found.pub) : amountsOf (outs ++ [found]) pub = amountsOf outs pub := by
  ext n
  rw [mem_amountsOf_concat]
  exact or_iff_left fun hfound => h hfound.1.symm

/-! ### The transfer with a key -/

section Steps

variable {env : WalletEnv} {t : NewTransaction} {pkIndex : Nat} {txPubKey : PublicKey}
  {found : FoundOut} {totals totals' : Totals} {w w' : Wallet2} {outs : List FoundOut}
  (hstep : RecordStep env t pkIndex found totals w totals' w')

theorem Wallet2.Maps.transferOf_pushTransfer (h : w.Maps) (pub pub' : PublicKey)
    (td : TransferDetails) :
    (w.pushTransfer pub td).transferOf pub' = if pub' = pub then some td else w.transferOf pub' := by
  by_cases hpub : pub' = pub
  · subst hpub
    simp [Wallet2.transferOf]
  rw [if_neg hpub, Wallet2.transferOf, Wallet2.transferOf, Wallet2.pushTransfer_pubKeys,
    Wallet2.pushTransfer_transfers, Function.update_of_ne hpub]
  cases hidx : w.pubKeys pub' with
  | none => rfl
  | some idx =>
    obtain ⟨td', htd', -⟩ := Wallet2.points_publicKeys_iff.mp h.keys _ _ hidx
    exact List.getElem?_append_left (List.getElem?_eq_some_iff.mp htd').1

theorem Wallet2.Maps.transferOf_setTransfer (h : w.Maps) {idx : Nat} {pub : PublicKey}
    (hidx : w.pubKeys pub = some idx) (pub' : PublicKey) (td : TransferDetails) :
    (w.setTransfer idx td).transferOf pub' =
      if pub' = pub then some td else w.transferOf pub' := by
  have hentry := h.keys _ _ hidx
  have hlt : idx < w.transfers.length := by
    simpa [Wallet2.publicKeys] using (List.getElem?_eq_some_iff.mp hentry).1
  by_cases hpub : pub' = pub
  · subst hpub
    simp [Wallet2.transferOf, Wallet2.setTransfer, hidx, hlt]
  rw [if_neg hpub, Wallet2.transferOf, Wallet2.transferOf, Wallet2.setTransfer]
  cases hidx' : w.pubKeys pub' with
  | none => rfl
  | some idx' =>
    have hne : idx ≠ idx' := by
      rintro rfl
      have hentry' := h.keys _ _ hidx'
      rw [hentry] at hentry'
      cases hentry'
      exact hpub rfl
    exact List.getElem?_set_ne hne

include hstep in
/-- What a step does to the transfer with the key of the output. The others stay. -/
theorem RecordStep.transferOf_cases (hpool : t.pool = false) (h : w.Maps) :
    (∀ pub, pub ≠ found.pub → w'.transferOf pub = w.transferOf pub) ∧
      ((w.pubKeys found.pub = none ∧
          ∃ td, w'.transferOf found.pub = some td ∧ td.amount = found.amountS) ∨
        (w' = w ∧ ∃ td, w.transferOf found.pub = some td ∧
          (td.spent = true ∨ found.out.amount ≤ td.amount)) ∨
        (∃ td td', w.transferOf found.pub = some td ∧ w'.transferOf found.pub = some td' ∧
          td.spent = false ∧ td.amount < found.out.amount ∧ td'.amount = found.amountS)) := by
  cases hstep with
  | new hkey =>
    simp only [hpool, Bool.false_eq_true, if_false, h.transferOf_pushTransfer]
    exact ⟨fun pub hpub => if_neg hpub, .inl ⟨hkey, _, if_pos trivial, rfl⟩⟩
  | ignored hkey htd hkept =>
    exact ⟨fun _ _ => rfl, .inr (.inl ⟨rfl, _, by simpa [Wallet2.transferOf, hkey] using htd, hkept⟩)⟩
  | @replaced idx td hkey htd hunspent hlarger _ =>
    simp only [hpool, Bool.false_eq_true, if_false, h.transferOf_setTransfer hkey]
    exact ⟨fun pub hpub => if_neg hpub, .inr (.inr ⟨td, _,
      by simpa [Wallet2.transferOf, hkey] using htd, if_pos trivial, hunspent, hlarger, rfl⟩)⟩

include hstep in
theorem RecordStep.pubKeys_ne_none (hpool : t.pool = false) :
    w'.pubKeys found.pub ≠ none ∧ ∀ pub, w.pubKeys pub ≠ none → w'.pubKeys pub ≠ none := by
  cases hstep with
  | new hkey =>
    simp only [hpool, Bool.false_eq_true, if_false, Wallet2.pushTransfer_pubKeys]
    refine ⟨by simp, fun pub hpub => ?_⟩
    by_cases heq : pub = found.pub
    · simp [heq]
    · rwa [Function.update_of_ne heq]
  | ignored hkey _ _ => exact ⟨by simp [hkey], fun _ => id⟩
  | replaced hkey _ _ _ _ =>
    simp only [hpool, Bool.false_eq_true, if_false, Wallet2.setTransfer]
    exact ⟨by simp [hkey], fun _ => id⟩

/-! ### Entering outputs -/

/-- The outputs are entered in the wallet: each has a transfer with its key, and an
unspent transfer is the largest of them. -/
structure Entered (w : Wallet2) (outs : List FoundOut) : Prop where
  maps : w.Maps
  ownKeys : Indexes w.pubKeys w.publicKeys
  entered : ∀ found ∈ outs, w.pubKeys found.pub ≠ none
  largest : ∀ pub, ∀ td ∈ w.transferOf pub, td.spent = false →
    IsGreatest (amountsOf outs pub) td.amount

/-- No hidden output of a list is larger than the unspent transfer with its key. -/
def Wallet2.Fits (w : Wallet2) (outs : List FoundOut) : Prop :=
  ∀ found ∈ outs, found.out.amount = 0 →
    ∀ td ∈ w.transferOf found.pub, td.spent = false → found.amount ≤ td.amount

theorem Entered.keepsLargest (h : Entered w outs) : w.KeepsLargest outs := by
  intro td htd hunspent pub hpub
  obtain ⟨i, hi⟩ := List.mem_iff_getElem?.mp htd
  have hentry : w.publicKeys[i]? = some (some pub) := by
    rw [Wallet2.publicKeys, List.getElem?_map, hi, Option.map_some, hpub]
  obtain ⟨k, hk, hidx⟩ := h.ownKeys _ _ hentry
  cases hk
  refine h.largest pub td ?_ hunspent
  simpa [Wallet2.transferOf, hidx] using hi

include hstep in
theorem RecordStep.ownKeys (hfound : found.Of env t.tx txPubKey) (h : w.Maps)
    (hown : Indexes w.pubKeys w.publicKeys) : Indexes w'.pubKeys w'.publicKeys := by
  rcases hstep.maps_cases hfound h with hsame | ⟨hkey, rfl⟩
  · rwa [hsame.pubKeys, hsame.publicKeys]
  · have hpush := hown.push hkey
    rw [Wallet2.publicKeys, List.length_map] at hpush
    rw [Wallet2.publicKeys, Wallet2.pushTransfer, List.map_append, List.map_singleton,
      publicKey_newTransfer hfound]
    exact hpush

include hstep in
theorem RecordStep.entered (hpool : t.pool = false) (hfound : found.Of env t.tx txPubKey)
    (hfits : w.Fits [found]) (h : Entered w outs) :
    Entered w' (outs ++ [found]) := by
  obtain ⟨hown, hothers⟩ := hstep.pubKeys_ne_none hpool
  refine ⟨hstep.maps hfound h.maps, hstep.ownKeys hfound h.maps h.ownKeys,
    forall_mem_concat.mpr ⟨fun f hf => hothers _ (h.entered f hf), hown⟩,
    fun pub td htd hunspent => ?_⟩
  obtain ⟨hstay, hcases⟩ := hstep.transferOf_cases hpool h.maps
  by_cases hpub : pub = found.pub
  · subst hpub
    rcases hcases with ⟨hnone, td', htd', hamount⟩ | ⟨rfl, td', htd', hkept⟩ |
      ⟨td0, td', htd0, htd', hunspent0, hlarger, hamount⟩
    · -- the first output with this key
      obtain rfl : td' = td := Option.some.inj (htd'.symm.trans htd)
      rw [hamount, hfound.amountS]
      refine ⟨mem_amountsOf_concat.mpr (.inr ⟨rfl, rfl⟩), fun n hn => ?_⟩
      rcases mem_amountsOf_concat.mp hn with ⟨f, hf, hsame, -⟩ | ⟨-, rfl⟩
      · exact absurd (hsame ▸ hnone) (h.entered f hf)
      · exact le_rfl
    · obtain rfl : td' = td := Option.some.inj (htd'.symm.trans htd)
      have hold := h.largest _ _ htd' hunspent
      have hle : found.amount ≤ td'.amount := by
        by_cases hhidden : found.out.amount = 0
        · exact hfits found (by simp) hhidden td' htd' hunspent
        · rw [hfound.amount hhidden]
          exact hkept.resolve_left (by simp [hunspent])
      refine ⟨mem_amountsOf_concat.mpr (.inl hold.1), fun n hn => ?_⟩
      rcases mem_amountsOf_concat.mp hn with hmem | ⟨-, rfl⟩
      · exact hold.2 hmem
      · exact hle
    · -- a clear amount that is larger than all before
      obtain rfl : td' = td := Option.some.inj (htd'.symm.trans htd)
      have hold := h.largest _ _ htd0 hunspent0
      have hclear : found.amount = found.out.amount := hfound.amount (by omega)
      rw [hamount, hfound.amountS]
      refine ⟨mem_amountsOf_concat.mpr (.inr ⟨rfl, rfl⟩), fun n hn => ?_⟩
      rcases mem_amountsOf_concat.mp hn with hmem | ⟨-, rfl⟩
      · have := hold.2 hmem
        omega
      · exact le_rfl
  · rw [amountsOf_concat_of_ne hpub]
    rw [hstay pub hpub] at htd
    exact h.largest pub td htd hunspent

include hstep in
theorem RecordStep.fits (hpool : t.pool = false) (hfound : found.Of env t.tx txPubKey)
    (h : w.Maps) (hle : ∀ f ∈ outs, f.out.amount = 0 → found.pub = f.pub → f.amount ≤ found.amount)
    (hfits : w.Fits outs) : w'.Fits outs := by
  intro f hf hhidden td htd hunspent
  obtain ⟨hstay, hcases⟩ := hstep.transferOf_cases hpool h
  by_cases hpub : f.pub = found.pub
  · rw [hpub] at htd
    rcases hcases with ⟨-, td', htd', hamount⟩ | ⟨rfl, -⟩ | ⟨-, td', -, htd', -, -, hamount⟩
    · obtain rfl : td' = td := Option.some.inj (htd'.symm.trans htd)
      rw [hamount, hfound.amountS]
      exact hle f hf hhidden hpub.symm
    · exact hfits f hf hhidden td (hpub ▸ htd) hunspent
    · obtain rfl : td' = td := Option.some.inj (htd'.symm.trans htd)
      rw [hamount, hfound.amountS]
      exact hle f hf hhidden hpub.symm
  · rw [hstay f.pub hpub] at htd
    exact hfits f hf hhidden td htd hunspent

include hstep in
theorem RecordStep.got_ge (hfound : found.Of env t.tx txPubKey) {n : Nat}
    (hgot : found.amount + n ≤ totals.got) : n ≤ totals'.got := by
  cases hstep with
  | new _ => exact Nat.le_trans (Nat.le_add_left _ _) hgot
  | ignored _ _ _ => exact Nat.le_trans (Nat.le_add_left _ _) hgot
  | replaced _ _ _ hlarger _ =>
    have hclear := hfound.amount (by omega)
    dsimp only
    omega

section

variable (hpool : t.pool = false) {all : List FoundOut}
  (htogether : ∀ f ∈ all, f.out.amount = 0 → ∀ other ∈ all, other.pub = f.pub →
    f.amount ≤ other.amount)
include hpool htogether

/-- The loop over `outs` enters all of them. -/
theorem recordOuts_entered {new : List FoundOut}
    (hnew : ∀ f ∈ new, f ∈ all ∧ f.Of env t.tx txPubKey) {totals : Totals} {w : Wallet2}
    {outs : List FoundOut} (hgot : FoundOut.total new ≤ totals.got) (h : Entered w outs)
    (hfits : w.Fits all) : ∃ totals' w', recordOuts env t pkIndex new totals w = .ok totals' w' ∧
      Entered w' (outs ++ new) ∧ w'.Fits all := by
  induction new generalizing totals w outs with
  | nil =>
    exact ⟨totals, w, rfl, by rwa [List.append_nil], hfits⟩
  | cons found new ih =>
    obtain ⟨hmem, hfound⟩ := hnew found (by simp)
    rw [FoundOut.total_cons] at hgot
    rw [recordOuts_cons]
    rcases recordOut_cases hfound totals w with ⟨totals', w', hok, hstep⟩ | ⟨e, -, hbad⟩
    · rw [bind_ok hok]
      have hfits' := hstep.fits hpool hfound h.maps
        (fun f hf hhidden => htogether f hf hhidden found hmem) hfits
      have hentered := hstep.entered hpool hfound
        (fun f hf => hfits f (List.mem_singleton.mp hf ▸ hmem)) h
      obtain ⟨totals'', w'', hrest, hend, hfitsEnd⟩ := ih (fun f hf => hnew f (by simp [hf]))
        (hstep.got_ge hfound hgot) hentered hfits'
      exact ⟨totals'', w'', hrest, by simpa using hend, hfitsEnd⟩
    · -- the count covers the output, and the index is in range
      rcases hbad with ⟨idx, hidx, hnone⟩ | hlt
      · obtain ⟨td, htd, -⟩ := Wallet2.points_publicKeys_iff.mp h.maps.keys _ _ hidx
        simp [htd] at hnone
      · have hclear := hfound.amount (by omega)
        omega

/-- A turn of the loop over the public keys enters all that is found, or throws and
enters nothing. -/
theorem scanPubKey_entered
    (hall : ∀ f ∈ env.foundOuts t.tx t.minerTx txPubKey, f ∈ all) (h : Entered w outs)
    (hfits : w.Fits all) :
    (∃ e, scanPubKey env t pkIndex txPubKey totals w = .error e w) ∨
    (∃ totals' w', scanPubKey env t pkIndex txPubKey totals w = .ok totals' w' ∧
      Entered w' (outs ++ env.foundOuts t.tx t.minerTx txPubKey) ∧ w'.Fits all) := by
  rcases scanPubKey_cases txPubKey totals w with ⟨e, herror⟩ | ⟨got, hscan, hrecord⟩
  · exact .inl ⟨_, herror⟩
  obtain ⟨-, hgot, -⟩ := WalletEnv.scanOuts_ok hscan
  rw [hrecord]
  refine .inr (recordOuts_entered hpool htogether
    (fun f hf => ⟨hall f hf, WalletEnv.of_mem_foundOuts hf⟩) ?_ h hfits)
  change _ ≤ got
  omega

theorem scanPubKeys_entered {keys : List PublicKey} {pkIndex : Nat} {totals : Totals}
    {w : Wallet2} {outs : List FoundOut}
    (hall : ∀ txPubKey ∈ keys, ∀ f ∈ env.foundOuts t.tx t.minerTx txPubKey, f ∈ all)
    (h : Entered w outs) (hfits : w.Fits all) :
    Entered (final (scanPubKeys env t pkIndex keys totals w))
      (outs ++ scannedOuts env t pkIndex keys totals w) := by
  induction keys generalizing pkIndex totals w outs with
  | nil =>
    rwa [scannedOuts, List.append_nil]
  | cons txPubKey keys ih =>
    rw [scanPubKeys_cons, scannedOuts]
    have hturn : (∃ e, scanPubKey env t pkIndex txPubKey totals w = .error e w) ∨ _ :=
      scanPubKey_entered hpool htogether (hall txPubKey (by simp)) h hfits
    rcases hturn with ⟨e, herror⟩ | ⟨totals', w', hok, hentered, hfits'⟩
    · rw [bind_error herror, herror]
      rwa [List.append_nil]
    · rw [bind_ok hok, hok]
      rw [← List.append_assoc]
      exact ih (fun key hkey => hall key (by simp [hkey])) hentered hfits'

end

/-! ### Whole calls and runs -/

theorem Entered.congr (h : Entered w outs) (hsame : SameMaps w w')
    (htransfers : w'.transfers = w.transfers) : Entered w' outs := by
  have hof : w'.transferOf = w.transferOf := by
    funext pub
    rw [Wallet2.transferOf, Wallet2.transferOf, hsame.pubKeys, htransfers]
  refine ⟨hsame.maps h.maps, ?_, ?_, ?_⟩
  · rw [hsame.pubKeys, hsame.publicKeys]
    exact h.ownKeys
  · rw [hsame.pubKeys]
    exact h.entered
  · rw [hof]
    exact h.largest

theorem Entered.setSpent (h : Entered w outs) (idx height : Nat) :
    Entered (w.setSpent idx height) outs := by
  have hsame := SameMaps.setSpent w idx height
  refine ⟨hsame.maps h.maps, ?_, h.entered, fun pub td htd hunspent => ?_⟩
  · rw [hsame.pubKeys, hsame.publicKeys]
    exact h.ownKeys
  refine h.largest pub td ?_ hunspent
  obtain ⟨i, hi, htd⟩ := Option.bind_eq_some_iff.mp htd
  rw [Wallet2.getElem?_setSpent, Option.map_eq_some_iff] at htd
  obtain ⟨td0, htd0, rfl⟩ := htd
  -- a transfer that is unspent now is not the one that was spent
  split at hunspent
  · cases hunspent
  · rename_i hne
    rw [if_neg hne]
    exact Option.bind_eq_some_iff.mpr ⟨i, hi, htd0⟩

theorem Entered.processUnconfirmed (h : Entered w outs) (txid : Hash) (height : Nat) :
    Entered (processUnconfirmed env txid height w) outs := by
  refine h.congr (SameMaps.processUnconfirmed ..) ?_
  unfold Lethean.processUnconfirmed
  split <;> rfl

theorem Entered.addPayment (h : Entered w outs) (received : Nat) :
    Entered (addPayment env t received w) outs := by
  refine h.congr (SameMaps.addPayment ..) ?_
  unfold Lethean.addPayment
  split <;> rfl

theorem settleInvariant_entered (env : WalletEnv) (t : NewTransaction) (outs : List FoundOut) :
    SettleInvariant env t (Entered · outs) where
  spend h _ _ _ _ := h.setSpent _ _
  outgoing h := h.congr (SameMaps.processOutgoing ..) rfl
  payment h := h.addPayment _

theorem callInvariant_entered (hpool : t.pool = true) (outs : List FoundOut) :
    CallInvariant env t (Entered · outs) where
  toSettleInvariant := settleInvariant_entered env t outs
  unconfirmed h := h.processUnconfirmed _ _
  record _ _ h hstep := by
    cases hstep with
    | new _ => rwa [if_pos hpool]
    | ignored _ _ _ => exact h
    | replaced _ _ _ _ _ => rwa [if_pos hpool]

theorem processTx_entered (hfits : t.pool = false → HiddenFits env t w) (h : Entered w outs) :
    Entered (final (processNewTransaction env t w)) (outs ++ processedOuts env t w) := by
  cases hpool : t.pool with
  | true =>
    rw [processedOuts, if_pos hpool, List.append_nil]
    exact (callInvariant_entered hpool outs).processNewTransaction h
  | false =>
    have hpoolFalse : ¬ t.pool = true := by simp [hpool]
    have hfits := hfits hpool
    have hstart : Entered (afterUnconfirmed env t w) outs := by
      unfold afterUnconfirmed
      split
      · exact h
      · exact h.processUnconfirmed _ _
    have hof : (afterUnconfirmed env t w).transferOf = w.transferOf := by
      unfold afterUnconfirmed processUnconfirmed
      split
      · rfl
      · split <;> rfl
    have hfitsStart : (afterUnconfirmed env t w).Fits (paidOuts env t) := by
      unfold Wallet2.Fits
      rw [hof]
      exact hfits.recorded
    rw [processTx_eq, processedOuts, if_neg hpoolFalse]
    split
    · rename_i hskip
      have hkeys : scannedKeys t = [] := by rw [scannedKeys, if_neg hskip.1, hskip.2]
      rwa [hkeys, scannedOuts, List.append_nil]
    · have hscanned : Entered (final (scanPubKeys env t 0 (scannedKeys t) ⟨0, 0⟩
          (afterUnconfirmed env t w))) _ :=
        scanPubKeys_entered hpool hfits.together
          (fun key hkey f hf => List.mem_flatMap.mpr ⟨key, hkey, hf⟩) hstart hfitsStart
      cases hscan : scanPubKeys env t 0 (scannedKeys t) ⟨0, 0⟩ (afterUnconfirmed env t w) with
      | error e w1 =>
        rw [bind_error hscan]
        rwa [hscan] at hscanned
      | ok totals w1 =>
        rw [bind_ok hscan]
        rw [hscan] at hscanned
        exact (settleInvariant_entered env t _).settleTransaction totals hscanned

end Steps

/-- `w` is reached from `w₀` by processing transactions, each of them under a condition,
and `outs` are the outputs that have been entered on the way. -/
inductive ProcessedRun (env : WalletEnv) (cond : NewTransaction → Wallet2 → Prop) (w₀ : Wallet2) :
    Wallet2 → List FoundOut → Prop
  | start : ProcessedRun env cond w₀ w₀ []
  | call {w : Wallet2} {outs : List FoundOut} (t : NewTransaction) :
      ProcessedRun env cond w₀ w outs → cond t w →
      ProcessedRun env cond w₀ (final (processNewTransaction env t w))
        (outs ++ processedOuts env t w)

theorem Entered.fresh (genesis : Hash) : Entered (.fresh genesis) [] :=
  ⟨Wallet2.maps_fresh genesis, Indexes.nil, nofun, nofun⟩

theorem ProcessedRun.entered {env : WalletEnv} {w0 w : Wallet2} {outs : List FoundOut}
    (h : ProcessedRun env (fun t w => t.pool = false → HiddenFits env t w) w0 w outs)
    (h0 : Entered w0 []) : Entered w outs := by
  induction h with
  | start => exact h0
  | call t _ hfits ih => exact processTx_entered hfits ih

/-- Every unspent transfer is the largest output with its key, in every state of a run
in which the hidden outputs fit. -/
theorem keepsLargest_of_hiddenFits (env : WalletEnv) (genesis : Hash) (w : Wallet2)
    (outs : List FoundOut)
    (h : ProcessedRun env (fun t w => t.pool = false → HiddenFits env t w) (.fresh genesis) w
      outs) :
    w.KeepsLargest outs :=
  (h.entered (.fresh genesis)).keepsLargest

def hiddenReceipt (amount : UInt8) : NewTransaction :=
  sampleReceipt (numberedHash 1) [numberedHash 7]
    [⟨0, .toKey (sampleOneTimeKey (numberedHash 7) 0)⟩,
      ⟨0, .toKey (sampleOneTimeKey (numberedHash 7) 1)⟩] [] [amount, 200] 3

/-- A hidden output with the key of the first of them. The second is spent, so that
more is spent than found. -/
def hiddenDuplicate (amount : UInt8) : NewTransaction :=
  sampleReceipt (numberedHash 2) [numberedHash 7]
    [⟨0, .toKey (sampleOneTimeKey (numberedHash 7) 0)⟩]
    [.toKey 0 [] (sampleOneTimeKey (numberedHash 7) 1)] [amount] 4

def hiddenWallet (amount : UInt8) : Wallet2 :=
  final (processNewTransaction sampleWalletEnv (hiddenReceipt amount) (.fresh nullHash))

theorem keepsLargest_smaller_duplicate :
    (final (processNewTransaction sampleWalletEnv (hiddenDuplicate 1)
      (hiddenWallet 100))).KeepsLargest
      (processedOuts sampleWalletEnv (hiddenReceipt 100) (.fresh nullHash) ++
        processedOuts sampleWalletEnv (hiddenDuplicate 1) (hiddenWallet 100)) :=
  keepsLargest_of_hiddenFits sampleWalletEnv nullHash _ _
    (.call (hiddenDuplicate 1) (.call (hiddenReceipt 100) .start
      fun _ => ⟨by decide +kernel, by decide +kernel⟩)
      fun _ => ⟨by decide +kernel, by decide +kernel⟩)

/-- The duplicate is larger, and hidden: 1 is kept. Both calls return. -/
theorem not_keepsLargest_hidden_duplicate :
    ∃ w outs, ProcessedRun sampleWalletEnv
        (fun t w => thrown (processNewTransaction sampleWalletEnv t w) = none)
        (.fresh nullHash) w outs ∧
      ¬ w.KeepsLargest outs := by
  refine ⟨_, _, .call (hiddenDuplicate 100) (.call (hiddenReceipt 1) .start (by decide +kernel))
    (by decide +kernel), fun h => ?_⟩
  obtain ⟨td, htd, hunspent, hpub, hamount⟩ :
      ∃ td ∈ (final (processNewTransaction sampleWalletEnv (hiddenDuplicate 100)
        (hiddenWallet 1))).transfers, td.spent = false ∧
          td.getPublicKey = some (sampleOneTimeKey (numberedHash 7) 0) ∧ td.amount = 1 := by
    decide +kernel
  have hlarger : ∃ found ∈ processedOuts sampleWalletEnv (hiddenDuplicate 100) (hiddenWallet 1),
      found.pub = sampleOneTimeKey (numberedHash 7) 0 ∧ found.amount = 100 := by decide +kernel
  obtain ⟨found, hmem, hkey⟩ := hlarger
  have hle : 100 ≤ td.amount :=
    (h td htd hunspent _ hpub).2 ⟨found, List.mem_append.mpr (.inr hmem), hkey⟩
  omega

end Lethean
