import Lethean.Wallet.LookupMaps

/-!
# Lethean.Wallet.Undo

`undo h` is what `detach_blockchain(h)` makes of a wallet. It takes back every single
step that a transaction at height `h` or above does to a wallet: a new transfer, a
spend of a transfer that was not spent below `h`, an outgoing entry and a payment.
-/

namespace Lethean

open Frame Positions

/-- The wallet after `detach_blockchain`. -/
def Wallet2.undo (w : Wallet2) (height : Nat) : Wallet2 :=
  (w.detachTransfers height).truncate height

theorem Wallet2.Exact.detachBlockchain_ok {env : WalletEnv} {w : Wallet2} (h : w.Exact env)
    {height : Nat} (hlen : height ≤ w.blockchain.length) :
    Lethean.detachBlockchain height w = .ok ⟨⟩ (w.undo height) := by
  rw [detachBlockchain_eq h.maps.keyed (h.detachable height), if_neg (Nat.not_lt.mpr hlen)]
  rfl

namespace Wallet2

variable {w w' : Wallet2} {height : Nat}

/-! ### What is below the cut -/

theorem firstFrom_congr (h : w'.transfers.map (·.blockHeight) = w.transfers.map (·.blockHeight))
    (height : Nat) : w'.firstFrom height = w.firstFrom height := by
  have hfind : ∀ w : Wallet2, w.firstFrom height =
      (w.transfers.map (·.blockHeight)).findIdx fun n => height ≤ n := by
    intro w
    rw [List.findIdx_map]
    rfl
  rw [hfind, hfind, h]

theorem firstFrom_le : w.firstFrom height ≤ w.transfers.length := List.findIdx_le_length

theorem firstFrom_eq_length (h : ∀ td ∈ w.transfers, td.blockHeight < height) :
    w.firstFrom height = w.transfers.length := by
  rw [firstFrom, List.findIdx_eq_length]
  intro td htd
  have := h td htd
  simpa using this

theorem firstFrom_pushTransfer {pub : PublicKey} {td : TransferDetails}
    (h : height ≤ td.blockHeight) :
    (w.pushTransfer pub td).firstFrom height = w.firstFrom height := by
  unfold firstFrom
  rw [pushTransfer_transfers, List.findIdx_append]
  split
  · rfl
  rename_i hnone
  have hlen : w.transfers.findIdx (fun td => decide (height ≤ td.blockHeight)) =
      w.transfers.length := by
    rw [List.findIdx_eq_length]
    intro td' htd'
    by_contra hcontra
    exact hnone (List.findIdx_lt_length_of_exists ⟨td', htd', by simpa using hcontra⟩)
  simp [h, hlen]

/-! ### Steps that are taken back -/

theorem undo_pushTransfer {pub : PublicKey} {td : TransferDetails}
    (hheight : height ≤ td.blockHeight) (hpub : td.getPublicKey = some pub)
    (himage : w.keyImages td.keyImage = none) (hkey : w.pubKeys pub = none) :
    (w.pushTransfer pub td).undo height = w.undo height := by
  have hfirst : (w.pushTransfer pub td).firstFrom height = w.firstFrom height :=
    firstFrom_pushTransfer hheight
  have hattached : (w.pushTransfer pub td).attached height = w.attached height := by
    rw [attached, hfirst, pushTransfer_transfers, List.take_append_of_le_length firstFrom_le]
    rfl
  have hdetached : (w.pushTransfer pub td).detached height = w.detached height ++ [td] := by
    rw [detached, hfirst, pushTransfer_transfers, List.drop_append_of_le_length firstFrom_le]
    rfl
  ext1
  all_goals simp only [undo, truncate, detachTransfers, hattached, hdetached]
  · rfl
  · simp only [pushTransfer_keyImages, List.map_append, List.map_singleton]
    exact without_update_concat himage _ _
  · simp only [pushTransfer_pubKeys, List.map_append, List.map_singleton, hpub]
    exact without_update_concat hkey _ _
  all_goals rfl

/-- A spend, if detaching takes it back in the transfers below the cut. -/
theorem undo_setSpent {idx n : Nat} {td : TransferDetails} (htd : w.transfers[idx]? = some td)
    (hreset : td ∈ w.attached height →
      (td.spentAt n).resetSpent height = td.resetSpent height) :
    (w.setSpent idx n).undo height = w.undo height := by
  have hsame := SameMaps.setSpent w idx n
  have hfirst : (w.setSpent idx n).firstFrom height = w.firstFrom height := by
    refine firstFrom_congr (List.ext_getElem? fun i => ?_) height
    rw [List.getElem?_map, List.getElem?_map, getElem?_setSpent, Option.map_map]
    congr 1
    funext td
    by_cases h : idx = i <;> simp [h, TransferDetails.spentAt]
  have hattached : ((w.setSpent idx n).attached height).map (·.resetSpent height) =
      (w.attached height).map (·.resetSpent height) := by
    refine List.ext_getElem? fun i => ?_
    rw [attached, attached, hfirst, List.getElem?_map, List.getElem?_map, List.getElem?_take,
      List.getElem?_take]
    split
    · rename_i hi
      rw [getElem?_setSpent]
      by_cases h : idx = i
      · subst h
        rw [htd]
        have hmem : td ∈ w.attached height :=
          List.mem_of_getElem? ((List.getElem?_take_of_lt hi).trans htd)
        simp [hreset hmem]
      · simp [h]
    · rfl
  have himages : ((w.setSpent idx n).detached height).map (fun td => some td.keyImage) =
      (w.detached height).map fun td => some td.keyImage := by
    rw [detached, detached, hfirst, List.map_drop, List.map_drop]
    exact congrArg (List.drop _) hsame.images
  have hkeys : ((w.setSpent idx n).detached height).map (·.getPublicKey) =
      (w.detached height).map (·.getPublicKey) := by
    rw [detached, detached, hfirst, List.map_drop, List.map_drop]
    exact congrArg (List.drop _) hsame.publicKeys
  ext1
  all_goals simp only [undo, truncate, detachTransfers, hattached, himages, hkeys]
  all_goals rfl

/-- An outgoing entry, if there was none from below the cut. -/
theorem undo_processOutgoing {t : NewTransaction} {spent received : Nat}
    (hheight : height ≤ t.height) (hnone : (w.undo height).confirmedTxs t.txid = none) :
    (processOutgoing t spent received w).undo height = w.undo height := by
  ext1
  case confirmedTxs =>
    funext txid
    by_cases htxid : txid = t.txid
    · subst htxid
      rw [hnone]
      simp [undo, truncate, detachTransfers, processOutgoing, hheight]
    · simp [undo, truncate, detachTransfers, processOutgoing, htxid]
  all_goals rfl

theorem undo_addPayment {env : WalletEnv} {t : NewTransaction} {received : Nat}
    (hpool : t.pool = false) (hheight : height ≤ t.height) :
    (addPayment env t received w).undo height = w.undo height := by
  ext1
  case payments =>
    simp [undo, truncate, detachTransfers, addPayment, hpool, hheight]
  all_goals simp only [addPayment, hpool, Bool.false_eq_true, if_false]
  all_goals rfl

theorem undo_pushBlock (id : Hash) (hlen : height ≤ w.blockchain.length) :
    (w.pushBlock id).undo height = w.undo height := by
  ext1
  case blockchain =>
    change (w.blockchain ++ [id]).take height = w.blockchain.take height
    rw [List.take_append_of_le_length hlen]
  case localBcHeight =>
    change subU64 (u64 (w.localBcHeight + 1)) (u64 ((w.blockchain ++ [id]).length - height)) =
      subU64 w.localBcHeight (u64 (w.blockchain.length - height))
    rw [List.length_append, List.length_singleton]
    unfold subU64 u64
    omega
  all_goals rfl

/-! ### A wallet that is below the cut -/

/-- Everything the wallet has noted is below a height. -/
structure Below (w : Wallet2) (height : Nat) : Prop where
  transfers : ∀ td ∈ w.transfers, td.blockHeight < height
  spends : ∀ td ∈ w.transfers, td.spent = true → td.spentHeight < height
  payments : ∀ p ∈ w.payments, p.2.blockHeight < height
  confirmedTxs : ∀ txid, ∀ c ∈ w.confirmedTxs txid, c.blockHeight < height
  localBcHeight : w.localBcHeight < 2 ^ 64

theorem Below.undo (h : w.Below height) (hlen : w.blockchain.length = height) :
    w.undo height = w := by
  have hfirst := firstFrom_eq_length h.transfers
  have hattached : (w.attached height).map (·.resetSpent height) = w.transfers := by
    rw [attached, hfirst, List.take_length]
    refine (List.map_congr_left fun td htd => ?_).trans (List.map_id _)
    have hnot : ¬ (td.spent = true ∧ height ≤ td.spentHeight) := by
      rintro ⟨hspent, hle⟩
      have := h.spends td htd hspent
      omega
    exact if_neg hnot
  have hdetached : w.detached height = [] := by
    rw [detached, hfirst, List.drop_length]
  ext1
  case blockchain => exact List.take_of_length_le (Nat.le_of_eq hlen)
  case transfers => exact hattached
  case payments =>
    refine List.filter_eq_self.mpr fun p hp => ?_
    have := h.payments p hp
    simpa using this
  case confirmedTxs =>
    funext txid
    change (w.confirmedTxs txid).filter _ = _
    cases hentry : w.confirmedTxs txid with
    | none => rfl
    | some c =>
      have := h.confirmedTxs txid c hentry
      simpa using this
  case localBcHeight =>
    change subU64 w.localBcHeight (u64 (w.blockchain.length - height)) = _
    have := h.localBcHeight
    rw [hlen, Nat.sub_self]
    unfold subU64 u64
    omega
  all_goals simp [Wallet2.undo, truncate, detachTransfers, hdetached]

end Wallet2

end Lethean
