import Lethean.Wallet.Undo

/-!
# Lethean.Wallet.FreshScan

A wallet that follows a chain, detaches at a split and follows the other branch is
the wallet that follows the other branch from the start.

Detaching works with heights and index suffixes only. It takes back what the branch
has done because in a chain no key image is spent twice and no transaction is there
twice, and because no two outputs share a one-time key: then no step above the split
overwrites anything from below (`undoes`).
-/

namespace Lethean

open Frame Positions

/-! ### The transactions of a chain -/

def blockTxs (height ts : Nat) :
    List (Option Transaction) → List Hash → List (List Nat) → List NewTransaction
  | [], _, _ => []
  | none :: txs, txHashes, oIndices => blockTxs height ts txs txHashes.tail oIndices.tail
  | some tx :: txs, txHashes, oIndices =>
    { txid := txHashes.headD nullHash, tx, oIndices := oIndices.headD [], height, ts
      minerTx := false, pool := false } :: blockTxs height ts txs txHashes.tail oIndices.tail

def BlockEntry.transactions (entry : BlockEntry) (height : Nat) : List NewTransaction :=
  { txid := entry.minerTxid, tx := entry.block.minerTx, oIndices := entry.oIndices.headD []
    height, ts := entry.block.timestamp, minerTx := true, pool := false } ::
    blockTxs height entry.block.timestamp entry.txs entry.block.txHashes entry.oIndices.tail

def chainTxs : Nat → List BlockEntry → List NewTransaction
  | _, [] => []
  | height, entry :: entries => entry.transactions height ++ chainTxs (height + 1) entries

def NewTransaction.inputImages (t : NewTransaction) : List KeyImage :=
  t.tx.vin.filterMap TxIn.keyImage?

/-- Two transactions of one chain: they pay different one-time keys, spend different
key images and have different ids. -/
structure Apart (env : WalletEnv) (t t' : NewTransaction) : Prop where
  keys : ∀ found ∈ paidOuts env t, ∀ found' ∈ paidOuts env t', found.pub ≠ found'.pub
  images : ∀ k ∈ t.inputImages, k ∉ t'.inputImages
  ids : t.txid ≠ t'.txid

/-- No two outputs paid to the wallet share a one-time key, no key image is spent twice
and no transaction is there twice. -/
structure ValidChain (env : WalletEnv) (ts : List NewTransaction) : Prop where
  within : ∀ t ∈ ts, ∀ found ∈ paidOuts env t, ∀ found' ∈ paidOuts env t,
    found.pub = found'.pub → found.index = found'.index
  apart : ts.Pairwise (Apart env)

-- a bounded quantifier over blobs would be decided by going through all blobs
instance (env : WalletEnv) (t t' : NewTransaction) : Decidable (Apart env t t') :=
  decidable_of_iff
    ((∀ found ∈ paidOuts env t, ∀ found' ∈ paidOuts env t', found.pub ≠ found'.pub) ∧
      (t.inputImages.all fun k => k ∉ t'.inputImages) = true ∧ t.txid ≠ t'.txid)
    ⟨fun h => ⟨h.1, by simpa using h.2.1, h.2.2⟩, fun h => ⟨h.keys, by simpa using h.images, h.ids⟩⟩

variable {env : WalletEnv} {height startHeight : Nat} {t : NewTransaction} {entry : BlockEntry}
  {w w' : Wallet2}

theorem ValidChain.left {ts ts' : List NewTransaction} (h : ValidChain env (ts ++ ts')) :
    ValidChain env ts :=
  ⟨fun t ht => h.within t (List.mem_append_left _ ht), (List.pairwise_append.mp h.apart).1⟩

theorem mem_blockTxs {ts : Nat} {txs : List (Option Transaction)} {txHashes : List Hash}
    {oIndices : List (List Nat)} (h : t ∈ blockTxs height ts txs txHashes oIndices) :
    t.height = height ∧ t.pool = false := by
  induction txs generalizing txHashes oIndices with
  | nil =>
    cases h
  | cons tx txs ih =>
    cases tx with
    | none => exact ih h
    | some tx =>
      rcases List.mem_cons.mp h with rfl | hrest
      · exact ⟨rfl, rfl⟩
      · exact ih hrest

theorem BlockEntry.mem_transactions (h : t ∈ entry.transactions height) :
    t.height = height ∧ t.pool = false := by
  rcases List.mem_cons.mp h with rfl | hrest
  · exact ⟨rfl, rfl⟩
  · exact mem_blockTxs hrest

theorem of_mem_paidOuts {found : FoundOut} (h : found ∈ paidOuts env t) :
    ∃ txPubKey, found.Of env t.tx txPubKey := by
  obtain ⟨txPubKey, -, hmem⟩ := List.mem_flatMap.mp h
  exact ⟨txPubKey, WalletEnv.of_mem_foundOuts hmem⟩

theorem Wallet2.spentBy_eq_some {i : TxIn} {idx : Nat} {td : TransferDetails}
    (h : w.spentBy i = some (idx, td)) :
    ∃ k, i.keyImage? = some k ∧ w.keyImages k = some idx := by
  obtain ⟨k, hk, h⟩ := Option.bind_eq_some_iff.mp h
  obtain ⟨idx', hidx, h⟩ := Option.bind_eq_some_iff.mp h
  obtain ⟨td', -, h⟩ := Option.bind_eq_some_iff.mp h
  cases h
  exact ⟨k, hk, hidx⟩

/-! ### What a wallet knows of the chain -/

/-- The wallet has scanned the transactions: where its transfers, its spends and its
outgoing entries come from. -/
structure Scanned (env : WalletEnv) (ts : List NewTransaction) (w : Wallet2) : Prop where
  exact : w.Exact env
  unspent : ∀ td ∈ w.transfers, td.spent = false → td.spentHeight = 0
  origin : ∀ td ∈ w.transfers, ∃ t ∈ ts, ∃ found ∈ paidOuts env t,
    td.getPublicKey = some found.pub ∧ found.out.amount ≤ td.amount
  spent : ∀ td ∈ w.transfers, td.spent = true → ∃ t ∈ ts, td.keyImage ∈ t.inputImages
  confirmed : ∀ txid, w.confirmedTxs txid ≠ none → ∃ t ∈ ts, t.txid = txid
  unconfirmed : w.unconfirmedTxs = []

section Calls

variable {env : WalletEnv} {ts ts0 : List NewTransaction} {t : NewTransaction} {w wP : Wallet2}
  {height : Nat}

theorem Scanned.mono (h : Scanned env ts w) {ts' : List NewTransaction}
    (hsub : ∀ t ∈ ts, t ∈ ts') : Scanned env ts' w := by
  refine ⟨h.exact, h.unspent, fun td htd => ?_, fun td htd hspent => ?_, fun txid hne => ?_,
    h.unconfirmed⟩
  · obtain ⟨t, ht, horigin⟩ := h.origin td htd
    exact ⟨t, hsub t ht, horigin⟩
  · obtain ⟨t, ht, himage⟩ := h.spent td htd hspent
    exact ⟨t, hsub t ht, himage⟩
  · obtain ⟨t, ht, hid⟩ := h.confirmed txid hne
    exact ⟨t, hsub t ht, hid⟩

theorem Scanned.fresh (env : WalletEnv) (genesis : Hash) : Scanned env [] (.fresh genesis) :=
  ⟨Wallet2.exact_fresh env genesis, nofun, nofun, nofun, fun _ hne => absurd rfl hne, rfl⟩

variable {found : FoundOut} {pkIndex : Nat} {totals totals' : WalletEnv.Totals} {w' : Wallet2}

theorem FoundOut.Of.le_amountS {txPubKey : PublicKey} (h : found.Of env t.tx txPubKey) :
    found.out.amount ≤ found.amountS := by
  rw [h.amountS]
  by_cases hhidden : found.out.amount = 0
  · omega
  · exact Nat.le_of_eq (h.amount hhidden).symm

theorem RecordStep.forall_transfers {P : TransferDetails → Prop}
    (hstep : RecordStep env t pkIndex found totals w totals' w')
    (hold : ∀ td ∈ w.transfers, P td) (hnew : P (newTransfer env t pkIndex found))
    (hreplaced : ∀ td, P td → P (replacedTransfer t pkIndex found td)) :
    ∀ td ∈ w'.transfers, P td := by
  intro td htd
  cases hstep with
  | new _ =>
    split at htd
    · exact hold td htd
    · exact forall_mem_concat.mpr ⟨hold, hnew⟩ td htd
  | ignored _ _ _ => exact hold td htd
  | replaced _ htd0 _ _ _ =>
    split at htd
    · exact hold td htd
    · rcases List.mem_or_eq_of_mem_set htd with hmem | rfl
      · exact hold td hmem
      · exact hreplaced _ (hold _ (List.mem_of_getElem? htd0))

theorem RecordStep.others (hstep : RecordStep env t pkIndex found totals w totals' w') :
    w'.confirmedTxs = w.confirmedTxs ∧ w'.unconfirmedTxs = w.unconfirmedTxs ∧
      w'.payments = w.payments ∧ w'.blockchain = w.blockchain ∧
      w'.localBcHeight = w.localBcHeight := by
  cases hstep with
  | new _ => split <;> exact ⟨rfl, rfl, rfl, rfl, rfl⟩
  | ignored _ _ _ => exact ⟨rfl, rfl, rfl, rfl, rfl⟩
  | replaced _ _ _ _ _ => split <;> exact ⟨rfl, rfl, rfl, rfl, rfl⟩

theorem Wallet2.forall_setSpent {P : TransferDetails → Prop} {idx n : Nat} {td0 : TransferDetails}
    (htd0 : w.transfers[idx]? = some td0) (hold : ∀ td ∈ w.transfers, P td)
    (hspent : P (td0.spentAt n)) : ∀ td ∈ (w.setSpent idx n).transfers, P td := by
  intro td htd
  obtain ⟨i, hi⟩ := List.mem_iff_getElem?.mp htd
  rw [Wallet2.getElem?_setSpent, Option.map_eq_some_iff] at hi
  obtain ⟨td1, htd1, rfl⟩ := hi
  split
  · rename_i heq
    subst heq
    rw [htd0] at htd1
    cases htd1
    exact hspent
  · exact hold _ (List.mem_of_getElem? htd1)

theorem Scanned.processUnconfirmed_eq (h : Scanned env ts w) (txid : Hash) (n : Nat) :
    processUnconfirmed env txid n w = w := by
  simp [processUnconfirmed, h.unconfirmed]

theorem callInvariant_scanned (hdet : env.ImagesDetermineKeys) (ht : t ∈ ts) :
    CallInvariant env t (Scanned env ts) where
  unconfirmed h := by rwa [h.processUnconfirmed_eq]
  record {pkIndex txPubKey found totals totals' w w'} hmem hfound h hstep := by
    obtain ⟨hconfirmed, hunconfirmed, -⟩ := hstep.others
    refine ⟨hstep.exact hdet hfound h.exact,
      hstep.forall_transfers h.unspent (fun _ => rfl) fun _ hunspent => hunspent,
      hstep.forall_transfers h.origin ?_ fun _ _ => ?_,
      hstep.forall_transfers h.spent (fun hspent => by cases hspent) fun _ hspent => hspent,
      by rw [hconfirmed]; exact h.confirmed, by rw [hunconfirmed]; exact h.unconfirmed⟩
    · exact ⟨t, ht, found, hmem, publicKey_newTransfer hfound, hfound.le_amountS⟩
    · exact ⟨t, ht, found, hmem, publicKey_replacedTransfer hfound _, hfound.le_amountS⟩
  spend {w i idx td0} h _ hi hspent htd0 := by
    obtain ⟨k, hk, hidx⟩ := Wallet2.spentBy_eq_some hspent
    obtain ⟨td1, htd1, himage⟩ := Wallet2.points_images_iff.mp h.exact.maps.images _ _ hidx
    rw [htd0] at htd1
    cases htd1
    refine ⟨(SameMaps.setSpent ..).exact h.exact,
      Wallet2.forall_setSpent htd0 h.unspent (fun hunspent => by cases hunspent),
      Wallet2.forall_setSpent htd0 h.origin (h.origin td0 (List.mem_of_getElem? htd0)),
      Wallet2.forall_setSpent htd0 h.spent fun _ => ⟨t, ht, List.mem_filterMap.mpr ⟨i, hi, ?_⟩⟩,
      h.confirmed, h.unconfirmed⟩
    rw [hk, ← himage]
    rfl
  outgoing {w spent received} h := by
    refine ⟨(SameMaps.processOutgoing ..).exact h.exact, h.unspent, h.origin, h.spent,
      fun txid hne => ?_, h.unconfirmed⟩
    by_cases heq : txid = t.txid
    · exact ⟨t, ht, heq.symm⟩
    · refine h.confirmed txid ?_
      simpa [processOutgoing, heq] using hne
  payment {w received} h := by
    have hsame : (addPayment env t received w).transfers = w.transfers ∧
        (addPayment env t received w).confirmedTxs = w.confirmedTxs ∧
        (addPayment env t received w).unconfirmedTxs = w.unconfirmedTxs := by
      unfold addPayment
      split <;> exact ⟨rfl, rfl, rfl⟩
    refine ⟨(SameMaps.addPayment ..).exact h.exact, ?_, ?_, ?_, ?_, ?_⟩
    · rw [hsame.1]
      exact h.unspent
    · rw [hsame.1]
      exact h.origin
    · rw [hsame.1]
      exact h.spent
    · rw [hsame.2.1]
      exact h.confirmed
    · rw [hsame.2.2]
      exact h.unconfirmed

/-- The output was not there before: the transfer that has its key is not replaced. -/
theorem RecordStep.not_replaced {txPubKey : PublicKey} (hpool : t.pool = false)
    (hts : ∀ t' ∈ ts, t' = t ∨ Apart env t' t)
    (hwithin : ∀ found ∈ paidOuts env t, ∀ found' ∈ paidOuts env t,
      found.pub = found'.pub → found.index = found'.index) (h : Scanned env ts w)
    (hmem : found ∈ paidOuts env t) (hfound : found.Of env t.tx txPubKey)
    (hstep : RecordStep env t pkIndex found totals w totals' w') :
    w' = w ∨ w.pubKeys found.pub = none ∧
      w' = w.pushTransfer found.pub (newTransfer env t pkIndex found) := by
  cases hstep with
  | new hkey =>
    rw [if_neg (by simp [hpool])]
    exact .inr ⟨hkey, rfl⟩
  | ignored _ _ _ => exact .inl rfl
  | @replaced idx td hkey htd _ hlarger _ =>
    obtain ⟨td0, htd0, hpub⟩ := Wallet2.points_publicKeys_iff.mp h.exact.maps.keys _ _ hkey
    rw [htd] at htd0
    cases htd0
    obtain ⟨t', ht', found', hmem', hpub', hle⟩ := h.origin td (List.mem_of_getElem? htd)
    obtain hsame : found'.pub = found.pub := Option.some.inj (hpub'.symm.trans hpub)
    rcases hts t' ht' with rfl | hapart
    · -- the same output, found under another public key
      obtain ⟨txPubKey', hfound'⟩ := of_mem_paidOuts hmem'
      have hindex := hwithin found' hmem' found hmem hsame
      have hout := hfound'.out
      rw [hindex, hfound.out] at hout
      rw [← Option.some.inj hout] at hle
      omega
    · exact absurd hsame (hapart.keys found' hmem' found hmem)

/-- Detaching takes back a transaction above the cut that is apart from those below. -/
theorem callInvariant_undoes (hdet : env.ImagesDetermineKeys) (hpool : t.pool = false)
    (hheight : height ≤ t.height) (ht : t ∈ ts) (hts : ∀ t' ∈ ts, t' = t ∨ Apart env t' t)
    (hwithin : ∀ found ∈ paidOuts env t, ∀ found' ∈ paidOuts env t,
      found.pub = found'.pub → found.index = found'.index)
    (hP : Scanned env ts0 wP) (hbelow : ∀ t' ∈ ts0, Apart env t' t) :
    CallInvariant env t fun w => Scanned env ts w ∧ w.undo height = wP where
  unconfirmed h := by rwa [h.1.processUnconfirmed_eq]
  record {pkIndex txPubKey found totals totals' w w'} hmem hfound h hstep := by
    refine ⟨(callInvariant_scanned hdet ht).record hmem hfound h.1 hstep, ?_⟩
    rcases hstep.not_replaced hpool hts hwithin h.1 hmem hfound with rfl | ⟨hkey, rfl⟩
    · exact h.2
    · rw [Wallet2.undo_pushTransfer hheight (publicKey_newTransfer hfound)
        (h.1.exact.newImage hdet hfound hkey) hkey]
      exact h.2
  spend {w i idx td} h _ hi hspent htd := by
    refine ⟨(callInvariant_scanned hdet ht).spend h.1 hpool hi hspent htd, ?_⟩
    rw [Wallet2.undo_setSpent htd fun hattached => ?_]
    · exact h.2
    obtain ⟨k, hk, hidx⟩ := Wallet2.spentBy_eq_some hspent
    obtain ⟨td1, htd1, himage⟩ := Wallet2.points_images_iff.mp h.1.exact.maps.images _ _ hidx
    rw [htd] at htd1
    cases htd1
    have hnew : (td.spentAt t.height).resetSpent height = td.unspent :=
      if_pos ⟨rfl, hheight⟩
    rw [hnew, TransferDetails.resetSpent]
    split
    · rfl
    rename_i hkept
    cases hunspent : td.spent with
    | false =>
      have hzero := h.1.unspent td (List.mem_of_getElem? htd) hunspent
      unfold TransferDetails.unspent
      rw [← hunspent, ← hzero]
    | true =>
      -- spent below the cut: the key image would be spent twice
      have hwP : td ∈ wP.transfers := by
        rw [← h.2]
        refine List.mem_map.mpr ⟨td, hattached, ?_⟩
        exact if_neg hkept
      obtain ⟨t', ht', himage'⟩ := hP.spent td hwP hunspent
      refine absurd ?_ ((hbelow t' ht').images _ himage')
      exact List.mem_filterMap.mpr ⟨i, hi, by rw [hk, himage]⟩
  outgoing {w spent received} h := by
    refine ⟨(callInvariant_scanned hdet ht).outgoing h.1, ?_⟩
    rw [Wallet2.undo_processOutgoing hheight, h.2]
    rw [h.2]
    by_contra hne
    obtain ⟨t', ht', hid⟩ := hP.confirmed t.txid hne
    exact (hbelow t' ht').ids hid
  payment {w received} h := by
    refine ⟨(callInvariant_scanned hdet ht).payment h.1, ?_⟩
    rw [Wallet2.undo_addPayment hpool hheight]
    exact h.2

/-- A transaction keeps a wallet below any height above its own. -/
theorem callInvariant_below (hlt : t.height < height) :
    CallInvariant env t (Wallet2.Below · height) where
  unconfirmed {w} h := by
    unfold processUnconfirmed
    split
    · exact h
    refine ⟨h.transfers, h.spends, h.payments, fun txid c hc => ?_, h.localBcHeight⟩
    dsimp only at hc
    split at hc
    · by_cases heq : txid = t.txid
      · subst heq
        rw [Function.update_self] at hc
        cases hc
        exact hlt
      · rw [Function.update_of_ne heq] at hc
        exact h.confirmedTxs txid c hc
    · exact h.confirmedTxs txid c hc
  record {pkIndex txPubKey found totals totals' w w'} _ _ h hstep := by
    obtain ⟨hconfirmed, -, hpayments, -, hlocal⟩ := hstep.others
    exact ⟨hstep.forall_transfers h.transfers hlt fun _ _ => hlt,
      hstep.forall_transfers h.spends (fun hspent => by cases hspent) fun _ hspent => hspent,
      by rw [hpayments]; exact h.payments, by rw [hconfirmed]; exact h.confirmedTxs,
      by rw [hlocal]; exact h.localBcHeight⟩
  spend {w i idx td0} h _ _ _ htd0 :=
    ⟨Wallet2.forall_setSpent htd0 h.transfers (h.transfers td0 (List.mem_of_getElem? htd0)),
      Wallet2.forall_setSpent htd0 h.spends fun _ => hlt, h.payments, h.confirmedTxs,
      h.localBcHeight⟩
  outgoing {w spent received} h := by
    refine ⟨h.transfers, h.spends, h.payments, fun txid c hc => ?_, h.localBcHeight⟩
    by_cases heq : txid = t.txid
    · subst heq
      simp only [processOutgoing, Function.update_self, Option.mem_def, Option.some.injEq] at hc
      rwa [← hc]
    · refine h.confirmedTxs txid c ?_
      simpa [processOutgoing, heq] using hc
  payment {w received} h := by
    unfold addPayment
    split
    · exact ⟨h.transfers, h.spends, h.payments, h.confirmedTxs, h.localBcHeight⟩
    · exact ⟨h.transfers, h.spends, forall_mem_concat.mpr ⟨h.payments, hlt⟩, h.confirmedTxs,
        h.localBcHeight⟩

theorem callInvariant_blockchain (ids : List Hash) :
    CallInvariant env t (·.blockchain = ids) where
  unconfirmed h := by
    unfold processUnconfirmed
    split <;> exact h
  record _ _ h hstep := by rwa [hstep.others.2.2.2.1]
  spend h _ _ _ _ := h
  outgoing h := h
  payment h := by
    unfold addPayment
    split <;> exact h

end Calls

/-! ### Following a chain -/

def processAll (env : WalletEnv) : List NewTransaction → WalletM PUnit
  | [] => pure ⟨⟩
  | t :: ts => do
    processNewTransaction env t
    processAll env ts

theorem processTxs_ok {ts : Nat} {txs : List (Option Transaction)} {txHashes : List Hash}
    {oIndices : List (List Nat)} {w : Wallet2}
    (h : processTxs env height ts txs txHashes oIndices w = .ok ⟨⟩ w') :
    processAll env (blockTxs height ts txs txHashes oIndices) w = .ok ⟨⟩ w' := by
  induction txs generalizing txHashes oIndices w with
  | nil => exact h
  | cons tx txs ih =>
    cases tx with
    | none => cases h
    | some tx =>
      obtain ⟨⟨⟩, w1, hfirst, hrest⟩ := bind_eq_ok.mp h
      exact bind_eq_ok.mpr ⟨⟨⟩, w1, hfirst, ih hrest⟩

/-- A block that is processed: all of its transactions, or none, and its id. -/
theorem processEntry_ok (h : processNewBlockchainEntry env entry height w = .ok ⟨⟩ w') :
    ∃ w1, (w1 = w ∨ processAll env (entry.transactions height) w = .ok ⟨⟩ w1) ∧
      w' = w1.pushBlock entry.id := by
  unfold processNewBlockchainEntry at h
  split at h
  · cases h
  split at h
  · obtain ⟨⟨⟩, w1, hminer, h⟩ := bind_eq_ok.mp h
    by_cases hhashes : entry.txs.length ≠ entry.block.txHashes.length
    · rw [if_pos hhashes] at h
      cases h
    rw [if_neg hhashes] at h
    obtain ⟨⟨⟩, w2, htxs, h⟩ := bind_eq_ok.mp h
    cases h
    exact ⟨w2, .inr (bind_eq_ok.mpr ⟨⟨⟩, w1, hminer, processTxs_ok htxs⟩), rfl⟩
  · cases h
    exact ⟨w, .inl rfl, rfl⟩

/-- A property of a wallet, of the transactions it has been shown and of the number of
its blocks, that following a valid chain from a height on keeps. -/
structure ChainInvariant (env : WalletEnv) (valid : List NewTransaction → Prop) (base : Nat)
    (I : List NewTransaction → Nat → Wallet2 → Prop) : Prop where
  left : ∀ {ts ts'}, valid (ts ++ ts') → valid ts
  next : ∀ {ts n w}, I ts n w → I ts (n + 1) w
  shown : ∀ {ts ts' n w}, I ts n w → I (ts ++ ts') n w
  call : ∀ {ts t n w}, base ≤ n → valid (ts ++ [t]) → t.height = n → t.pool = false →
    I ts (n + 1) w → I (ts ++ [t]) (n + 1) (final (processNewTransaction env t w))
  push : ∀ {ts n w} (id : Hash), base ≤ n → w.blockchain.length = n → I ts (n + 1) w →
    I ts (n + 1) (w.pushBlock id)

namespace ChainInvariant

variable {env : WalletEnv} {valid : List NewTransaction → Prop} {base : Nat}
  {I : List NewTransaction → Nat → Wallet2 → Prop}

theorem processAll (h : ChainInvariant env valid base I) {n : Nat} (hbase : base ≤ n)
    {w' : Wallet2} {new ts : List NewTransaction} {w : Wallet2} (hvalid : valid (ts ++ new))
    (hnew : (∀ t ∈ new, t.height = n ∧ t.pool = false)) (hw : I ts (n + 1) w)
    (hrun : Lethean.processAll env new w = .ok ⟨⟩ w') :
    I (ts ++ new) (n + 1) w' ∧ w'.blockchain = w.blockchain := by
  induction new generalizing ts w with
  | nil =>
    cases hrun
    rw [List.append_nil]
    exact ⟨hw, rfl⟩
  | cons t new ih =>
    obtain ⟨hheight, hpool⟩ := hnew t (by simp)
    obtain ⟨⟨⟩, w1, hfirst, hrest⟩ := bind_eq_ok.mp hrun
    rw [← List.singleton_append, ← List.append_assoc] at hvalid
    have hcall := h.call hbase (h.left hvalid) hheight hpool hw
    have hids : (final (processNewTransaction env t w)).blockchain = w.blockchain :=
      (callInvariant_blockchain w.blockchain).processNewTransaction rfl
    rw [hfirst] at hcall hids
    obtain ⟨hend, hsame⟩ := ih hvalid (fun t' ht' => hnew t' (by simp [ht'])) hcall hrest
    refine ⟨?_, hsame.trans hids⟩
    rwa [List.append_assoc, List.singleton_append] at hend

theorem processNewBlockchainEntry (h : ChainInvariant env valid base I) {entry : BlockEntry}
    {n : Nat} (hbase : base ≤ n) {ts : List NewTransaction} {w w' : Wallet2}
    (hlen : w.blockchain.length = n) (hvalid : valid (ts ++ entry.transactions n)) (hw : I ts n w)
    (hrun : Lethean.processNewBlockchainEntry env entry n w = .ok ⟨⟩ w') :
    I (ts ++ entry.transactions n) (n + 1) w' ∧ w'.blockchain = w.blockchain ++ [entry.id] := by
  obtain ⟨w1, hcases, rfl⟩ := processEntry_ok hrun
  have hmid : I (ts ++ entry.transactions n) (n + 1) w1 ∧ w1.blockchain = w.blockchain := by
    rcases hcases with rfl | hall
    · exact ⟨h.shown (h.next hw), rfl⟩
    · exact h.processAll hbase hvalid (fun t ht => entry.mem_transactions ht) (h.next hw) hall
  refine ⟨h.push entry.id hbase (by rw [hmid.2, hlen]) hmid.1, ?_⟩
  change w1.blockchain ++ [entry.id] = _
  rw [hmid.2]

end ChainInvariant

theorem processEntry_blockchain
    (hrun : processNewBlockchainEntry env entry w.blockchain.length w = .ok ⟨⟩ w') :
    w'.blockchain = w.blockchain ++ [entry.id] := by
  have htrue : ChainInvariant env (fun _ => True) 0 (fun _ _ _ => True) :=
    ⟨fun _ => trivial, fun _ => trivial, fun _ => trivial, fun _ _ _ _ _ => trivial,
      fun _ _ _ _ => trivial⟩
  exact (@ChainInvariant.processNewBlockchainEntry env _ 0 _ htrue entry _ (Nat.zero_le _) [] w w'
    rfl trivial trivial hrun).2

theorem processBlock_new {i : Nat} (hlen : w.blockchain.length = i) :
    processBlock env startHeight i (some entry) w =
      (processNewBlockchainEntry env entry i >>= fun _ => pure true) w := by
  rw [processBlock, get_bind, List.getElem?_eq_none (Nat.le_of_eq hlen)]

theorem ChainInvariant.processBlocksFrom {valid : List NewTransaction → Prop} {base : Nat}
    {I : List NewTransaction → Nat → Wallet2 → Prop} (h : ChainInvariant env valid base I)
    {added' : Nat} {entries : List BlockEntry} {i added : Nat} {ts : List NewTransaction}
    {w : Wallet2} (hbase : base ≤ i) (hlen : w.blockchain.length = i)
    (hvalid : valid (ts ++ chainTxs i entries)) (hw : I ts i w)
    (hrun : Lethean.processBlocksFrom env startHeight i (entries.map some) added w = .ok added' w') :
    I (ts ++ chainTxs i entries) (i + entries.length) w' ∧ w'.blockchain = w.blockchain ++
      entries.map (·.id) := by
  induction entries generalizing i added ts w with
  | nil =>
    cases hrun
    simpa [chainTxs] using hw
  | cons entry entries ih =>
    obtain ⟨isNew, w1, hblock, hrest⟩ := bind_eq_ok.mp hrun
    rw [processBlock_new hlen] at hblock
    obtain ⟨⟨⟩, w2, hentry, hpure⟩ := bind_eq_ok.mp hblock
    cases hpure
    rw [chainTxs, ← List.append_assoc] at hvalid
    obtain ⟨hnext, hids⟩ := h.processNewBlockchainEntry hbase hlen (h.left hvalid) hw hentry
    have hlen1 : w1.blockchain.length = i + 1 := by
      rw [hids, List.length_append, hlen, List.length_singleton]
    obtain ⟨hend, hidsEnd⟩ := ih (Nat.le_succ_of_le hbase) hlen1 hvalid hnext hrest
    refine ⟨?_, ?_⟩
    · rw [chainTxs, ← List.append_assoc, List.length_cons, Nat.add_comm entries.length,
        ← Nat.add_assoc]
      exact hend
    · rw [hidsEnd, hids, List.append_assoc]
      rfl

theorem blocksFrom_append (entries' entries : List (Option BlockEntry)) (i added : Nat) :
    processBlocksFrom env startHeight i (entries ++ entries') added =
      processBlocksFrom env startHeight i entries added >>=
        processBlocksFrom env startHeight (i + entries.length) entries' := by
  induction entries generalizing i added with
  | nil => rfl
  | cons entry entries ih =>
    rw [List.cons_append, processBlocksFrom, processBlocksFrom, bind_assoc]
    congr 1
    funext isNew
    rw [ih, List.length_cons, Nat.add_comm entries.length, ← Nat.add_assoc]

theorem processBlock_known {i : Nat} (hid : w.blockchain[i]? = some entry.id) :
    processBlock env startHeight i (some entry) w = .ok false w := by
  rw [processBlock, get_bind, hid]
  simp

theorem blocksFrom_known {added : Nat} {entries : List BlockEntry} {i : Nat}
    (hknown : ∀ j entry, entries[j]? = some entry → w.blockchain[i + j]? = some entry.id) :
    processBlocksFrom env startHeight i (entries.map some) added w = .ok added w := by
  induction entries generalizing i with
  | nil => rfl
  | cons entry entries ih =>
    refine (bind_ok (processBlock_known (hknown 0 entry rfl))).trans (ih fun j entry' hj => ?_)
    rw [Nat.add_assoc, Nat.add_comm 1]
    exact hknown (j + 1) entry' hj

/-- Two calls end in the same way and leave the same wallet. -/
def SameEnd {α β : Type} (r : EStateM.Result Halt Wallet2 α) (r' : EStateM.Result Halt Wallet2 β) :
    Prop :=
  thrown r = thrown r' ∧ final r = final r'

/-- Over new blocks neither the start of the response nor the count makes a difference. -/
theorem sameEnd_blocksFrom {startHeight' : Nat} {entries : List BlockEntry}
    {i added added' : Nat} {w : Wallet2} (hlen : w.blockchain.length = i) :
    SameEnd (processBlocksFrom env startHeight i (entries.map some) added w)
      (processBlocksFrom env startHeight' i (entries.map some) added' w) := by
  induction entries generalizing i added added' w with
  | nil => exact ⟨rfl, rfl⟩
  | cons entry entries ih =>
    subst hlen
    rw [List.map_cons, processBlocksFrom, processBlocksFrom]
    cases hentry : processNewBlockchainEntry env entry w.blockchain.length w with
    | error e w1 =>
      have hblock : ∀ start,
          processBlock env start w.blockchain.length (some entry) w = .error e w1 := by
        intro start
        rw [processBlock_new rfl, bind_error hentry]
      rw [bind_error (hblock _), bind_error (hblock _)]
      exact ⟨rfl, rfl⟩
    | ok u w1 =>
      have hblock : ∀ start,
          processBlock env start w.blockchain.length (some entry) w = .ok true w1 := by
        intro start
        rw [processBlock_new rfl, bind_ok hentry]
        rfl
      rw [bind_ok (hblock _), bind_ok (hblock _)]
      refine ih ?_
      rw [processEntry_blockchain hentry, List.length_append,
        List.length_singleton]

/-! ### The two branches -/

section Branches

variable {env : WalletEnv} {ts ts0 : List NewTransaction} {w wP : Wallet2} {height : Nat}

theorem Scanned.pushBlock (h : Scanned env ts w) (id : Hash) : Scanned env ts (w.pushBlock id) := by
  have hsame : SameMaps w (w.pushBlock id) := ⟨rfl, rfl, rfl⟩
  exact ⟨hsame.exact h.exact, h.unspent, h.origin, h.spent, h.confirmed, h.unconfirmed⟩

theorem Wallet2.Below.mono (h : w.Below height) {height' : Nat} (hle : height ≤ height') :
    w.Below height' :=
  ⟨fun td htd => (h.transfers td htd).trans_le hle,
    fun td htd hspent => (h.spends td htd hspent).trans_le hle,
    fun p hp => (h.payments p hp).trans_le hle,
    fun txid c hc => (h.confirmedTxs txid c hc).trans_le hle, h.localBcHeight⟩

theorem chainInvariant_below (hdet : env.ImagesDetermineKeys) :
    ChainInvariant env (fun _ => True) 0 fun ts n w => Scanned env ts w ∧ w.Below n where
  left _ := trivial
  next h := ⟨h.1, h.2.mono (Nat.le_succ _)⟩
  shown h := ⟨h.1.mono fun _ => List.mem_append_left _, h.2⟩
  call {ts t n w} _ _ hheight _ h :=
    ⟨(callInvariant_scanned hdet (by simp)).processNewTransaction
        (h.1.mono fun _ => List.mem_append_left _),
      (callInvariant_below (by omega)).processNewTransaction h.2⟩
  push id _ _ h :=
    ⟨h.1.pushBlock id,
      ⟨h.2.transfers, h.2.spends, h.2.payments, h.2.confirmedTxs, u64_lt _⟩⟩

/-- From the split on: detaching leads back to it. -/
theorem chainInvariant_undoes (hdet : env.ImagesDetermineKeys) (hP : Scanned env ts0 wP) :
    ChainInvariant env (ValidChain env) height fun ts _ w =>
      (∀ t ∈ ts0, t ∈ ts) ∧ Scanned env ts w ∧ w.undo height = wP where
  left := ValidChain.left
  next h := h
  shown h := ⟨fun t ht => List.mem_append_left _ (h.1 t ht),
    h.2.1.mono fun _ => List.mem_append_left _, h.2.2⟩
  call {ts t n w} hbase hvalid hheight hpool h := by
    have hapart : ∀ t' ∈ ts, Apart env t' t := fun t' ht' =>
      (List.pairwise_append.mp hvalid.apart).2.2 t' ht' t (by simp)
    have hts : ∀ t' ∈ ts ++ [t], t' = t ∨ Apart env t' t := by
      intro t' ht'
      rcases List.mem_append.mp ht' with hold | hnew
      · exact .inr (hapart t' hold)
      · exact .inl (List.mem_singleton.mp hnew)
    refine ⟨fun t' ht' => List.mem_append_left _ (h.1 t' ht'), ?_⟩
    exact (callInvariant_undoes hdet hpool (by omega) (by simp) hts
      (hvalid.within t (by simp)) hP fun t' ht' => hapart t' (h.1 t' ht')).processNewTransaction
      ⟨h.2.1.mono fun _ => List.mem_append_left _, h.2.2⟩
  push id hbase hlen h :=
    ⟨h.1, h.2.1.pushBlock id, (Wallet2.undo_pushBlock id (hlen ▸ hbase)).trans h.2.2⟩

theorem freshScan {genesis : Hash} {P : List BlockEntry} (hne : P ≠ [])
    (hdet : env.ImagesDetermineKeys) {added : Nat}
    (hrun : processBlocksFrom env 0 0 (P.map some) 0 (.fresh genesis) = .ok added wP) :
    Scanned env (chainTxs 0 P) wP ∧ wP.Below P.length ∧ wP.blockchain = P.map (·.id) := by
  obtain ⟨first, rest, rfl⟩ := List.exists_cons_of_ne_nil hne
  rw [List.map_cons, processBlocksFrom] at hrun
  have hgenesis : (Wallet2.fresh genesis).blockchain[0]? = some genesis := rfl
  by_cases hid : first.id = genesis
  · rw [bind_ok (processBlock_known (by rw [hgenesis, hid]))] at hrun
    have hstart : Scanned env (first.transactions 0) (.fresh genesis) ∧
        (Wallet2.fresh genesis).Below 1 :=
      ⟨(Scanned.fresh env genesis).mono nofun, nofun, nofun, nofun, nofun,
        (by decide : 1 < 2 ^ 64)⟩
    obtain ⟨⟨hscanned, hbelow⟩, hids⟩ := (chainInvariant_below hdet).processBlocksFrom
      (Nat.zero_le _) rfl trivial hstart hrun
    refine ⟨hscanned, ?_, ?_⟩
    · rwa [List.length_cons, Nat.add_comm]
    · rw [hids, List.map_cons, hid]
      rfl
  · -- another block in the place of the first one
    have hfirst : processBlock env 0 0 (some first) (.fresh genesis) =
        .error (.error (.splitAtFirst first.id 0)) (.fresh genesis) := by
      rw [processBlock, get_bind, hgenesis]
      dsimp only
      rw [if_neg hid, if_pos rfl]
      rfl
    rw [bind_error hfirst] at hrun
    cases hrun

/-- A wallet that has followed a chain to the end, detached at the split, is the wallet
at the split. -/
theorem undo_branch {genesis : Hash} {P A : List BlockEntry} (hne : P ≠ [])
    (hdet : env.ImagesDetermineKeys) (hvalid : ValidChain env (chainTxs 0 (P ++ A)))
    {added added' : Nat}
    (hP : processBlocksFrom env 0 0 (P.map some) 0 (.fresh genesis) = .ok added wP)
    (hA : processBlocksFrom env 0 P.length (A.map some) added wP = .ok added' w) :
    w.Exact env ∧ w.undo P.length = wP ∧ w.blockchain = P.map (·.id) ++ A.map (·.id) := by
  obtain ⟨hscanned, hbelow, hids⟩ := freshScan hne hdet hP
  have hlen : wP.blockchain.length = P.length := by rw [hids, List.length_map]
  have htxs : ∀ (P : List BlockEntry) (i : Nat),
      chainTxs i (P ++ A) = chainTxs i P ++ chainTxs (i + P.length) A := by
    intro P
    induction P with
    | nil => exact fun _ => rfl
    | cons entry P ih =>
      intro i
      rw [List.cons_append, chainTxs, chainTxs, ih, List.append_assoc, List.length_cons,
        Nat.add_comm P.length, ← Nat.add_assoc]
  rw [htxs, Nat.zero_add] at hvalid
  obtain ⟨⟨-, hend, hundo⟩, hidsEnd⟩ := (chainInvariant_undoes hdet hscanned).processBlocksFrom
    le_rfl hlen hvalid ⟨fun _ => id, hscanned, hbelow.undo hlen⟩ hA
  exact ⟨hend.exact, hundo, by rw [hidsEnd, hids]⟩

end Branches

/-- Following one branch, detaching at the split and following the other branch ends
as following the other branch from the start, with the same wallet. -/
theorem resync_sameEnd_freshScan (env : WalletEnv) (hdet : env.ImagesDetermineKeys)
    (genesis : Hash) (P A B : List BlockEntry) (a b : BlockEntry) (startHeight : Nat)
    (hstart : startHeight < P.length) (hsplit : b.id ≠ a.id)
    (hvalid : ValidChain env (chainTxs 0 (P ++ a :: A))) (added : Nat) (w : Wallet2)
    (hrun : processBlocks env 0 ((P ++ a :: A).map some) (.fresh genesis) = .ok added w) :
    SameEnd (processBlocks env startHeight ((P.drop startHeight ++ b :: B).map some) w)
      (processBlocks env 0 ((P ++ b :: B).map some) (.fresh genesis)) := by
  have hne : P ≠ [] := List.length_pos_iff.mp (by omega)
  unfold processBlocks at hrun ⊢
  rw [List.map_append, blocksFrom_append, List.length_map, Nat.zero_add] at hrun
  obtain ⟨addedP, wP, hP, hA⟩ := bind_eq_ok.mp hrun
  obtain ⟨hexact, hundo, hids⟩ := undo_branch hne hdet hvalid hP hA
  obtain ⟨-, -, hidsP⟩ := freshScan hne hdet hP
  have hlenP : wP.blockchain.length = P.length := by rw [hidsP, List.length_map]
  -- the wallet has the blocks up to the split, and the other block at the split
  have hknown : ∀ j entry, (P.drop startHeight)[j]? = some entry →
      w.blockchain[startHeight + j]? = some entry.id := by
    intro j entry hj
    rw [List.getElem?_drop] at hj
    have hlt := (List.getElem?_eq_some_iff.mp hj).1
    rw [hids, List.getElem?_append_left (by simpa using hlt), List.getElem?_map, hj]
    rfl
  have hother : w.blockchain[P.length]? = some a.id := by
    rw [hids, List.getElem?_append_right (by simp)]
    simp
  have hdetach : detachBlockchain P.length w = .ok ⟨⟩ wP := by
    rw [hexact.detachBlockchain_ok (by rw [hids]; simp), hundo]
  have hlen : startHeight + (P.drop startHeight).length = P.length := by
    rw [List.length_drop]
    omega
  rw [List.map_append, List.map_append, blocksFrom_append, blocksFrom_append,
    List.length_map, List.length_map, bind_ok (blocksFrom_known hknown), bind_ok hP, hlen,
    Nat.zero_add, List.map_cons, processBlocksFrom, processBlocksFrom]
  have hblock : processBlock env startHeight P.length (some b) w =
      (processNewBlockchainEntry env b P.length >>= fun _ => pure false) wP := by
    rw [processBlock, get_bind, hother]
    dsimp only
    rw [if_neg hsplit, if_neg (by omega), bind_ok hdetach]
  have hfresh : processBlock env 0 P.length (some b) wP =
      (processNewBlockchainEntry env b P.length >>= fun _ => pure true) wP :=
    processBlock_new hlenP
  cases hentry : processNewBlockchainEntry env b P.length wP with
  | error e w₁ =>
    rw [bind_error (hblock.trans (bind_error hentry)), bind_error (hfresh.trans (bind_error hentry))]
    exact ⟨rfl, rfl⟩
  | ok u w₁ =>
    rw [bind_ok (hblock.trans (bind_ok hentry)), bind_ok (hfresh.trans (bind_ok hentry))]
    refine sameEnd_blocksFrom ?_
    rw [← hlenP] at hentry
    rw [processEntry_blockchain hentry, List.length_append, hlenP,
      List.length_singleton]

def sampleEntry (n : Nat) (t : NewTransaction) : BlockEntry where
  block := { Block.ofHeader ⟨0, 0, 0, nullHash, 0⟩ with txHashes := [t.txid] }
  id := numberedHash n
  minerTxid := numberedHash (100 + n)
  txs := [some t.tx]
  oIndices := [[], t.oIndices]

def samplePrefix : List BlockEntry :=
  [sampleEntry 0 (sampleReceipt (numberedHash 10) [] [] [] [] 0),
    sampleEntry 1 (sampleReceipt (numberedHash 11) [numberedHash 7]
      [⟨5, .toKey (sampleOneTimeKey (numberedHash 7) 0)⟩] [] [] 1)]

def sampleSpend : BlockEntry :=
  sampleEntry 2 (sampleReceipt (numberedHash 12) [numberedHash 8]
    [⟨3, .toKey (sampleOneTimeKey (numberedHash 8) 0)⟩]
    [.toKey 5 [] (sampleOneTimeKey (numberedHash 7) 0)] [] 2)

def sampleReceiptBlock : BlockEntry :=
  sampleEntry 3 (sampleReceipt (numberedHash 13) [numberedHash 9]
    [⟨2, .toKey (sampleOneTimeKey (numberedHash 9) 0)⟩] [] [] 2)

theorem sampleWalletEnv_imagesDetermineKeys : sampleWalletEnv.ImagesDetermineKeys := by
  intro txPubKey i pub txPubKey' i' pub' keyImage h h'
  have hkey := Prod.mk.inj (Option.some.inj h)
  have hkey' := Prod.mk.inj (Option.some.inj h')
  rw [← hkey.1, ← hkey'.1, hkey.2, hkey'.2]

/-- The spend is taken back, and the other block is processed. -/
theorem resync_sameEnd_samples :
    SameEnd (processBlocks sampleWalletEnv 1
        ((samplePrefix.drop 1 ++ sampleReceiptBlock :: []).map some)
        (final (processBlocks sampleWalletEnv 0 ((samplePrefix ++ sampleSpend :: []).map some)
          (.fresh (numberedHash 0)))))
      (processBlocks sampleWalletEnv 0 ((samplePrefix ++ sampleReceiptBlock :: []).map some)
        (.fresh (numberedHash 0))) := by
  have hok : thrown (processBlocks sampleWalletEnv 0 ((samplePrefix ++ sampleSpend :: []).map some)
      (.fresh (numberedHash 0))) = none := by decide +kernel
  cases hrun : processBlocks sampleWalletEnv 0 ((samplePrefix ++ sampleSpend :: []).map some)
      (.fresh (numberedHash 0)) with
  | error e w =>
    rw [hrun] at hok
    cases hok
  | ok added w =>
    exact resync_sameEnd_freshScan sampleWalletEnv sampleWalletEnv_imagesDetermineKeys _ _ [] [] _
      _ 1 (by decide) (by decide +kernel) ⟨by decide +kernel, by decide +kernel⟩ added w hrun

end Lethean
