import Lethean.Wallet.Wallet2

/-!
# Lethean.Wallet.ScanSteps

What the loops of `process_new_transaction` do, said once: which outputs a scan
finds, what entering one of them can do to the wallet, and rules that carry a
property of the wallet through a whole call, however the call ends.
-/

namespace Lethean

open Frame

/-! ### What a scan finds -/

/-- `found` is an output of the transaction, paid to the wallet by the public key. -/
structure FoundOut.Of (env : WalletEnv) (tx : Transaction) (txPubKey : PublicKey)
    (found : FoundOut) : Prop where
  out : tx.vout[found.index]? = some found.out
  target : found.out.target = .toKey found.pub
  ephemeral : env.ephemeral txPubKey found.index = some (found.pub, found.keyImage)
  amount : found.out.amount ≠ 0 → found.amount = found.out.amount

theorem FoundOut.Of.amountS {env : WalletEnv} {tx : Transaction} {txPubKey : PublicKey}
    {found : FoundOut} (h : found.Of env tx txPubKey) : found.amountS = found.amount := by
  unfold FoundOut.amountS
  split
  · rename_i hclear
    exact (h.amount hclear).symm
  · rfl

def FoundOut.total (outs : List FoundOut) : Nat := (outs.map (·.amount)).sum

@[simp] theorem FoundOut.total_nil : FoundOut.total [] = 0 := rfl

@[simp] theorem FoundOut.total_cons (found : FoundOut) (outs : List FoundOut) :
    FoundOut.total (found :: outs) = found.amount + FoundOut.total outs := by
  simp [FoundOut.total]

namespace WalletEnv

section Definitions

variable (env : WalletEnv)

/-- The outputs from index `i` on that are paid to the wallet. -/
def foundFrom (rct : RctSig) (decode : Bool) (txPubKey : PublicKey) :
    Nat → List TxOut → List FoundOut
  | _, [] => []
  | i, o :: vout =>
    (env.checkAccOutPrecomp rct decode txPubKey i o).join.toList ++
      foundFrom rct decode txPubKey (i + 1) vout

def foundOuts (tx : Transaction) (minerTx : Bool) (txPubKey : PublicKey) : List FoundOut :=
  if minerTx ∧ env.refreshType = .noCoinbase then []
  else if minerTx ∧ env.refreshType = .optimizeCoinbase then
    if env.foundFrom tx.rctSignatures true txPubKey 0 (tx.vout.take 1) = [] then []
    else env.foundFrom tx.rctSignatures true txPubKey 0 tx.vout
  else env.foundFrom tx.rctSignatures (!minerTx) txPubKey 0 tx.vout

def threaded (tx : Transaction) (minerTx : Bool) : Bool :=
  ¬ (minerTx ∧ (env.refreshType = .noCoinbase ∨ env.refreshType = .optimizeCoinbase)) ∧
    1 < tx.vout.length ∧ 1 < env.threads

/-- Does the scan for a public key count from 0 again? -/
def restarts (tx : Transaction) (minerTx : Bool) (txPubKey : PublicKey) : Bool :=
  env.threaded tx minerTx ||
    decide (minerTx ∧ env.refreshType = .optimizeCoinbase ∧
      env.foundOuts tx minerTx txPubKey ≠ [])

end Definitions

variable {env : WalletEnv} {rct : RctSig} {decode minerTx : Bool} {txPubKey : PublicKey}
  {tx : Transaction}

theorem of_checkAccOutPrecomp {i : Nat} {o : TxOut} {found : FoundOut}
    (h : env.checkAccOutPrecomp rct decode txPubKey i o = some (some found)) :
    found.index = i ∧ found.out = o ∧ o.target = .toKey found.pub ∧
      env.ephemeral txPubKey i = some (found.pub, found.keyImage) ∧
      (o.amount ≠ 0 → found.amount = o.amount) := by
  unfold checkAccOutPrecomp at h
  split at h
  · rename_i key htarget
    split at h
    · cases h
    rename_i pub ki heph
    split at h
    · rename_i hkey
      subst hkey
      split at h
      · rename_i hhidden
        cases h
        exact ⟨rfl, rfl, htarget, heph, fun hclear => absurd hhidden.1 hclear⟩
      · cases h
        exact ⟨rfl, rfl, htarget, heph, fun _ => rfl⟩
    · cases h
  · cases h

theorem amount_lt_of_checkAccOutPrecomp {i : Nat} {o : TxOut} {found : FoundOut}
    (h : env.checkAccOutPrecomp rct decode txPubKey i o = some (some found))
    (ho : o.amount < 2 ^ 64) : found.amount < 2 ^ 64 := by
  unfold checkAccOutPrecomp at h
  split at h
  · split at h
    · cases h
    split at h
    · split at h
      · cases h
        exact env.decodeRct_lt _ _ _
      · cases h
        exact ho
    · cases h
  · cases h

theorem of_mem_foundFrom {found : FoundOut} {vout : List TxOut} {i : Nat}
    (h : found ∈ env.foundFrom rct decode txPubKey i vout) :
    i ≤ found.index ∧ vout[found.index - i]? = some found.out ∧ found.out.target = .toKey found.pub
      ∧ env.ephemeral txPubKey found.index = some (found.pub, found.keyImage) ∧ (found.out.amount ≠
      0 → found.amount = found.out.amount) := by
  induction vout generalizing i with
  | nil =>
    cases h
  | cons o vout ih =>
    rcases List.mem_append.mp h with h | h
    · have hcheck : env.checkAccOutPrecomp rct decode txPubKey i o = some (some found) := by
        simpa [Option.join_eq_some_iff] using h
      obtain ⟨rfl, rfl, htarget, heph, hamount⟩ := of_checkAccOutPrecomp hcheck
      exact ⟨le_rfl, by simp, htarget, heph, hamount⟩
    · obtain ⟨hle, hout, hrest⟩ := ih h
      refine ⟨by omega, ?_, hrest⟩
      rwa [show found.index - i = found.index - (i + 1) + 1 by omega]

theorem of_mem_foundOuts {found : FoundOut} (h : found ∈ env.foundOuts tx minerTx txPubKey) :
    found.Of env tx txPubKey := by
  have hfrom : ∃ decode, found ∈ env.foundFrom tx.rctSignatures decode txPubKey 0 tx.vout := by
    unfold foundOuts at h
    split at h
    · cases h
    split at h
    · split at h
      · cases h
      · exact ⟨_, h⟩
    · exact ⟨_, h⟩
  obtain ⟨decode, hmem⟩ := hfrom
  obtain ⟨-, hout, htarget, heph, hamount⟩ := of_mem_foundFrom hmem
  exact ⟨hout, htarget, heph, hamount⟩

theorem scanLoop_ok {outs' : List FoundOut} {got' : Nat} {vout : List TxOut} {i : Nat}
    {outs : List FoundOut} {got : Nat}
    (h : env.scanLoop rct decode txPubKey i vout outs got = .ok (outs', got')) :
    outs' = outs ++ env.foundFrom rct decode txPubKey i vout ∧ got' = got + FoundOut.total
      (env.foundFrom rct decode txPubKey i vout) ∧ (got < 2 ^ 64 → got' < 2 ^ 64) := by
  induction vout generalizing i outs got with
  | nil =>
    cases h
    simp [foundFrom]
  | cons o vout ih =>
    rw [scanLoop] at h
    split at h
    · cases h
    · rename_i hcheck
      obtain ⟨houts, hgot, hlt⟩ := ih h
      exact ⟨by simp [foundFrom, hcheck, houts], by simp [foundFrom, hcheck, hgot], hlt⟩
    · rename_i found hcheck
      split at h
      · cases h
      obtain ⟨houts, hgot, hlt⟩ := ih h
      refine ⟨by simp [foundFrom, hcheck, houts], ?_, fun _ => hlt (by omega)⟩
      simp [foundFrom, hcheck, hgot, Nat.add_assoc]

/-- A scan that does not throw finds all there is, and adds it to the count it
starts from. -/
theorem scanOuts_ok {outs : List FoundOut} {got got' : Nat}
    (h : env.scanOuts tx minerTx txPubKey got = .ok (outs, got')) :
    outs = env.foundOuts tx minerTx txPubKey ∧
      got' = (if env.restarts tx minerTx txPubKey then 0 else got) + FoundOut.total outs ∧
      ((∀ o ∈ tx.vout, o.amount < 2 ^ 64) → got < 2 ^ 64 → got' < 2 ^ 64) := by
  unfold scanOuts at h
  split at h
  · rename_i hno
    cases h
    simp [foundOuts, restarts, threaded, hno]
  rename_i hno
  by_cases hopt : minerTx = true ∧ env.refreshType = .optimizeCoinbase
  · -- only the first output decides whether the others are looked at
    rw [if_pos hopt] at h
    unfold scanCoinbase at h
    have hfound : env.foundOuts tx minerTx txPubKey =
        if env.foundFrom tx.rctSignatures true txPubKey 0 (tx.vout.take 1) = [] then []
        else env.foundFrom tx.rctSignatures true txPubKey 0 tx.vout := by
      rw [foundOuts, if_neg hno, if_pos hopt]
    have hrestarts : env.restarts tx minerTx txPubKey =
        decide (env.foundOuts tx minerTx txPubKey ≠ []) := by
      simp [restarts, threaded, hopt]
    rw [hrestarts, hfound]
    cases hvout : tx.vout with
    | nil =>
      rw [hvout] at h
      cases h
      simp [foundFrom]
    | cons o vout =>
      rw [hvout] at h
      dsimp only at h
      split at h
      · cases h
      · rename_i hcheck
        cases h
        simp [foundFrom, hcheck]
      · rename_i found hcheck
        obtain ⟨houts, hgot, hlt⟩ := scanLoop_ok h
        refine ⟨by simp [foundFrom, hcheck, houts], ?_, fun hamounts _ => hlt ?_⟩
        · simp [foundFrom, hcheck, houts, hgot]
        · exact amount_lt_of_checkAccOutPrecomp hcheck (hamounts o (by simp))
  rw [if_neg hopt] at h
  have hfound : env.foundOuts tx minerTx txPubKey =
      env.foundFrom tx.rctSignatures (!minerTx) txPubKey 0 tx.vout := by
    rw [foundOuts, if_neg hno, if_neg hopt]
  have hrestarts : env.restarts tx minerTx txPubKey =
      decide (1 < tx.vout.length ∧ 1 < env.threads) := by
    cases minerTx with
    | false => simp [restarts, threaded]
    | true =>
      have hno' : env.refreshType ≠ .noCoinbase := fun heq => hno ⟨rfl, heq⟩
      have hopt' : env.refreshType ≠ .optimizeCoinbase := fun heq => hopt ⟨rfl, heq⟩
      simp [restarts, threaded, hno', hopt']
  rw [hrestarts, hfound]
  split at h
  · rename_i hthreads
    obtain ⟨houts, hgot, hlt⟩ := scanLoop_ok h
    rw [if_pos (decide_eq_true hthreads)]
    exact ⟨by simpa using houts, by simpa [houts] using hgot, fun _ _ => hlt (by decide)⟩
  · rename_i hthreads
    obtain ⟨houts, hgot, hlt⟩ := scanLoop_ok h
    rw [if_neg (by simpa using hthreads)]
    exact ⟨by simpa using houts, by simpa [houts] using hgot, fun _ => hlt⟩

end WalletEnv

/-! ### Entering an output -/

open WalletEnv (Totals)

section Steps

variable {env : WalletEnv} {t : NewTransaction} {pkIndex : Nat} {found : FoundOut}
  {totals totals' : Totals} {w w' : Wallet2}

variable {txPubKey : PublicKey} {P : Wallet2 → Prop}

theorem publicKey_newTransfer (h : found.Of env t.tx txPubKey) :
    (newTransfer env t pkIndex found).getPublicKey = some found.pub := by
  change (t.tx.vout[found.index]?).bind (·.target.key?) = _
  rw [h.out, Option.bind_some, h.target]
  rfl

theorem publicKey_replacedTransfer (h : found.Of env t.tx txPubKey) (td : TransferDetails) :
    (replacedTransfer t pkIndex found td).getPublicKey = some found.pub := by
  change (t.tx.vout[found.index]?).bind (·.target.key?) = _
  rw [h.out, Option.bind_some, h.target]
  rfl

/-- What the body of the loop over `outs` can do. -/
inductive RecordStep (env : WalletEnv) (t : NewTransaction) (pkIndex : Nat) (found : FoundOut)
    (totals : Totals) (w : Wallet2) : Totals → Wallet2 → Prop
  /-- The key is new. -/
  | new (hkey : w.pubKeys found.pub = none) :
      RecordStep env t pkIndex found totals w
        ⟨totals.got, u64 (totals.received + found.amountS)⟩
        (if t.pool then w else w.pushTransfer found.pub (newTransfer env t pkIndex found))
  /-- The key has a transfer that is spent or at least as large. -/
  | ignored {idx : Nat} {td : TransferDetails} (hkey : w.pubKeys found.pub = some idx)
      (htd : w.transfers[idx]? = some td) (hkept : td.spent = true ∨ found.out.amount ≤ td.amount) :
      RecordStep env t pkIndex found totals w totals w
  /-- The key has a smaller transfer. -/
  | replaced {idx : Nat} {td : TransferDetails} (hkey : w.pubKeys found.pub = some idx)
      (htd : w.transfers[idx]? = some td) (hunspent : td.spent = false)
      (hlarger : td.amount < found.out.amount) (hgot : found.out.amount ≤ totals.got) :
      RecordStep env t pkIndex found totals w
        ⟨totals.got - td.amount, u64 (totals.received + (found.amountS - td.amount))⟩
        (if t.pool then w else w.setTransfer idx (replacedTransfer t pkIndex found td))

theorem RecordStep.inRange (h : RecordStep env t pkIndex found totals w totals' w') {idx : Nat}
    (hidx : w.pubKeys found.pub = some idx) : w.transfers[idx]? ≠ none := by
  cases h with
  | new hkey => simp [hkey] at hidx
  | ignored hkey htd _ =>
    rw [hkey] at hidx
    cases hidx
    simp [htd]
  | replaced hkey htd _ _ _ =>
    rw [hkey] at hidx
    cases hidx
    simp [htd]

/-- Entering an output takes a step, or throws and leaves the wallet as it was. -/
theorem recordOut_cases (hfound : found.Of env t.tx txPubKey) (totals : Totals) (w : Wallet2) :
    (∃ totals' w', recordOut env t pkIndex found totals w = .ok totals' w' ∧
      RecordStep env t pkIndex found totals w totals' w') ∨
    (∃ e, recordOut env t pkIndex found totals w = .error (.error e) w ∧
      ((∃ idx, w.pubKeys found.pub = some idx ∧ w.transfers[idx]? = none) ∨
        totals.got < found.out.amount)) := by
  unfold recordOut
  rw [get_bind]
  cases hkey : w.pubKeys found.pub with
  | none =>
    have hstep : RecordStep env t pkIndex found totals w _ _ := .new hkey
    left
    cases hpool : t.pool with
    | true => exact ⟨_, _, rfl, by simpa [hpool] using hstep⟩
    | false => exact ⟨_, _, rfl, by simpa [hpool] using hstep⟩
  | some idx =>
    dsimp only
    cases htd : w.transfers[idx]? with
    | none => exact .inr ⟨_, rfl, .inl ⟨idx, rfl, htd⟩⟩
    | some td =>
      dsimp only
      split
      · rename_i hkept
        exact .inl ⟨_, _, rfl, .ignored hkey htd hkept⟩
      rename_i hkept
      split
      · rename_i hgot
        exact .inr ⟨_, rfl, .inr hgot⟩
      rename_i hgot
      obtain ⟨hunspent, hlarger⟩ := not_or.mp hkept
      have hstep : RecordStep env t pkIndex found totals w _ _ :=
        .replaced hkey htd (Bool.eq_false_iff.mpr hunspent) (Nat.lt_of_not_le hlarger)
          (Nat.le_of_not_lt hgot)
      left
      cases hpool : t.pool with
      | true => exact ⟨_, _, rfl, by simpa [hpool] using hstep⟩
      | false =>
        refine ⟨_, _, ?_, by simpa [hpool] using hstep⟩
        rw [if_pos rfl, modify_bind,
          if_neg (not_not.mpr (publicKey_replacedTransfer hfound td))]
        rfl

/-! ### Rules for whole calls -/

theorem recordOuts_cons (outs : List FoundOut) :
    recordOuts env t pkIndex (found :: outs) totals =
      recordOut env t pkIndex found totals >>= recordOuts env t pkIndex outs := rfl

/-- A property that every step keeps holds after the loop over `outs`. -/
theorem recordOuts_final {all : List FoundOut}
    (hstep : ∀ {found totals totals' w w'}, found ∈ all → found.Of env t.tx txPubKey → P w →
      RecordStep env t pkIndex found totals w totals' w' → P w') (outs : List FoundOut)
    (hof : ∀ found ∈ outs, found ∈ all ∧ found.Of env t.tx txPubKey) (totals : Totals) (w : Wallet2)
    (hw : P w) : P (final (recordOuts env t pkIndex outs totals w)) := by
  induction outs generalizing totals w with
  | nil => exact hw
  | cons found outs ih =>
    obtain ⟨hmem, hfound⟩ := hof found (by simp)
    have hrest := ih fun f hf => hof f (by simp [hf])
    rw [recordOuts_cons]
    rcases recordOut_cases hfound totals w with ⟨totals', w', hok, hrec⟩ | ⟨e, herror, -⟩
    · rw [bind_ok hok]
      exact hrest totals' w' (hstep hmem hfound hw hrec)
    · rwa [bind_error herror]

/-- A turn of the loop over the public keys throws, or enters what the scan found. -/
theorem scanPubKey_cases (txPubKey : PublicKey) (totals : Totals) (w : Wallet2) :
    (∃ e, scanPubKey env t pkIndex txPubKey totals w = .error (.error e) w) ∨
    ∃ got, env.scanOuts t.tx t.minerTx txPubKey totals.got =
        .ok (env.foundOuts t.tx t.minerTx txPubKey, got) ∧
      scanPubKey env t pkIndex txPubKey totals w =
        recordOuts env t pkIndex (env.foundOuts t.tx t.minerTx txPubKey) { totals with got } w := by
  unfold scanPubKey
  cases hscan : env.scanOuts t.tx t.minerTx txPubKey totals.got with
  | error e => exact .inl ⟨e, rfl⟩
  | ok result =>
    obtain ⟨outs, got⟩ := result
    obtain ⟨rfl, -⟩ := WalletEnv.scanOuts_ok hscan
    dsimp only
    split
    · exact .inl ⟨_, rfl⟩
    · exact .inr ⟨got, rfl, rfl⟩

theorem scanPubKey_final
    (hstep : ∀ {found totals totals' w w'}, found ∈ env.foundOuts t.tx t.minerTx txPubKey →
      found.Of env t.tx txPubKey → P w →
      RecordStep env t pkIndex found totals w totals' w' → P w') (totals : Totals) (w : Wallet2)
    (hw : P w) : P (final (scanPubKey env t pkIndex txPubKey totals w)) := by
  rcases scanPubKey_cases txPubKey totals w with ⟨e, herror⟩ | ⟨got, -, hrecord⟩
  · rwa [herror]
  · rw [hrecord]
    exact recordOuts_final hstep _ (fun _ hf => ⟨hf, WalletEnv.of_mem_foundOuts hf⟩) _ w hw

theorem scanPubKeys_cons (keys : List PublicKey) :
    scanPubKeys env t pkIndex (txPubKey :: keys) totals =
      scanPubKey env t pkIndex txPubKey totals >>= scanPubKeys env t (pkIndex + 1) keys := rfl

/-- ... and after the loop over the public keys. -/
theorem scanPubKeys_final (keys : List PublicKey)
    (hstep : ∀ {pkIndex txPubKey found totals totals' w w'}, txPubKey ∈ keys →
      found ∈ env.foundOuts t.tx t.minerTx txPubKey → found.Of env t.tx txPubKey → P w →
      RecordStep env t pkIndex found totals w totals' w' → P w')
    (pkIndex : Nat) (totals : Totals) (w : Wallet2) (hw : P w) :
    P (final (scanPubKeys env t pkIndex keys totals w)) := by
  induction keys generalizing pkIndex totals w with
  | nil => exact hw
  | cons txPubKey keys ih =>
    have hrest := ih fun hmem => hstep (List.mem_cons_of_mem _ hmem)
    have hfirst : P (final (scanPubKey env t pkIndex txPubKey totals w)) :=
      scanPubKey_final (hstep List.mem_cons_self) totals w hw
    rw [scanPubKeys_cons]
    cases hscan : scanPubKey env t pkIndex txPubKey totals w with
    | ok totals' w' =>
      rw [bind_ok hscan]
      rw [hscan] at hfirst
      exact hrest _ totals' w' hfirst
    | error e w' =>
      rw [bind_error hscan]
      rwa [hscan] at hfirst

def Wallet2.spentBy (w : Wallet2) (i : TxIn) : Option (Nat × TransferDetails) := do
  let kImage ← i.keyImage?
  let idx ← w.keyImages kImage
  let td ← w.transfers[idx]?
  pure (idx, td)

/-- An input spends nothing of the wallet, or a transfer, or something is thrown. -/
theorem spendInput_cases (t : NewTransaction) (i : TxIn) (spent : Nat) (w : Wallet2) :
    (w.spentBy i = none ∧ spendInput t i spent w = .ok spent w) ∨
    (∃ e, spendInput t i spent w = .error e w ∧ e ≠ .exit) ∨
    (∃ idx td, w.spentBy i = some (idx, td) ∧ w.transfers[idx]? = some td ∧
      spendInput t i spent w =
        .ok (u64 (spent + td.amount)) (if t.pool then w else w.setSpent idx t.height)) := by
  cases i with
  | gen height => exact .inl ⟨rfl, rfl⟩
  | toScript prev prevout sigset => exact .inl ⟨rfl, rfl⟩
  | toScripthash prev prevout script sigset => exact .inl ⟨rfl, rfl⟩
  | toKey amount offsets kImage =>
    have hspent : w.spentBy (.toKey amount offsets kImage) =
        (w.keyImages kImage).bind fun idx => (w.transfers[idx]?).map fun td => (idx, td) := by
      simp [Wallet2.spentBy, TxIn.keyImage?, Option.map_eq_bind]
    rw [spendInput, get_bind, hspent]
    cases hkey : w.keyImages kImage with
    | none => exact .inl ⟨rfl, rfl⟩
    | some idx =>
      dsimp only
      cases htd : w.transfers[idx]? with
      | none => exact .inr (.inl ⟨.undefined, rfl, by decide⟩)
      | some td =>
        dsimp only
        split
        · exact .inr (.inl ⟨_, rfl, by simp⟩)
        · refine .inr (.inr ⟨idx, td, by simp [htd], htd, ?_⟩)
          cases hpool : t.pool <;> rfl

theorem spendInputs_cons (i : TxIn) (vin : List TxIn) (spent : Nat) :
    spendInputs t (i :: vin) spent = spendInput t i spent >>= spendInputs t vin := rfl

/-- A property that `set_spent` keeps holds after the loop over the inputs. -/
theorem spendInputs_final {all : List TxIn}
    (hspend : ∀ {w i idx td}, P w → t.pool = false → i ∈ all → w.spentBy i = some (idx, td) →
      w.transfers[idx]? = some td → P (w.setSpent idx t.height)) (vin : List TxIn)
    (hall : ∀ i ∈ vin, i ∈ all) (spent : Nat) (w : Wallet2) (hw : P w) :
    P (final (spendInputs t vin spent w)) := by
  induction vin generalizing spent w with
  | nil => exact hw
  | cons i vin ih =>
    have hrest := ih fun j hj => hall j (by simp [hj])
    rw [spendInputs_cons]
    rcases spendInput_cases t i spent w with ⟨-, hok⟩ | ⟨e, herror, -⟩ | ⟨idx, td, hspent, htd, hok⟩
    · rw [bind_ok hok]
      exact hrest spent w hw
    · rwa [bind_error herror]
    · rw [bind_ok hok]
      refine hrest _ _ ?_
      cases hpool : t.pool with
      | true => exact hw
      | false => exact hspend hw hpool (hall i (by simp)) hspent htd

def enterSpent (t : NewTransaction) (spent : Nat) (totals : Totals) (w : Wallet2) : Wallet2 :=
  if 0 < spent then processOutgoing t spent totals.got w else w

theorem settleTransaction_eq {spent : Nat} (h : spendInputs t t.tx.vin 0 w = .ok spent w') :
    settleTransaction env t totals w =
      if spent < totals.got then
        if totals.received ≠ totals.got then .error .exit (enterSpent t spent totals w')
        else .ok ⟨⟩ (addPayment env t (totals.got - spent) (enterSpent t spent totals w'))
      else .ok ⟨⟩ (enterSpent t spent totals w') := by
  unfold settleTransaction enterSpent
  rw [bind_ok h]
  by_cases hspent : 0 < spent <;> by_cases hgot : spent < totals.got <;>
    by_cases hequal : totals.received ≠ totals.got <;> simp [hspent, hgot, hequal]

def afterUnconfirmed (env : WalletEnv) (t : NewTransaction) (w : Wallet2) : Wallet2 :=
  if t.minerTx then w else processUnconfirmed env t.txid t.height w

def scannedKeys (t : NewTransaction) : List PublicKey :=
  if t.tx.vout = [] then [] else txPubKeys t.tx.extra

/-- The outputs of a transaction that are paid to the wallet, under any public key. -/
def paidOuts (env : WalletEnv) (t : NewTransaction) : List FoundOut :=
  (scannedKeys t).flatMap (env.foundOuts t.tx t.minerTx)

/-- A call is the loop over the public keys and the settlement, unless there are
outputs and no public key. -/
theorem processTx_eq (env : WalletEnv) (t : NewTransaction) (w : Wallet2) :
    processNewTransaction env t w =
      if t.tx.vout ≠ [] ∧ txPubKeys t.tx.extra = [] then .ok ⟨⟩ (afterUnconfirmed env t w)
      else (scanPubKeys env t 0 (scannedKeys t) ⟨0, 0⟩ >>= settleTransaction env t)
        (afterUnconfirmed env t w) := by
  unfold processNewTransaction afterUnconfirmed scannedKeys
  by_cases hvout : t.tx.vout = []
  · simp only [hvout, if_true, ne_eq, not_true_eq_false, false_and, if_false]
    cases t.minerTx <;> rfl
  · by_cases hkeys : txPubKeys t.tx.extra = [] <;> cases t.minerTx <;> simp [hvout, hkeys]

/-- A property of the wallet that the end of a call keeps, behind the loop over the
public keys. -/
structure SettleInvariant (env : WalletEnv) (t : NewTransaction) (P : Wallet2 → Prop) : Prop where
  spend : ∀ {w i idx td}, P w → t.pool = false → i ∈ t.tx.vin → w.spentBy i = some (idx, td) →
    w.transfers[idx]? = some td → P (w.setSpent idx t.height)
  outgoing : ∀ {w spent received}, P w → P (processOutgoing t spent received w)
  payment : ∀ {w received}, P w → P (addPayment env t received w)

/-- A property of the wallet that every part of a call keeps. -/
structure CallInvariant (env : WalletEnv) (t : NewTransaction) (P : Wallet2 → Prop) : Prop extends
    SettleInvariant env t P where
  unconfirmed : ∀ {w}, P w → P (processUnconfirmed env t.txid t.height w)
  record : ∀ {pkIndex txPubKey found totals totals' w w'}, found ∈ paidOuts env t →
    found.Of env t.tx txPubKey → P w → RecordStep env t pkIndex found totals w totals' w' → P w'

theorem SettleInvariant.settleTransaction (h : SettleInvariant env t P) (totals : Totals)
    (hw : P w) : P (final (Lethean.settleTransaction env t totals w)) := by
  have hspent := spendInputs_final h.spend t.tx.vin (fun _ => id) 0 w hw
  cases hspend : spendInputs t t.tx.vin 0 w with
  | error e w1 =>
    rw [Lethean.settleTransaction, bind_error hspend]
    rwa [hspend] at hspent
  | ok spent w1 =>
    rw [hspend] at hspent
    have hentered : P (enterSpent t spent totals w1) := by
      unfold enterSpent
      split
      · exact h.outgoing hspent
      · exact hspent
    rw [settleTransaction_eq hspend]
    split
    · split
      · exact hentered
      · exact h.payment hentered
    · exact hentered

/-- It holds after the call, however that ends. -/
theorem CallInvariant.processNewTransaction (h : CallInvariant env t P) (hw : P w) :
    P (final (Lethean.processNewTransaction env t w)) := by
  have hstart : P (afterUnconfirmed env t w) := by
    unfold afterUnconfirmed
    split
    · exact hw
    · exact h.unconfirmed hw
  rw [processTx_eq]
  split
  · exact hstart
  have hscanned := scanPubKeys_final (scannedKeys t)
    (fun hkey hmem => h.record (List.mem_flatMap.mpr ⟨_, hkey, hmem⟩)) 0 ⟨0, 0⟩ _ hstart
  cases hscan : scanPubKeys env t 0 (scannedKeys t) ⟨0, 0⟩ (afterUnconfirmed env t w) with
  | error e w1 =>
    rw [bind_error hscan]
    rwa [hscan] at hscanned
  | ok totals w1 =>
    rw [bind_ok hscan]
    rw [hscan] at hscanned
    exact h.settleTransaction totals hscanned

end Steps

end Lethean
