import Lethean.Wallet.ScanSteps

/-!
# Lethean.Wallet.Accounting

When do the two totals of `process_new_transaction` agree? `total_received_1` grows
by what an output adds to the transfers. `tx_money_got_in_outs` also keeps what is
ignored because its key is known already, and loses what was found before the count
was started again, which the scan with threads does for every public key.

So the call exits unless the one makes up for the other, or the transaction spends
at least as much as it pays. For the same reason the scans with and without threads
disagree as soon as something is found under a public key other than the last one.
-/

namespace Lethean

open Frame
open WalletEnv (Totals)

/-! ### What is credited and what is ignored -/

namespace Wallet2

def transferOf (w : Wallet2) (pub : PublicKey) : Option TransferDetails :=
  (w.pubKeys pub).bind (w.transfers[·]?)

def ignores (w : Wallet2) (found : FoundOut) : Bool :=
  (w.transferOf found.pub).any fun td => td.spent || decide (found.out.amount ≤ td.amount)

/-- What an output adds to the transfers, less what it replaces. -/
def credit (w : Wallet2) (found : FoundOut) : Nat :=
  if w.ignores found then 0
  else found.amount - ((w.transferOf found.pub).map (·.amount)).getD 0

def ignored (w : Wallet2) (found : FoundOut) : Nat :=
  if w.ignores found then found.amount else 0

def enterOut (env : WalletEnv) (t : NewTransaction) (pkIndex : Nat) (w : Wallet2)
    (found : FoundOut) : Wallet2 :=
  if t.pool then w
  else
    match w.pubKeys found.pub with
    | none => w.pushTransfer found.pub (newTransfer env t pkIndex found)
    | some idx =>
      match w.transfers[idx]? with
      | none => w
      | some td =>
        if w.ignores found then w
        else w.setTransfer idx (replacedTransfer t pkIndex found td)

/-- What `m_transfers` holds in all. -/
def transfersTotal (w : Wallet2) : Nat := (w.transfers.map (·.amount)).sum

/-- What the inputs spend of the wallet's transfers, added to `spent`. -/
def spentIns (w : Wallet2) : List TxIn → Nat → Nat
  | [], spent => spent
  | i :: vin, spent =>
    match w.spentBy i with
    | none => spentIns w vin spent
    | some spentTransfer => spentIns w vin (u64 (spent + spentTransfer.2.amount))

end Wallet2

/-- What has been credited before the count was last started, and what has been
credited and ignored since. -/
structure Tally where
  creditedBefore : Nat
  credited : Nat
  ignored : Nat

namespace Tally

/-- What is found since the count was last started. -/
def found (tally : Tally) : Nat := tally.credited + tally.ignored

/-- What is credited in all. -/
def total (tally : Tally) : Nat := tally.creditedBefore + tally.credited

def restart (tally : Tally) : Tally := ⟨tally.total, 0, 0⟩

def add (tally : Tally) (credit ignored : Nat) : Tally :=
  { tally with credited := tally.credited + credit, ignored := tally.ignored + ignored }

end Tally

def tallyOuts (env : WalletEnv) (t : NewTransaction) (pkIndex : Nat) :
    List FoundOut → Tally → Wallet2 → Tally × Wallet2
  | [], tally, w => (tally, w)
  | found :: outs, tally, w =>
    tallyOuts env t pkIndex outs (tally.add (w.credit found) (w.ignored found))
      (w.enterOut env t pkIndex found)

/-- The outputs found under public keys from number `pkIndex` on. -/
def tallyKeys (env : WalletEnv) (t : NewTransaction) :
    Nat → List PublicKey → Tally → Wallet2 → Tally × Wallet2
  | _, [], tally, w => (tally, w)
  | pkIndex, txPubKey :: keys, tally, w =>
    let next := tallyOuts env t pkIndex (env.foundOuts t.tx t.minerTx txPubKey)
      (if env.restarts t.tx t.minerTx txPubKey then tally.restart else tally) w
    tallyKeys env t (pkIndex + 1) keys next.1 next.2

/-- The tally of a transaction, and the wallet with its outputs entered. -/
def tallyOf (env : WalletEnv) (t : NewTransaction) (w : Wallet2) : Tally × Wallet2 :=
  tallyKeys env t 0 (scannedKeys t) ⟨0, 0, 0⟩ (afterUnconfirmed env t w)

/-! ### The totals follow the tally -/

section Follow

variable {env : WalletEnv} {t : NewTransaction} {pkIndex : Nat} {found : FoundOut}
  {totals totals' : Totals} {w w' : Wallet2} {tally : Tally}

/-- A step enters the output, and credits it or ignores it. What it neither credits
nor ignores is taken off the count. -/
theorem RecordStep.enters {txPubKey : PublicKey} (hfound : found.Of env t.tx txPubKey)
    (h : RecordStep env t pkIndex found totals w totals' w') :
    w' = w.enterOut env t pkIndex found ∧
      totals'.got + found.amount = totals.got + w.credit found + w.ignored found ∧
      ∀ n, totals.received = u64 n → totals'.received = u64 (n + w.credit found) := by
  cases h with
  | new hkey =>
    have hignores : w.ignores found = false := by
      simp [Wallet2.ignores, Wallet2.transferOf, hkey]
    refine ⟨?_, ?_, ?_⟩
    · simp [Wallet2.enterOut, hkey]
    · simp [Wallet2.credit, Wallet2.ignored, hignores, Wallet2.transferOf, hkey]
    · intro n hn
      simp [Wallet2.credit, hignores, Wallet2.transferOf, hkey, hfound.amountS, hn, u64]
  | ignored hkey htd hkept =>
    have hignores : w.ignores found = true := by
      simpa [Wallet2.ignores, Wallet2.transferOf, hkey, htd] using hkept
    refine ⟨?_, ?_, ?_⟩
    · simp [Wallet2.enterOut, hkey, htd, hignores]
    · simp [Wallet2.credit, Wallet2.ignored, hignores]
    · intro n hn
      simpa [Wallet2.credit, hignores] using hn
  | @replaced idx td hkey htd hunspent hlarger hgot =>
    have hignores : w.ignores found = false := by
      simp [Wallet2.ignores, Wallet2.transferOf, hkey, htd, hunspent, hlarger]
    have hclear : found.amount = found.out.amount := hfound.amount (by omega)
    have hcredit : w.credit found = found.amount - td.amount := by
      simp [Wallet2.credit, hignores, Wallet2.transferOf, hkey, htd]
    refine ⟨?_, ?_, ?_⟩
    · simp [Wallet2.enterOut, hkey, htd, hignores]
    · simp only [hcredit, Wallet2.ignored, hignores]
      simp only [Bool.false_eq_true, if_false]
      omega
    · intro n hn
      simp [hcredit, hfound.amountS, hn, u64]

theorem transfersTotal_setTransfer {idx : Nat} {td : TransferDetails}
    (htd : w.transfers[idx]? = some td) (td' : TransferDetails) :
    (w.setTransfer idx td').transfersTotal + td.amount = w.transfersTotal + td'.amount := by
  obtain ⟨hlt, rfl⟩ := List.getElem?_eq_some_iff.mp htd
  have hsplit := (List.take_append_drop idx w.transfers).symm
  rw [← List.getElem_cons_drop hlt] at hsplit
  rw [Wallet2.transfersTotal, Wallet2.transfersTotal, Wallet2.setTransfer,
    List.set_eq_take_append_cons_drop, if_pos hlt]
  conv_rhs => rw [hsplit]
  simp only [List.map_append, List.map_cons, List.sum_append, List.sum_cons]
  omega

/-- What is credited is what the transfers gain. -/
theorem RecordStep.transfersTotal {txPubKey : PublicKey} (hfound : found.Of env t.tx txPubKey)
    (hpool : t.pool = false) (h : RecordStep env t pkIndex found totals w totals' w') :
    w'.transfersTotal = w.transfersTotal + w.credit found := by
  cases h with
  | new hkey =>
    simp [hpool, Wallet2.transfersTotal, newTransfer, hfound.amountS, Wallet2.credit,
      Wallet2.ignores, Wallet2.transferOf, hkey]
  | ignored hkey htd hkept =>
    have hignores : w.ignores found = true := by
      simpa [Wallet2.ignores, Wallet2.transferOf, hkey, htd] using hkept
    simp [Wallet2.credit, hignores]
  | @replaced idx td hkey htd hunspent hlarger hgot =>
    have hclear : found.amount = found.out.amount := hfound.amount (by omega)
    have hcredit : w.credit found = found.amount - td.amount := by
      simp [Wallet2.credit, Wallet2.ignores, Wallet2.transferOf, hkey, htd, hunspent, hlarger]
    have hset := transfersTotal_setTransfer htd (replacedTransfer t pkIndex found td)
    have hamount : (replacedTransfer t pkIndex found td).amount = found.amount := hfound.amountS
    simp only [hpool, Bool.false_eq_true, if_false]
    omega

/-- The totals during the loop over `outs`: what is still to come is counted
already. -/
structure Totals.Ahead (totals : Totals) (tally : Tally) (outs : List FoundOut) : Prop where
  got : totals.got = tally.found + FoundOut.total outs
  received : totals.received = u64 (tally.creditedBefore + tally.credited)

theorem recordOuts_tally {txPubKey : PublicKey} {outs : List FoundOut} {totals : Totals}
    {tally : Tally} {w : Wallet2} (hof : (∀ found ∈ outs, found.Of env t.tx txPubKey))
    (hahead : Totals.Ahead totals tally outs)
    (h : recordOuts env t pkIndex outs totals w = .ok totals' w') :
    Totals.Ahead totals' (tallyOuts env t pkIndex outs tally w).1 [] ∧
      w' = (tallyOuts env t pkIndex outs tally w).2 ∧
      (t.pool = false → w'.transfersTotal + tally.total =
        w.transfersTotal + (tallyOuts env t pkIndex outs tally w).1.total) := by
  induction outs generalizing totals tally w with
  | nil =>
    cases h
    exact ⟨hahead, rfl, fun _ => rfl⟩
  | cons found outs ih =>
    have hfound := hof found (by simp)
    rw [recordOuts_cons] at h
    rcases recordOut_cases hfound totals w with ⟨totals1, w1, hok, hrec⟩ | ⟨e, herror, -⟩
    · rw [bind_ok hok] at h
      obtain ⟨rfl, hgot, hreceived⟩ := hrec.enters hfound
      have hahead1 : Totals.Ahead totals1 (tally.add (w.credit found) (w.ignored found)) outs := by
        refine ⟨?_, ?_⟩
        · have hstart := hahead.got
          rw [FoundOut.total_cons] at hstart
          simp only [Tally.found, Tally.add] at hstart ⊢
          omega
        · rw [hreceived _ hahead.received, Nat.add_assoc]
          rfl
      obtain ⟨hahead', hw', htransfers⟩ := ih (fun f hf => hof f (by simp [hf])) hahead1 h
      refine ⟨hahead', hw', fun hpool => ?_⟩
      have hrest := htransfers hpool
      have hentered := hrec.transfersTotal hfound hpool
      simp only [tallyOuts, Tally.total, Tally.add] at hrest ⊢
      omega
    · rw [bind_error herror] at h
      cases h

/-- The totals between two turns of the loop over the public keys. -/
def Totals.Follow (totals : Totals) (tally : Tally) : Prop := Totals.Ahead totals tally []

theorem scanPubKey_tally {txPubKey : PublicKey} (hfollow : Totals.Follow totals tally)
    (h : scanPubKey env t pkIndex txPubKey totals w = .ok totals' w') :
    Totals.Follow totals' (tallyOuts env t pkIndex (env.foundOuts t.tx t.minerTx txPubKey)
        (if env.restarts t.tx t.minerTx txPubKey then tally.restart else tally) w).1 ∧
      w' = (tallyOuts env t pkIndex (env.foundOuts t.tx t.minerTx txPubKey)
        (if env.restarts t.tx t.minerTx txPubKey then tally.restart else tally) w).2 ∧
      (t.pool = false → w'.transfersTotal + tally.total = w.transfersTotal +
        (tallyOuts env t pkIndex (env.foundOuts t.tx t.minerTx txPubKey)
          (if env.restarts t.tx t.minerTx txPubKey then tally.restart else tally) w).1.total) := by
  rcases scanPubKey_cases txPubKey totals w with ⟨e, herror⟩ | ⟨got, hscan, hrecord⟩
  · cases herror.symm.trans h
  obtain ⟨-, hgot, -⟩ := WalletEnv.scanOuts_ok hscan
  have htotal : (if env.restarts t.tx t.minerTx txPubKey then tally.restart else tally).total =
      tally.total := by
    split <;> rfl
  rw [← htotal]
  refine recordOuts_tally (fun _ => WalletEnv.of_mem_foundOuts) ⟨?_, ?_⟩ (hrecord.symm.trans h)
  · have hbefore : totals.got = tally.found := hfollow.got
    rw [hgot]
    cases env.restarts t.tx t.minerTx txPubKey with
    | true => simp [Tally.restart, Tally.found]
    | false => simp [hbefore]
  · have hbefore := hfollow.received
    cases env.restarts t.tx t.minerTx txPubKey with
    | true => simpa [Tally.restart, Tally.total] using hbefore
    | false => simpa using hbefore

theorem scanPubKeys_tally {keys : List PublicKey} {pkIndex : Nat} {totals : Totals}
    {tally : Tally} {w : Wallet2} (hfollow : Totals.Follow totals tally)
    (h : scanPubKeys env t pkIndex keys totals w = .ok totals' w') :
    Totals.Follow totals' (tallyKeys env t pkIndex keys tally w).1 ∧
      w' = (tallyKeys env t pkIndex keys tally w).2 ∧
      (t.pool = false → w'.transfersTotal + tally.total =
        w.transfersTotal + (tallyKeys env t pkIndex keys tally w).1.total) := by
  induction keys generalizing pkIndex totals tally w with
  | nil =>
    cases h
    exact ⟨hfollow, rfl, fun _ => rfl⟩
  | cons txPubKey keys ih =>
    rw [scanPubKeys_cons] at h
    obtain ⟨totals1, w1, hfirst, hrest⟩ := bind_eq_ok.mp h
    obtain ⟨hfollow1, rfl, htransfers1⟩ := scanPubKey_tally hfollow hfirst
    obtain ⟨hfollow', hw', htransfers⟩ := ih hfollow1 hrest
    refine ⟨hfollow', hw', fun hpool => ?_⟩
    have hkey := htransfers1 hpool
    have hkeys := htransfers hpool
    rw [tallyKeys]
    omega

theorem RecordStep.got_le (h : RecordStep env t pkIndex found totals w totals' w') :
    totals'.got ≤ totals.got := by
  cases h with
  | new => exact le_rfl
  | ignored => exact le_rfl
  | replaced => exact Nat.sub_le _ _

theorem recordOuts_got_le {txPubKey : PublicKey} {outs : List FoundOut} {totals : Totals}
    {w : Wallet2} (hof : (∀ found ∈ outs, found.Of env t.tx txPubKey))
    (h : recordOuts env t pkIndex outs totals w = .ok totals' w') : totals'.got ≤ totals.got := by
  induction outs generalizing totals w with
  | nil =>
    cases h
    exact le_rfl
  | cons found outs ih =>
    rw [recordOuts_cons] at h
    rcases recordOut_cases (hof found (by simp)) totals w with
      ⟨totals1, w1, hok, hrec⟩ | ⟨e, herror, -⟩
    · rw [bind_ok hok] at h
      exact (ih (fun f hf => hof f (by simp [hf])) h).trans hrec.got_le
    · rw [bind_error herror] at h
      cases h

theorem scanPubKeys_got_lt (hamounts : ∀ o ∈ t.tx.vout, o.amount < 2 ^ 64) {keys : List PublicKey}
    {pkIndex : Nat} {totals : Totals} {w : Wallet2} (hlt : totals.got < 2 ^ 64)
    (h : scanPubKeys env t pkIndex keys totals w = .ok totals' w') : totals'.got < 2 ^ 64 := by
  induction keys generalizing pkIndex totals w with
  | nil =>
    cases h
    exact hlt
  | cons txPubKey keys ih =>
    rw [scanPubKeys_cons] at h
    obtain ⟨totals1, w1, hfirst, hrest⟩ := bind_eq_ok.mp h
    refine ih ?_ hrest
    rcases scanPubKey_cases txPubKey totals w with ⟨e, herror⟩ | ⟨got, hscan, hrecord⟩
    · cases herror.symm.trans hfirst
    · obtain ⟨-, -, hgot⟩ := WalletEnv.scanOuts_ok hscan
      exact (recordOuts_got_le (fun _ => WalletEnv.of_mem_foundOuts)
        (hrecord.symm.trans hfirst)).trans_lt (hgot hamounts hlt)

/-! ### What is spent -/

theorem spentIns_setSpent (w : Wallet2) (idx height : Nat) (vin : List TxIn) (spent : Nat) :
    (w.setSpent idx height).spentIns vin spent = w.spentIns vin spent := by
  induction vin generalizing spent with
  | nil => rfl
  | cons i vin ih =>
    have hspent : (w.setSpent idx height).spentBy i =
        (w.spentBy i).map fun p => (p.1, if idx = p.1 then p.2.spentAt height else p.2) := by
      unfold Wallet2.spentBy
      cases hi : i.keyImage? with
      | none => rfl
      | some kImage =>
        simp only [Option.bind_eq_bind, Option.bind_some, Wallet2.setSpent_keyImages]
        cases w.keyImages kImage with
        | none => rfl
        | some j =>
          simp only [Option.bind_some, Wallet2.getElem?_setSpent]
          cases w.transfers[j]? <;> rfl
    rw [Wallet2.spentIns, Wallet2.spentIns, hspent]
    cases w.spentBy i with
    | none => exact ih spent
    | some p =>
      have hamount : (if idx = p.1 then p.2.spentAt height else p.2).amount = p.2.amount := by
        split <;> rfl
      simp only [Option.map_some, hamount]
      exact ih _

theorem spendInputs_spent {spent' : Nat} {vin : List TxIn} {spent : Nat} {w : Wallet2}
    (h : spendInputs t vin spent w = .ok spent' w') : spent' = w.spentIns vin spent := by
  induction vin generalizing spent w with
  | nil =>
    cases h
    rfl
  | cons i vin ih =>
    rw [spendInputs_cons] at h
    rw [Wallet2.spentIns]
    rcases spendInput_cases t i spent w with ⟨hnone, hok⟩ | ⟨e, herror, -⟩ | ⟨idx, td, hsome, -, hok⟩
    · rw [bind_ok hok] at h
      rw [hnone]
      exact ih h
    · rw [bind_error herror] at h
      cases h
    · rw [bind_ok hok] at h
      rw [hsome]
      split at h
      · exact ih h
      exact (ih h).trans (spentIns_setSpent _ _ _ _ _)

end Follow

/-! ### The call exits -/

/-- The call returns or exits: nothing is thrown. -/
def NoException (env : WalletEnv) (t : NewTransaction) (w : Wallet2) : Prop :=
  ∀ halt, thrown (processNewTransaction env t w) = some halt → halt = .exit

/-- `tx_money_got_in_outs` when the outputs are scanned, the total recorded as received. -/
def moneyGot (env : WalletEnv) (t : NewTransaction) (w : Wallet2) : Option Nat :=
  match scanPubKeys env t 0 (scannedKeys t) ⟨0, 0⟩ (afterUnconfirmed env t w) with
  | .ok totals _ => some totals.got
  | .error _ _ => none

section Exits

variable {env : WalletEnv} {t : NewTransaction} {w : Wallet2}

theorem recordOuts_ne_exit {pkIndex : Nat} {txPubKey : PublicKey} {w w' : Wallet2}
    {outs : List FoundOut} {totals : Totals} (hof : ∀ found ∈ outs, found.Of env t.tx txPubKey) :
    recordOuts env t pkIndex outs totals w ≠ .error .exit w' := by
  intro h
  induction outs generalizing totals w with
  | nil => cases h
  | cons found outs ih =>
    rw [recordOuts_cons] at h
    rcases recordOut_cases (hof found (by simp)) totals w with ⟨totals1, w1, hok, -⟩ | ⟨e, herror, -⟩
    · rw [bind_ok hok] at h
      exact ih (fun f hf => hof f (by simp [hf])) h
    · rw [bind_error herror] at h
      cases h

theorem scanPubKeys_ne_exit {w w' : Wallet2} {keys : List PublicKey} {pkIndex : Nat}
    {totals : Totals} : scanPubKeys env t pkIndex keys totals w ≠ .error .exit w' := by
  intro h
  induction keys generalizing pkIndex totals w with
  | nil => cases h
  | cons txPubKey keys ih =>
    rw [scanPubKeys_cons] at h
    cases hfirst : scanPubKey env t pkIndex txPubKey totals w with
    | ok totals1 w1 =>
      rw [bind_ok hfirst] at h
      exact ih h
    | error e w1 =>
      rw [bind_error hfirst] at h
      cases h
      rcases scanPubKey_cases txPubKey totals w with ⟨e, herror⟩ | ⟨got, -, hrecord⟩
      · cases herror.symm.trans hfirst
      · exact recordOuts_ne_exit (fun _ => WalletEnv.of_mem_foundOuts) (hrecord.symm.trans hfirst)

theorem spendInputs_ne_exit {w w' : Wallet2} {vin : List TxIn} {spent : Nat} :
    spendInputs t vin spent w ≠ .error .exit w' := by
  intro h
  induction vin generalizing spent w with
  | nil => cases h
  | cons i vin ih =>
    rw [spendInputs_cons] at h
    rcases spendInput_cases t i spent w with ⟨-, hok⟩ | ⟨e, herror, hne⟩ | ⟨idx, td, -, -, hok⟩
    · rw [bind_ok hok] at h
      exact ih h
    · rw [bind_error herror] at h
      cases h
      exact hne rfl
    · rw [bind_ok hok] at h
      exact ih h

/-- A call that throws nothing has scanned the outputs and added up the inputs. -/
theorem processTx_noException (h : NoException env t w)
    (hkeys : t.tx.vout = [] ∨ txPubKeys t.tx.extra ≠ []) :
    ∃ totals w2, scanPubKeys env t 0 (scannedKeys t) ⟨0, 0⟩ (afterUnconfirmed env t w) =
        .ok totals (tallyOf env t w).2 ∧ Totals.Follow totals (tallyOf env t w).1 ∧
      spendInputs t t.tx.vin 0 (tallyOf env t w).2 =
        .ok ((tallyOf env t w).2.spentIns t.tx.vin 0) w2 ∧
      processNewTransaction env t w = settleTransaction env t totals (tallyOf env t w).2 := by
  have hcall := processTx_eq env t w
  rw [if_neg (by tauto)] at hcall
  cases hscan : scanPubKeys env t 0 (scannedKeys t) ⟨0, 0⟩ (afterUnconfirmed env t w) with
  | error e w1 =>
    rw [bind_error hscan] at hcall
    obtain rfl := h e (by rw [hcall]; rfl)
    exact absurd hscan scanPubKeys_ne_exit
  | ok totals w1 =>
    have hstart : Totals.Follow ⟨0, 0⟩ ⟨0, 0, 0⟩ := ⟨rfl, rfl⟩
    obtain ⟨hfollow, hw1, -⟩ := scanPubKeys_tally hstart hscan
    obtain rfl : w1 = (tallyOf env t w).2 := hw1
    rw [bind_ok hscan] at hcall
    cases hspend : spendInputs t t.tx.vin 0 (tallyOf env t w).2 with
    | error e w2 =>
      have hsettle : processNewTransaction env t w = .error e w2 := by
        rw [hcall, settleTransaction, bind_error hspend]
      obtain rfl := h e (by rw [hsettle]; rfl)
      exact absurd hspend spendInputs_ne_exit
    | ok spent w2 =>
      refine ⟨totals, w2, rfl, hfollow, ?_, hcall⟩
      rw [← spendInputs_spent hspend]

/-- **When the accounts agree.** A call that throws nothing does not reach the consistency
failure and records what it credits, exactly if what was credited before the count was last
started is as much as what was ignored since. The credits are what the transfers gain. -/
theorem process_accounts_iff (hamounts : ∀ o ∈ t.tx.vout, o.amount < 2 ^ 64)
    (h : NoException env t w) :
    (thrown (processNewTransaction env t w) ≠ some .exit ∧
        moneyGot env t w = some (tallyOf env t w).1.total ↔
      (tallyOf env t w).1.creditedBefore = (tallyOf env t w).1.ignored) ∧
    (t.pool = false → (tallyOf env t w).2.transfersTotal =
      (afterUnconfirmed env t w).transfersTotal + (tallyOf env t w).1.total) := by
  by_cases hkeys : t.tx.vout = [] ∨ txPubKeys t.tx.extra ≠ []
  · obtain ⟨totals, w2, hscan, hfollow, hspend, hcall⟩ := processTx_noException h hkeys
    have hlt := scanPubKeys_got_lt hamounts (by decide) hscan
    have hgot : totals.got = (tallyOf env t w).1.found := hfollow.got
    have hreceived := hfollow.received
    have hagree : totals.got = (tallyOf env t w).1.total ↔
        (tallyOf env t w).1.creditedBefore = (tallyOf env t w).1.ignored := by
      simp only [Tally.found, Tally.total] at hgot ⊢
      omega
    constructor
    · rw [moneyGot, hscan, Option.some.injEq, hagree]
      refine ⟨fun hboth => hboth.2, fun hequal => ⟨?_, hequal⟩⟩
      -- the totals that the check compares are equal
      have hsame : totals.received = totals.got := by
        have htotal := hagree.mpr hequal
        rw [Tally.total] at htotal
        rw [hreceived, ← htotal, u64_of_lt hlt]
      rw [hcall, settleTransaction_eq hspend, if_neg (not_not.mpr hsame)]
      split <;> simp [thrown]
    · intro hpool
      have hstart : Totals.Follow ⟨0, 0⟩ ⟨0, 0, 0⟩ := ⟨rfl, rfl⟩
      exact (scanPubKeys_tally hstart hscan).2.2 hpool
  · -- without a public key nothing is scanned
    obtain ⟨hvout, hnone⟩ := not_or.mp hkeys
    rw [not_not] at hnone
    have hcall := processTx_eq env t w
    rw [if_pos ⟨hvout, hnone⟩] at hcall
    have hempty : scannedKeys t = [] := by rw [scannedKeys, if_neg hvout, hnone]
    rw [hcall, moneyGot, tallyOf, hempty]
    exact ⟨⟨fun _ => rfl, fun _ => ⟨by simp [thrown], rfl⟩⟩, fun _ => rfl⟩

end Exits

def repeatedKeyReceipt (n : Nat) : NewTransaction :=
  sampleReceipt (numberedHash 1) (List.replicate n (numberedHash 7))
    [⟨5, .toKey (sampleOneTimeKey (numberedHash 7) 0)⟩] [] [] 3

/-- An output of 8 to the one-time key of a transfer of 5. -/
def largerReceipt : NewTransaction :=
  sampleReceipt (numberedHash 2) [numberedHash 7]
    [⟨8, .toKey (sampleOneTimeKey (numberedHash 7) 0)⟩] [] [] 3

def walletWithFive : Wallet2 :=
  final (processNewTransaction sampleWalletEnv (repeatedKeyReceipt 1) (.fresh nullHash))

/-- The transfer of 5 is replaced: 3 are recorded and credited. -/
theorem process_accounts_iff_replaced :
    thrown (processNewTransaction sampleWalletEnv largerReceipt walletWithFive) ≠ some .exit ∧
    moneyGot sampleWalletEnv largerReceipt walletWithFive = some 3 := by
  have hnone : thrown (processNewTransaction sampleWalletEnv largerReceipt walletWithFive) =
      none := by decide +kernel
  have htotal : (tallyOf sampleWalletEnv largerReceipt walletWithFive).1.total = 3 := by
    decide +kernel
  rw [← htotal]
  refine (process_accounts_iff (by decide +kernel) fun halt hthrown => ?_).1.mpr
    (by decide +kernel)
  rw [hnone] at hthrown
  cases hthrown

/-- The key occurs twice: the output is counted twice and credited once. -/
theorem process_exits_with_repeated_key :
    thrown (processNewTransaction sampleWalletEnv (repeatedKeyReceipt 2) (.fresh nullHash)) =
      some .exit := by
  decide +kernel

end Lethean
