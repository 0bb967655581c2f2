import Lethean.Wallet.Accounting

/-!
# Lethean.Wallet.ScanThreads

The scan with several threads against the scan with one. Both find the same outputs
and enter the same transfers; they differ in `tx_money_got_in_outs`, which several
threads count from 0 again for every public key. What was found under the keys
before the last one is missing from it then, so that the call exits, or books a
smaller payment or none.
-/

namespace Lethean

open Frame
open WalletEnv (Totals)

/-- The wallet on a machine with `n` threads. -/
def WalletEnv.withThreads (env : WalletEnv) (n : Nat) : WalletEnv := { env with threads := n }

/-- The wallets agree on what they have. -/
structure SameWallet (w₁ w₂ : Wallet2) : Prop where
  transfers : w₁.transfers = w₂.transfers
  keyImages : w₁.keyImages = w₂.keyImages
  pubKeys : w₁.pubKeys = w₂.pubKeys
  payments : w₁.payments = w₂.payments
  unconfirmedPayments : w₁.unconfirmedPayments = w₂.unconfirmedPayments
  balance : w₁.balance = w₂.balance

theorem SameWallet.refl (w : Wallet2) : SameWallet w w := ⟨rfl, rfl, rfl, rfl, rfl, rfl⟩

/-- Two calls end in the same way, with such wallets. -/
def SameResult {α : Type} (r₁ r₂ : EStateM.Result Halt Wallet2 α) : Prop :=
  thrown r₁ = thrown r₂ ∧ SameWallet (final r₁) (final r₂)

section Threads

variable {env : WalletEnv} {t : NewTransaction} {pkIndex : Nat} {w w' : Wallet2}
  {totals totals' totals₁ totals₂ totals1' : Totals}

theorem foundFrom_withThreads (env : WalletEnv) (n : Nat) (rct : RctSig) (decode : Bool)
    (txPubKey : PublicKey) (vout : List TxOut) (i : Nat) :
    (env.withThreads n).foundFrom rct decode txPubKey i vout =
      env.foundFrom rct decode txPubKey i vout := by
  induction vout generalizing i with
  | nil => rfl
  | cons o vout ih =>
    rw [WalletEnv.foundFrom, WalletEnv.foundFrom, ih]
    rfl

@[simp] theorem foundOuts_withThreads (env : WalletEnv) (n : Nat) (tx : Transaction) (minerTx : Bool)
    (txPubKey : PublicKey) :
    (env.withThreads n).foundOuts tx minerTx txPubKey = env.foundOuts tx minerTx txPubKey := by
  simp only [WalletEnv.foundOuts, foundFrom_withThreads]
  rfl

@[simp] theorem recordOuts_withThreads (env : WalletEnv) (n : Nat) (outs : List FoundOut)
    (totals : Totals) :
    recordOuts (env.withThreads n) t pkIndex outs totals = recordOuts env t pkIndex outs totals := by
  induction outs generalizing totals with
  | nil => rfl
  | cons found outs ih =>
    rw [recordOuts_cons, recordOuts_cons]
    exact congrArg _ (funext ih)

@[simp] theorem tallyOuts_withThreads (env : WalletEnv) (n : Nat) (outs : List FoundOut)
    (tally : Tally) (w : Wallet2) :
    tallyOuts (env.withThreads n) t pkIndex outs tally w = tallyOuts env t pkIndex outs tally w := by
  induction outs generalizing tally w with
  | nil => rfl
  | cons found outs ih => exact ih _ _

/-- Entering outputs changes a tally by the same amounts whatever it was. -/
theorem tallyOuts_add (env : WalletEnv) (t : NewTransaction) (pkIndex : Nat)
    (outs : List FoundOut) (w : Wallet2) : ∃ credit ignored w', ∀ tally,
      tallyOuts env t pkIndex outs tally w = (tally.add credit ignored, w') := by
  induction outs generalizing w with
  | nil => exact ⟨0, 0, w, fun tally => rfl⟩
  | cons found outs ih =>
    obtain ⟨credit, ignored, w', hrest⟩ := ih (w.enterOut env t pkIndex found)
    refine ⟨w.credit found + credit, w.ignored found + ignored, w', fun tally => ?_⟩
    rw [tallyOuts, hrest]
    simp [Tally.add, Nat.add_assoc]

/-! ### From one thread to several -/

theorem scanLoop_of_le {rct : RctSig} {decode : Bool} {txPubKey : PublicKey}
    {outs' : List FoundOut} {got1' : Nat} {vout : List TxOut} {i : Nat} {outs : List FoundOut}
    {got1 got2 : Nat} (hle : got2 ≤ got1)
    (h : env.scanLoop rct decode txPubKey i vout outs got1 = .ok (outs', got1')) :
    ∃ got2', env.scanLoop rct decode txPubKey i vout outs got2 = .ok (outs', got2') := by
  induction vout generalizing i outs got1 got2 with
  | nil =>
    cases h
    exact ⟨got2, rfl⟩
  | cons o vout ih =>
    rw [WalletEnv.scanLoop] at h ⊢
    split at h
    · cases h
    · exact ih hle h
    · split at h
      · cases h
      rw [if_neg (by omega)]
      exact ih (by omega) h

/-- So does entering what a scan found, as long as all of it is counted. -/
theorem recordOuts_of_le {txPubKey : PublicKey} {outs : List FoundOut} {totals₁ totals₂ : Totals}
    {w : Wallet2} (hof : (∀ found ∈ outs, found.Of env t.tx txPubKey))
    (htotal : FoundOut.total outs ≤ totals₂.got) (hle : totals₂.got ≤ totals₁.got)
    (h : recordOuts env t pkIndex outs totals₁ w = .ok totals1' w') :
    ∃ totals2', recordOuts env t pkIndex outs totals₂ w = .ok totals2' w' ∧ totals2'.got ≤
      totals1'.got := by
  induction outs generalizing totals₁ totals₂ w with
  | nil =>
    cases h
    exact ⟨totals₂, rfl, hle⟩
  | cons found outs ih =>
    have hfound := hof found (by simp)
    have hcounted : found.out.amount ≤ totals₂.got := by
      rw [FoundOut.total_cons] at htotal
      by_cases hclear : found.out.amount = 0
      · omega
      · have := hfound.amount hclear
        omega
    rw [recordOuts_cons] at h ⊢
    rcases recordOut_cases hfound totals₁ w with ⟨totals1'', w1, hok1, hrec1⟩ | ⟨e, herror, -⟩
    · rw [bind_ok hok1] at h
      obtain ⟨rfl, hgot1, -⟩ := hrec1.enters hfound
      rcases recordOut_cases hfound totals₂ w with ⟨totals2'', w2, hok2, hrec2⟩ | ⟨e, -, hbad⟩
      · obtain ⟨rfl, hgot2, -⟩ := hrec2.enters hfound
        rw [bind_ok hok2]
        rw [FoundOut.total_cons] at htotal
        exact ih (fun f hf => hof f (by simp [hf])) (by omega) (by omega) h
      · -- the index is in range, since the other run went through
        rcases hbad with ⟨idx, hkey, hnone⟩ | hlt
        · exact absurd hnone (hrec1.inRange hkey)
        · omega
    · rw [bind_error herror] at h
      cases h

@[simp] theorem scanLoop_withThreads (env : WalletEnv) (n : Nat) (rct : RctSig) (decode : Bool)
    (txPubKey : PublicKey) :
    ∀ (vout : List TxOut) (i : Nat) (outs : List FoundOut) (got : Nat),
      (env.withThreads n).scanLoop rct decode txPubKey i vout outs got =
        env.scanLoop rct decode txPubKey i vout outs got := by
  intro vout
  induction vout with
  | nil => exact fun _ _ _ => rfl
  | cons o vout ih =>
    intro i outs got
    have hcheck : (env.withThreads n).checkAccOutPrecomp rct decode txPubKey i o =
        env.checkAccOutPrecomp rct decode txPubKey i o := rfl
    rw [WalletEnv.scanLoop, WalletEnv.scanLoop, hcheck]
    simp only [ih]

def WalletEnv.threadable (env : WalletEnv) (tx : Transaction) (minerTx : Bool) : Prop :=
  ¬ (minerTx ∧ (env.refreshType = .noCoinbase ∨ env.refreshType = .optimizeCoinbase)) ∧
    1 < tx.vout.length

theorem restarts_withThreads {tx : Transaction} {minerTx : Bool}
    (h : env.threadable tx minerTx) (n : Nat) (txPubKey : PublicKey) :
    (env.withThreads n).restarts tx minerTx txPubKey = decide (1 < n) := by
  obtain ⟨hbranch, hvout⟩ := h
  have hthreaded : (env.withThreads n).threaded tx minerTx = decide (1 < n) := by
    unfold WalletEnv.threaded
    simp only [WalletEnv.withThreads, hbranch, hvout, not_false_eq_true, true_and]
  have hcoinbase : ¬ (minerTx = true ∧ (env.withThreads n).refreshType = .optimizeCoinbase ∧
      (env.withThreads n).foundOuts tx minerTx txPubKey ≠ []) :=
    fun hopt => hbranch ⟨hopt.1, .inr hopt.2.1⟩
  rw [WalletEnv.restarts, hthreaded, decide_eq_false hcoinbase, Bool.or_false]

/-- With one thread the count goes on from what it was, with several it starts
again. -/
theorem scanOuts_withThreads {tx : Transaction} {minerTx : Bool}
    (h : env.threadable tx minerTx) (n : Nat) (txPubKey : PublicKey) (got : Nat) :
    (env.withThreads n).scanOuts tx minerTx txPubKey got =
      env.scanLoop tx.rctSignatures (!minerTx) txPubKey 0 tx.vout [] (if 1 < n then 0 else got) := by
  obtain ⟨hbranch, hvout⟩ := h
  have hno : ¬ (minerTx = true ∧ (env.withThreads n).refreshType = .noCoinbase) :=
    fun hno => hbranch ⟨hno.1, .inl hno.2⟩
  have hopt : ¬ (minerTx = true ∧ (env.withThreads n).refreshType = .optimizeCoinbase) :=
    fun hopt => hbranch ⟨hopt.1, .inr hopt.2⟩
  have hthreads : (env.withThreads n).threads = n := rfl
  rw [WalletEnv.scanOuts, if_neg hno, if_neg hopt, hthreads]
  by_cases hn : 1 < n
  · rw [if_pos ⟨hvout, hn⟩, if_pos hn, scanLoop_withThreads]
  · rw [if_neg (fun hboth => hn hboth.2), if_neg hn, scanLoop_withThreads]

/-- Where only one branch can be taken, the number of threads does not matter. -/
theorem scanOuts_withThreads_of_not {tx : Transaction} {minerTx : Bool}
    (h : ¬ env.threadable tx minerTx) (n : Nat) (txPubKey : PublicKey) (got : Nat) :
    (env.withThreads n).scanOuts tx minerTx txPubKey got =
      (env.withThreads 1).scanOuts tx minerTx txPubKey got := by
  unfold WalletEnv.scanOuts WalletEnv.scanCoinbase
  simp only [scanLoop_withThreads]
  by_cases hvout : 1 < tx.vout.length
  · have hbranch : minerTx = true ∧
        (env.refreshType = .noCoinbase ∨ env.refreshType = .optimizeCoinbase) := by
      by_contra hbranch
      exact h ⟨hbranch, hvout⟩
    obtain ⟨rfl, hrefresh | hrefresh⟩ := hbranch
    · simp [WalletEnv.withThreads, hrefresh]
    · simp only [WalletEnv.withThreads, hrefresh]
      rfl
  · simp only [hvout, false_and, if_false]
    rfl

/-- Several threads go through where one does, to the same wallet. -/
theorem scanPubKeys_withThreads (h : env.threadable t.tx t.minerTx) (n : Nat) {w' : Wallet2}
    {keys : List PublicKey} {pkIndex : Nat} {totals₁ totals₂ : Totals} {w : Wallet2}
    (hle : totals₂.got ≤ totals₁.got)
    (hrun : scanPubKeys (env.withThreads 1) t pkIndex keys totals₁ w = .ok totals1' w') :
    ∃ totals2', scanPubKeys (env.withThreads n) t pkIndex keys totals₂ w = .ok totals2' w' := by
  induction keys generalizing pkIndex totals₁ totals₂ w with
  | nil =>
    cases hrun
    exact ⟨totals₂, rfl⟩
  | cons txPubKey keys ih =>
    rw [scanPubKeys_cons] at hrun ⊢
    obtain ⟨totals1'', w1, hfirst, hrest⟩ := bind_eq_ok.mp hrun
    unfold scanPubKey at hfirst
    rw [scanOuts_withThreads h, if_neg (by decide)] at hfirst
    cases hscan : env.scanLoop t.tx.rctSignatures (!t.minerTx) txPubKey 0 t.tx.vout []
        totals₁.got with
    | error e => simp [hscan] at hfirst
    | ok result =>
      obtain ⟨outs, got1⟩ := result
      rw [hscan] at hfirst
      dsimp only at hfirst
      have hstart : (if 1 < n then 0 else totals₂.got) ≤ totals₁.got := by
        split
        · exact Nat.zero_le _
        · exact hle
      obtain ⟨got2, hscan2⟩ := scanLoop_of_le hstart hscan
      obtain ⟨houts, hgot1, -⟩ := WalletEnv.scanLoop_ok hscan
      obtain ⟨-, hgot2, -⟩ := WalletEnv.scanLoop_ok hscan2
      rw [List.nil_append] at houts
      rw [← houts] at hgot1 hgot2
      have hof : ∀ found ∈ outs, found.Of env t.tx txPubKey := by
        intro found hmem
        rw [houts] at hmem
        obtain ⟨-, hout, htarget, heph, hamount⟩ := WalletEnv.of_mem_foundFrom hmem
        exact ⟨hout, htarget, heph, hamount⟩
      split at hfirst
      · cases hfirst
      rename_i hcount
      rw [recordOuts_withThreads] at hfirst
      have htotals : Totals.got { totals₂ with got := got2 } ≤
          Totals.got { totals₁ with got := got1 } := by
        change got2 ≤ got1
        omega
      have hcounted : FoundOut.total outs ≤ Totals.got { totals₂ with got := got2 } := by
        change FoundOut.total outs ≤ got2
        omega
      obtain ⟨totals2'', hrecord, hle'⟩ := recordOuts_of_le hof hcounted htotals hfirst
      have hsecond : scanPubKey (env.withThreads n) t pkIndex txPubKey totals₂ w =
          .ok totals2'' w1 := by
        unfold scanPubKey
        rw [scanOuts_withThreads h, hscan2]
        dsimp only
        rwa [if_neg hcount, recordOuts_withThreads]
      rw [bind_ok hsecond]
      exact ih hle' hrest

/-! ### The tallies -/

/-- Both scans credit the same and enter the same; several threads find less since
the count was last started. -/
theorem tallyKeys_withThreads (h : env.threadable t.tx t.minerTx) {n : Nat} (hn : 1 < n)
    {keys : List PublicKey} {pkIndex : Nat} {tally1 tally2 : Tally} {w : Wallet2}
    (hbefore : tally1.creditedBefore = 0)
    (hcredited : tally1.credited = tally2.creditedBefore + tally2.credited)
    (hignored : tally2.ignored ≤ tally1.ignored) :
    let s := tallyKeys (env.withThreads 1) t pkIndex keys tally1 w
    let m := tallyKeys (env.withThreads n) t pkIndex keys tally2 w
    s.2 = m.2 ∧ s.1.creditedBefore = 0 ∧
      s.1.credited = m.1.creditedBefore + m.1.credited ∧ m.1.ignored ≤ s.1.ignored := by
  induction keys generalizing pkIndex tally1 tally2 w with
  | nil => exact ⟨rfl, hbefore, hcredited, hignored⟩
  | cons txPubKey keys ih =>
    obtain ⟨credit, ignored, w', houts⟩ := tallyOuts_add env t pkIndex
      (env.foundOuts t.tx t.minerTx txPubKey) w
    have hone : (env.withThreads 1).restarts t.tx t.minerTx txPubKey = false := by
      rw [restarts_withThreads h]
      rfl
    have hmany : (env.withThreads n).restarts t.tx t.minerTx txPubKey = true := by
      rw [restarts_withThreads h, decide_eq_true hn]
    simp only [tallyKeys, foundOuts_withThreads, tallyOuts_withThreads, hone, hmany, houts,
      Bool.false_eq_true, if_false, if_true]
    refine ih hbefore ?_ ?_
    · simp only [Tally.add, Tally.restart, Tally.total]
      omega
    · simp only [Tally.add, Tally.restart]
      omega

theorem tallyOf_withThreads (h : env.threadable t.tx t.minerTx) {n : Nat} (hn : 1 < n)
    (w : Wallet2) :
    (tallyOf (env.withThreads 1) t w).2 = (tallyOf (env.withThreads n) t w).2 ∧
      (tallyOf (env.withThreads 1) t w).1.creditedBefore = 0 ∧
      (tallyOf (env.withThreads 1) t w).1.credited =
        (tallyOf (env.withThreads n) t w).1.creditedBefore +
          (tallyOf (env.withThreads n) t w).1.credited ∧
      (tallyOf (env.withThreads n) t w).1.ignored ≤ (tallyOf (env.withThreads 1) t w).1.ignored :=
  tallyKeys_withThreads h hn rfl rfl le_rfl

/-! ### When the scans agree -/

/-- Everything is found under the last public key; or the transaction spends at least
as much as is found; or both scans end in the consistency failure. -/
def ThreadsAgree (env : WalletEnv) (n : Nat) (t : NewTransaction) (w : Wallet2) : Prop :=
  let single := tallyOf (env.withThreads 1) t w
  let threaded := tallyOf (env.withThreads n) t w
  let spent := single.2.spentIns t.tx.vin 0
  threaded.1.found = single.1.found ∨ single.1.found ≤ spent ∨
    (single.1.ignored ≠ 0 ∧ spent < threaded.1.found ∧
      u64 threaded.1.creditedBefore ≠ threaded.1.ignored)

theorem processTx_withThreads_of_not (h : ¬ env.threadable t.tx t.minerTx) (n : Nat) (w : Wallet2) :
    processNewTransaction (env.withThreads n) t w = processNewTransaction (env.withThreads 1) t w := by
  have hscan : ∀ (keys : List PublicKey) (pkIndex : Nat) (totals : Totals),
      scanPubKeys (env.withThreads n) t pkIndex keys totals =
        scanPubKeys (env.withThreads 1) t pkIndex keys totals := by
    intro keys
    induction keys with
    | nil => exact fun _ _ => rfl
    | cons txPubKey keys ih =>
      intro pkIndex totals
      have hfirst : scanPubKey (env.withThreads n) t pkIndex txPubKey totals =
          scanPubKey (env.withThreads 1) t pkIndex txPubKey totals := by
        simp only [scanPubKey, scanOuts_withThreads_of_not h n, recordOuts_withThreads]
      rw [scanPubKeys_cons, scanPubKeys_cons, hfirst]
      exact congrArg _ (funext (ih (pkIndex + 1)))
  rw [processTx_eq, processTx_eq, hscan]
  rfl

theorem tallyOf_withThreads_of_not (h : ¬ env.threadable t.tx t.minerTx) (n : Nat) (w : Wallet2) :
    tallyOf (env.withThreads n) t w = tallyOf (env.withThreads 1) t w := by
  have hthreaded : ∀ n, (env.withThreads n).threaded t.tx t.minerTx = false := by
    intro n
    exact decide_eq_false fun hboth => h ⟨hboth.1, hboth.2.1⟩
  have hkeys : ∀ (keys : List PublicKey) (pkIndex : Nat) (tally : Tally) (w : Wallet2),
      tallyKeys (env.withThreads n) t pkIndex keys tally w =
        tallyKeys (env.withThreads 1) t pkIndex keys tally w := by
    intro keys
    induction keys with
    | nil => exact fun _ _ _ => rfl
    | cons txPubKey keys ih =>
      intro pkIndex tally w
      have hrestarts : (env.withThreads n).restarts t.tx t.minerTx txPubKey =
          (env.withThreads 1).restarts t.tx t.minerTx txPubKey := by
        simp only [WalletEnv.restarts, hthreaded, foundOuts_withThreads]
        rfl
      simp only [tallyKeys, foundOuts_withThreads, tallyOuts_withThreads, hrestarts]
      exact ih _ _ _
  exact hkeys _ _ _ _

/-- Wallets that differ in the entry of the transaction only. -/
theorem SameWallet.enterSpent (spent : Nat) (totals₁ totals₂ : Totals) (w : Wallet2) :
    SameWallet (enterSpent t spent totals₁ w) (enterSpent t spent totals₂ w) := by
  unfold Lethean.enterSpent
  split <;> exact ⟨rfl, rfl, rfl, rfl, rfl, rfl⟩

theorem not_sameWallet_addPayment {received : Nat} {w1 w2 : Wallet2} (h : SameWallet w1 w2) :
    ¬ SameWallet (addPayment env t received w1) w2 := by
  intro hsame
  cases hpool : t.pool with
  | true =>
    have hlist := hsame.unconfirmedPayments.trans h.unconfirmedPayments.symm
    simp [addPayment, hpool] at hlist
  | false =>
    have hlist := hsame.payments.trans h.payments.symm
    simp [addPayment, hpool] at hlist

/-- Two ways to settle a transaction whose outputs have been entered. -/
theorem sameResult_settle_iff {spent : Nat} {w2 : Wallet2}
    (hspend : spendInputs t t.tx.vin 0 w = .ok spent w2)
    (hreceived : totals₁.received = totals₂.received) (hle : totals₂.got ≤ totals₁.got) :
    SameResult (settleTransaction env t totals₁ w) (settleTransaction env t totals₂ w) ↔
      totals₂.got = totals₁.got ∨ totals₁.got ≤ spent ∨
        (totals₁.received ≠ totals₁.got ∧ spent < totals₂.got ∧ totals₂.received ≠ totals₂.got) := by
  have hsame := SameWallet.enterSpent (t := t) spent totals₁ totals₂ w2
  rw [settleTransaction_eq hspend, settleTransaction_eq hspend]
  split
  · by_cases hequal1 : totals₁.received = totals₁.got
    · -- the one call books a payment: the other one must book the same
      rw [if_neg (not_not.mpr hequal1)]
      by_cases hpays2 : spent < totals₂.got
      · rw [if_pos hpays2]
        by_cases hequal2 : totals₂.received = totals₂.got
        · obtain rfl : totals₁ = totals₂ := by
            cases totals₁
            cases totals₂
            simp_all
          rw [if_neg (not_not.mpr hequal2)]
          exact iff_of_true ⟨rfl, SameWallet.refl _⟩ (.inl rfl)
        · rw [if_pos hequal2]
          refine iff_of_false (fun h => absurd h.1 (by simp [thrown])) ?_
          omega
      · rw [if_neg hpays2]
        refine iff_of_false (fun h => not_sameWallet_addPayment hsame h.2) ?_
        omega
    · rw [if_pos hequal1]
      by_cases hpays2 : spent < totals₂.got
      · rw [if_pos hpays2]
        by_cases hequal2 : totals₂.received = totals₂.got
        · rw [if_neg (not_not.mpr hequal2)]
          refine iff_of_false (fun h => absurd h.1 (by simp [thrown])) ?_
          omega
        · rw [if_pos hequal2]
          exact iff_of_true ⟨rfl, hsame⟩ (.inr (.inr ⟨hequal1, hpays2, hequal2⟩))
      · rw [if_neg hpays2]
        refine iff_of_false (fun h => absurd h.1 (by simp [thrown])) ?_
        omega
  · rename_i hpays1
    rw [if_neg (by omega)]
    exact iff_of_true ⟨rfl, hsame⟩ (.inr (.inl (Nat.le_of_not_lt hpays1)))

/-- **When one thread and several agree.** -/
theorem threads_agree_iff {n : Nat} (hn : 1 < n) (hamounts : ∀ o ∈ t.tx.vout, o.amount < 2 ^ 64)
    (h : NoException (env.withThreads 1) t w) :
    SameResult (processNewTransaction (env.withThreads 1) t w)
        (processNewTransaction (env.withThreads n) t w) ↔ ThreadsAgree env n t w := by
  by_cases hthreads : env.threadable t.tx t.minerTx
  · obtain ⟨hentered, hbefore, hcredited, hignored⟩ := tallyOf_withThreads hthreads hn w
    by_cases hkeys : t.tx.vout = [] ∨ txPubKeys t.tx.extra ≠ []
    · obtain ⟨totals₁, w₂, hscan, hfollow, hspend, hcall⟩ :=
        processTx_noException h hkeys
      obtain ⟨totals₂, hscan₂⟩ := scanPubKeys_withThreads hthreads n le_rfl hscan
      have hstart : Totals.Follow ⟨0, 0⟩ ⟨0, 0, 0⟩ := ⟨rfl, rfl⟩
      obtain ⟨hfollow₂, -⟩ := scanPubKeys_tally hstart hscan₂
      have hcall₂ : processNewTransaction (env.withThreads n) t w =
          settleTransaction (env.withThreads 1) t totals₂ (tallyOf (env.withThreads 1) t w).2 := by
        rw [processTx_eq, if_neg (by tauto)]
        exact bind_ok hscan₂
      have hlt := scanPubKeys_got_lt hamounts (by decide) hscan
      have hgot₁ : totals₁.got = (tallyOf (env.withThreads 1) t w).1.found := hfollow.got
      have hgot₂ : totals₂.got = (tallyOf (env.withThreads n) t w).1.found := hfollow₂.got
      have hreceived₁ := hfollow.received
      have hreceived₂ : totals₂.received = u64 ((tallyOf (env.withThreads n) t w).1.creditedBefore +
        (tallyOf (env.withThreads n) t w).1.credited) := hfollow₂.received
      rw [hcall, hcall₂, ThreadsAgree]
      generalize (tallyOf (env.withThreads 1) t w).1 = single at *
      generalize (tallyOf (env.withThreads n) t w).1 = threaded at *
      have hequal₁ : totals₁.received = totals₁.got ↔ single.ignored = 0 := by
        simp only [hreceived₁, u64, Tally.found] at hgot₁ ⊢
        omega
      have hequal₂ : totals₂.received = totals₂.got ↔
          u64 threaded.creditedBefore = threaded.ignored := by
        simp only [hreceived₂, u64, Tally.found] at hgot₁ hgot₂ ⊢
        omega
      rw [sameResult_settle_iff hspend
          (by rw [hreceived₁, hreceived₂, hbefore, hcredited, Nat.zero_add])
          (by simp only [Tally.found] at hgot₁ hgot₂; omega),
        ne_eq, hequal₁, ne_eq, hequal₂, hgot₁, hgot₂]
    · -- without a public key nothing is scanned
      obtain ⟨hvout, hnone⟩ := not_or.mp hkeys
      rw [not_not] at hnone
      have hempty : scannedKeys t = [] := by rw [scannedKeys, if_neg hvout, hnone]
      rw [processTx_eq, processTx_eq, if_pos ⟨hvout, hnone⟩,
        if_pos ⟨hvout, hnone⟩, ThreadsAgree, tallyOf, tallyOf, hempty]
      exact iff_of_true ⟨rfl, SameWallet.refl _⟩ (.inl rfl)
  · rw [processTx_withThreads_of_not hthreads n, ThreadsAgree,
      tallyOf_withThreads_of_not hthreads n]
    exact iff_of_true ⟨rfl, SameWallet.refl _⟩ (.inl rfl)

end Threads

def twoOutputReceipt (keys : List PublicKey) : NewTransaction :=
  sampleReceipt (numberedHash 1) keys
    [⟨5, .toKey (sampleOneTimeKey (numberedHash 7) 0)⟩, ⟨3, .toKey nullHash⟩] [] [] 3

/-- Everything is found under the last of three public keys. -/
theorem threads_agree_with_last_key :
    let t := twoOutputReceipt [numberedHash 8, numberedHash 9, numberedHash 7]
    SameResult (processNewTransaction (sampleWalletEnv.withThreads 1) t (.fresh nullHash))
      (processNewTransaction (sampleWalletEnv.withThreads 4) t (.fresh nullHash)) := by
  intro t
  have hnone : thrown (processNewTransaction (sampleWalletEnv.withThreads 1) t (.fresh nullHash)) =
      none := by decide +kernel
  refine (threads_agree_iff (by decide) (by decide +kernel) fun halt hthrown => ?_).mpr
    (.inl (by decide +kernel))
  rw [hnone] at hthrown
  cases hthrown

/-- With a second key behind the right one, the scan with threads forgets what it has found: the
transfer is entered and no payment is booked. -/
theorem threads_lose_payment :
    let one := processNewTransaction (sampleWalletEnv.withThreads 1)
      (twoOutputReceipt [numberedHash 7, numberedHash 8]) (.fresh nullHash)
    let four := processNewTransaction (sampleWalletEnv.withThreads 4)
      (twoOutputReceipt [numberedHash 7, numberedHash 8]) (.fresh nullHash)
    thrown one = none ∧ thrown four = none ∧
      (final one).payments.map (·.2.amount) = [5] ∧ (final four).payments.map (·.2.amount) = [] ∧
      (final four).transfers.map (·.amount) = [5] := by
  decide +kernel

end Lethean
