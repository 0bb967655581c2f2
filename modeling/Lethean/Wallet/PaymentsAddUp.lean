import Lethean.Wallet.PaymentTurns

/-!
# Lethean.Wallet.PaymentsAddUp

What the transactions of `create_transactions_2` pay, in every run whose turns are
careful, and runs with turns that are not.
-/

namespace Lethean

section

variable {ℓ : Nat} {Point : Type} [AddCommGroup Point] [Module (ZMod ℓ) Point]

namespace PayCall

variable {c : PayCall ℓ Point} {s s' : PayState ℓ Point} {request : List TxDestinationEntry}

/-! ### Runs -/

def Next (c : PayCall ℓ Point) (s s' : PayState ℓ Point) : Prop :=
  c.continues s = true ∧ c.turn s = .ok (some s')

def Reaches (c : PayCall ℓ Point) : PayState ℓ Point → PayState ℓ Point → Prop :=
  Relation.ReflTransGen (Next c)

/-- A run of careful turns that returns has paid all. -/
theorem loop_sound {fuel : Nat} (hs : s.Sound c request) (hmade : s.Made c)
    (hcareful : ∀ s', c.Reaches s s' → s'.Careful c) (h : c.loop fuel s = .ok s') :
    s'.Sound c request ∧ s'.Made c ∧ s'.dsts = [] ∧ s'.addingFee = false := by
  induction fuel generalizing s with
  | zero =>
    rw [loop] at h
    cases hcontinues : c.continues s with
    | true =>
      rw [hcontinues] at h
      cases h
    | false =>
      rw [hcontinues] at h
      cases h
      obtain ⟨hfirst, hfee⟩ := not_continues hcontinues
      exact ⟨hs, hmade, dsts_eq_nil hs.pos hfirst, hfee⟩
  | succ fuel ih =>
    rw [loop] at h
    cases hcontinues : c.continues s with
    | false =>
      rw [hcontinues] at h
      cases h
      obtain ⟨hfirst, hfee⟩ := not_continues hcontinues
      exact ⟨hs, hmade, dsts_eq_nil hs.pos hfirst, hfee⟩
    | true =>
      rw [hcontinues] at h
      cases hturn : c.turn s with
      | error e =>
        simp only [hturn] at h
        cases h
      | ok r =>
        simp only [hturn] at h
        cases r with
        | none =>
          cases h
          obtain ⟨hfirst, hfee⟩ := turn_none hturn
          exact ⟨hs, hmade, dsts_eq_nil hs.pos hfirst, hfee⟩
        | some s1 =>
          obtain ⟨hs1, hmade1⟩ := sound_turn hs (hcareful s .refl) hturn
          exact ih hs1 hmade1 (fun s2 hreach => hcareful s2 (.head ⟨hcontinues, hturn⟩ hreach)) h

theorem avoids_loop {e : SpendError} (he : e.ofLoop = true) {fuel : Nat} (hfuel : turns s ≤ fuel)
    (hindex : e = .originalOutputIndex →
      s.Sound c request ∧ ∀ s', c.Reaches s s' → s'.Careful c) :
    Avoids e (c.loop fuel s) := by
  induction fuel generalizing s with
  | zero =>
    unfold turns at hfuel
    omega
  | succ fuel ih =>
    rw [loop]
    cases hcontinues : c.continues s with
    | false => exact avoids_ok e s
    | true =>
      have havoids : Avoids e (c.turn s) := avoids_turn he fun horiginal =>
        ⟨(hindex horiginal).1, (hindex horiginal).2 s .refl⟩
      cases hturn : c.turn s with
      | error e' =>
        rw [hturn] at havoids
        exact havoids.error
      | ok r =>
        cases r with
        | none => exact avoids_ok e s
        | some s1 =>
          have hless := turns_turn hturn
          refine ih (by omega) fun horiginal => ?_
          obtain ⟨hs, hcareful⟩ := hindex horiginal
          exact ⟨(sound_turn hs (hcareful s .refl) hturn).1,
            fun s2 hreach => hcareful s2 (.head ⟨hcontinues, hturn⟩ hreach)⟩

/-- With merging, and without a second preferred input, every turn is careful. -/
theorem careful_of_merge {dsts : List TxDestinationEntry}
    (hmerge : c.settings.mergeDestinations = true) (hpreferred : c.preferredInputs.length ≤ 1)
    (hfirst : 0 < (c.start dsts).firstAmount) (hreach : c.Reaches (c.start dsts) s) :
    s.Careful c := by
  have hcases : s = c.start dsts ∨ s.preferredInputs = [] := by
    induction hreach with
    | refl => exact .inl rfl
    | @tail s s' _ hnext ih =>
      right
      obtain ⟨d, hdraw, hinputs⟩ := turn_draws hnext.2
      have hsame : s'.preferredInputs = d.rest.preferredInputs :=
        congrArg (fun inputs => inputs.2.2) hinputs
      rw [hsame, preferred_draw hdraw]
      rcases ih with rfl | hnil
      · -- the first turn takes the only preferred input
        have hturn : (0 < (c.start dsts).firstAmount || (c.start dsts).addingFee) = true := by
          simp [hfirst]
        rw [if_pos hturn]
        refine List.length_eq_zero_iff.mp ?_
        rw [List.length_dropLast]
        exact Nat.sub_eq_zero_of_le hpreferred
      · rw [hnil, List.dropLast_nil, ite_self]
  refine ⟨fun _ idx hlast => ?_, fun hfalse => ?_⟩
  · rcases hcases with rfl | hnil
    · exact eligible_of_preferred (List.mem_of_getLast? hlast)
    · rw [hnil] at hlast
      cases hlast
  · rw [hmerge] at hfalse
    cases hfalse

end PayCall

/-! ### Payments add up -/

/-- What the transactions should be: their inputs are different, unspent and unlocked;
every address gets what was requested; and each is balanced and has a fee that is
enough. -/
structure AddsUp (env : SpendEnv ℓ Point) (w : Wallet2) (currentTime : Nat) (args : SpendArgs)
    (request : List TxDestinationEntry) (ptxs : List (PendingTx ℓ Point)) : Prop where
  distinct : (ptxs.flatMap (·.selectedTransfers)).Nodup
  unlocked : ∀ idx ∈ ptxs.flatMap (·.selectedTransfers), ∃ td, w.transfers[idx]? = some td ∧
    td.spent = false ∧ w.isTransferUnlocked currentTime td = true
  paid : ∀ addr, sumTo (· = addr) (ptxs.flatMap (·.dests)) = sumTo (· = addr) request
  each : ∀ ptx ∈ ptxs, ptx.Paid env w args

theorem run_addsUp {c : PayCall ℓ Point} {dsts : List TxDestinationEntry}
    {ptxs : List (PendingTx ℓ Point)} (hne : dsts ≠ []) (hs : (c.start dsts).Sound c dsts)
    (hcareful : ∀ s, c.Reaches (c.start dsts) s → s.Careful c) (h : c.run dsts = .ok ptxs) :
    AddsUp c.env c.w c.settings.currentTime c.args dsts ptxs := by
  unfold PayCall.run at h
  obtain ⟨s, hloop, h⟩ := Ringct.bind_eq_ok.mp h
  obtain ⟨hs, hmade, hdsts, hfee⟩ :=
    PayCall.loop_sound hs (fun hnil => absurd hnil hne) hcareful hloop
  obtain ⟨ptx, hptx, hpaid, hselected, hdests⟩ := hmade hdsts hfee
  rw [PayCall.collect, hfee, if_neg Bool.false_ne_true, hptx] at h
  cases h
  have hall : (s.done ++ [ptx]).flatMap (·.selectedTransfers) = s.selected := by
    simp [PayState.selected, hselected]
  refine ⟨?_, ?_, fun addr => ?_, ?_⟩
  · rw [hall]
    exact (hs.perm.nodup_iff.mpr c.nodup_eligible).of_append_left
  · intro idx hidx
    rw [hall] at hidx
    obtain ⟨td, htd, hspendable⟩ :=
      PayCall.spendable_of_eligible (hs.perm.mem_iff.mp (List.mem_append_left _ hidx))
    rw [Wallet2.spendable, Bool.and_eq_true, Bool.not_eq_true'] at hspendable
    exact ⟨td, htd, hspendable.1, hspendable.2⟩
  · have hconserved := hs.conserved (· = addr)
    rw [hdsts, sumTo_nil, Nat.add_zero] at hconserved
    rw [← hconserved]
    simp [PayState.paid, hdests]
  · exact forall_mem_concat.mpr ⟨hs.done_paid, hpaid⟩

theorem requestedMoney_ok {w : Wallet2} {settings : PaySettings} {dsts : List TxDestinationEntry}
    {needed : UInt64} (h : requestedMoney w settings dsts = .ok needed) :
    dsts ≠ [] ∧ (∀ d ∈ dsts, d.amount ≠ 0) ∧ amountSum dsts < 2 ^ 64 ∧
      needed = (dsts.map (·.amount)).sum := by
  unfold requestedMoney at h
  split at h
  · cases h
  rename_i hnil
  obtain ⟨-, -, h⟩ := Ringct.bind_eq_ok.mp h
  obtain ⟨money, hmoney, h⟩ := Ringct.bind_eq_ok.mp h
  obtain ⟨hsum, hpos⟩ := neededMoney_ok hmoney
  have hlt := money.toNat_lt
  have hzero : (0 : UInt64).toNat = 0 := rfl
  have hfits : amountSum dsts < 2 ^ 64 := by omega
  refine ⟨hnil, hpos, hfits, ?_⟩
  have heq : needed = money := by
    dsimp only at h
    split at h
    · cases h
    split at h
    · cases h
    · exact (Except.ok.inj h).symm
  rw [heq, ← UInt64.toNat_inj, toNat_sum_amounts dsts hfits]
  omega

theorem avoids_requestedMoney {e : SpendError} (he : e.ofLoop = true) (w : Wallet2)
    (settings : PaySettings) (dsts : List TxDestinationEntry) :
    Avoids e (requestedMoney w settings dsts) := by
  unfold requestedMoney
  split
  · exact avoids_error he rfl
  refine (avoids_neededMoney he 0 dsts).bind fun needed _ => ?_
  dsimp only
  split
  · exact avoids_error he rfl
  split
  · exact avoids_error he rfl
  · exact avoids_ok e _

/-- What does not change during a call of `create_transactions_2`. -/
def payCall (env : SpendEnv ℓ Point) (random : SpendRandom ℓ) (w : Wallet2)
    (settings : PaySettings) (args : SpendArgs) (priority : Nat) (dsts : List TxDestinationEntry) :
    PayCall ℓ Point :=
  ⟨env, random, w, settings, payArgs settings args priority, (dsts.map (·.amount)).sum⟩

section

variable (env : SpendEnv ℓ Point) (random : SpendRandom ℓ) (w : Wallet2) (settings : PaySettings)
  (args : SpendArgs) (priority : Nat) (dsts : List TxDestinationEntry)

/-- A call either fails before the loop, or is a run from the first state. -/
theorem createTransactions2_cases
    (hsome : ∀ needed, requestedMoney w settings dsts = .ok needed →
      (payCall env random w settings args priority dsts).eligible ≠ []) :
    (∃ e, e.ofLoop = false ∧
      env.createTransactions2 random w settings args priority dsts = .error e) ∨
    dsts ≠ [] ∧ (∀ d ∈ dsts, d.amount ≠ 0) ∧ amountSum dsts < 2 ^ 64 ∧
      env.createTransactions2 random w settings args priority dsts =
        (payCall env random w settings args priority dsts).run dsts := by
  unfold SpendEnv.createTransactions2
  cases hmoney : requestedMoney w settings dsts with
  | error e =>
    refine .inl ⟨e, Bool.eq_false_iff.mpr fun he => ?_, rfl⟩
    exact avoids_requestedMoney he w settings dsts hmoney
  | ok needed =>
    obtain ⟨hne, hpos, hfits, rfl⟩ := requestedMoney_ok hmoney
    refine .inr ⟨hne, hpos, hfits, if_neg ?_⟩
    rintro ⟨htransfers, hdust⟩
    exact hsome _ hmoney (List.append_eq_nil_iff.mpr ⟨htransfers, hdust⟩)

/-- **Payments add up.** If a call that passes the check of the balance has an output that may be
spent, then in every run whose turns are careful the transactions that are returned add up, and the
error of an index that is too large is never thrown. -/
theorem create_transactions_2_adds_up
    (hsome : ∀ needed, requestedMoney w settings dsts = .ok needed →
      (payCall env random w settings args priority dsts).eligible ≠ [])
    (hcareful : ∀ s, (payCall env random w settings args priority dsts).Reaches
      ((payCall env random w settings args priority dsts).start dsts) s →
        s.Careful (payCall env random w settings args priority dsts)) :
    (∀ ptxs, env.createTransactions2 random w settings args priority dsts = .ok ptxs →
      AddsUp env w settings.currentTime (payArgs settings args priority) dsts ptxs) ∧
      env.createTransactions2 random w settings args priority dsts ≠
        .error .originalOutputIndex := by
  rcases createTransactions2_cases env random w settings args priority dsts hsome with
    ⟨e, he, herror⟩ | ⟨hne, hpos, hfits, hrun⟩
  · rw [herror]
    refine ⟨nofun, fun heq => ?_⟩
    obtain rfl := Except.error.inj heq
    cases he
  · have hs := PayCall.start_sound (payCall env random w settings args priority dsts) hfits hpos
    rw [hrun]
    refine ⟨fun ptxs h => run_addsUp hne hs hcareful h, ?_⟩
    refine Avoids.bind (PayCall.avoids_loop rfl le_rfl fun _ => ⟨hs, hcareful⟩) fun s _ => ?_
    unfold PayCall.collect
    split
    · exact avoids_error rfl rfl
    split
    · exact avoids_error rfl rfl
    · exact avoids_ok _ _

end

/-! ### Runs of the small wallet -/

open Ringct (sampleOrder)

def samplePayer (transfers : List TransferDetails) : Wallet2 :=
  { sampleSpender transfers with blockchain := List.replicate 200 nullHash }

def otherAddress : AccountPublicAddress :=
  let key := TxCrypto.sampleTxCrypto.secretKeyToPublicKey (9 : Nat)
  ⟨key, key, false⟩

def twoDestinations : List TxDestinationEntry :=
  [⟨20, TxCrypto.sampleAccount.accountAddress⟩, ⟨800, otherAddress⟩]

def smallTxEnv : SpendEnv sampleOrder (ZMod sampleOrder) :=
  { sampleSpendEnv with
    upperTransactionSizeLimit := 600
    blobSize := fun built => 240 * built.tx.vin.length }

def splitPayer : Wallet2 :=
  samplePayer [sampleTransfer 0 30 false, sampleTransfer 1 500 false, sampleTransfer 2 700 false,
    sampleTransfer 3 400 false, sampleTransfer 4 400 false, sampleTransfer 5 400 false]

def splitArgs : SpendArgs := { sampleSpendArgs with fakeOutsCount := 2 }

def splitPayments (mergeDestinations : Bool) :
    Except SpendError (List (PendingTx sampleOrder (ZMod sampleOrder))) :=
  smallTxEnv.createTransactions2 sampleSpendRandom splitPayer (samplePaySettings mergeDestinations)
    splitArgs 0 twoDestinations

theorem exists_ok_of_isOk {α : Type} {x : Except SpendError α} (h : x.isOk = true) :
    ∃ a, x = .ok a := by
  cases x with
  | error e => cases h
  | ok a => exact ⟨a, rfl⟩

theorem create_transactions_2_adds_up_split :
    ∃ ptxs, splitPayments true = .ok ptxs ∧
      AddsUp smallTxEnv splitPayer 0 (payArgs (samplePaySettings true) splitArgs 0) twoDestinations
        ptxs := by
  obtain ⟨ptxs, hrun⟩ := exists_ok_of_isOk (x := splitPayments true) (by decide +kernel)
  refine ⟨ptxs, hrun, ?_⟩
  have hsome : (payCall smallTxEnv sampleSpendRandom splitPayer (samplePaySettings true) splitArgs 0
      twoDestinations).eligible ≠ [] := by decide +kernel
  exact (create_transactions_2_adds_up smallTxEnv sampleSpendRandom splitPayer
    (samplePaySettings true) splitArgs 0 twoDestinations (fun _ _ => hsome) fun s hreach =>
      PayCall.careful_of_merge rfl (by decide +kernel) (by decide +kernel) hreach).1 ptxs hrun

def throwsError {α : Type} (e : SpendError) : Except SpendError α → Bool
  | .error e' => e' = e
  | .ok _ => false

theorem eq_of_throwsError {α : Type} {e : SpendError} {x : Except SpendError α}
    (h : throwsError e x = true) : x = .error e := by
  cases x with
  | error e' => rw [of_decide_eq_true h]
  | ok a => cases h

def largeRingEnv : SpendEnv sampleOrder (ZMod sampleOrder) :=
  { sampleSpendEnv with
    blobSize := fun built =>
      (estimateRctTxSize (.ofNat built.tx.vin.length) 120 (.ofNat built.tx.vout.length)).toNat }

def pairPayer : Wallet2 :=
  samplePayer [sampleTransfer 0 5 true, sampleTransfer 1 127 true, sampleTransfer 2 30 true]

def pairPayments (useRct : Bool) :
    Except SpendError (List (PendingTx sampleOrder (ZMod sampleOrder))) :=
  largeRingEnv.createTransactions2 sampleSpendRandom pairPayer (samplePaySettings false)
    { sampleSpendArgs with fakeOutsCount := 120, useRct } 0
    [⟨60, TxCrypto.sampleAccount.accountAddress⟩, ⟨40, otherAddress⟩]

/-- What can go wrong. With a pair of preferred inputs, the one that is also taken as
the second output is spent twice. Without merging, the second transaction has no
destination at the index of the request, though there is money enough. And a wallet
with RingCT outputs only pays nothing where RingCT is not in force. -/
theorem payments_go_wrong :
    (∃ ptxs, pairPayments true = .ok ptxs ∧ ¬ (ptxs.flatMap (·.selectedTransfers)).Nodup) ∧
      (splitPayments false = .error .originalOutputIndex ∧ ∃ ptxs, splitPayments true = .ok ptxs) ∧
      pairPayments false = .ok [] := by
  have hpair : (pairPayments true).toOption.any (fun ptxs =>
      ptxs.flatMap (·.selectedTransfers) = [1, 0, 0, 2]) = true := by decide +kernel
  have hsplit : (splitPayments true).isOk = true := by decide +kernel
  have hnone : (pairPayments false).toOption.any (·.isEmpty) = true := by decide +kernel
  refine ⟨?_, ⟨eq_of_throwsError (by decide +kernel), exists_ok_of_isOk hsplit⟩, ?_⟩
  · cases hrun : pairPayments true with
    | error e =>
      rw [hrun] at hpair
      cases hpair
    | ok ptxs =>
      rw [hrun] at hpair
      refine ⟨ptxs, rfl, ?_⟩
      rw [of_decide_eq_true hpair]
      decide
  · cases hrun : pairPayments false with
    | error e =>
      rw [hrun] at hnone
      cases hnone
    | ok ptxs =>
      rw [hrun] at hnone
      rw [List.isEmpty_iff.mp hnone]

end

end Lethean
