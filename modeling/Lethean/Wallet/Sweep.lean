import Lethean.Wallet.Selection

/-!
# Lethean.Wallet.Sweep

`create_transactions_from`, which spends all given outputs to one address. Inputs
are drawn from two lists, alternately while both last, and collected until the
transaction is large enough or nothing is left. Every transaction pays all it has
but its fee.
-/

namespace Lethean

section

variable {ℓ : Nat} {Point : Type} [AddCommGroup Point] [Module (ZMod ℓ) Point]

/-! ### One transaction -/

/-- The transaction for the selected inputs, from a first attempt that pays 1. -/
def SpendEnv.sweepTx (env : SpendEnv ℓ Point) (random : SpendRandom ℓ) (w : Wallet2)
    (args : SpendArgs) (address : AccountPublicAddress) (selected : List Nat) (calls : Nat) :
    Except SpendError (PendingTx ℓ Point × Nat) :=
  match env.attempt args.useRct (random.calls calls) w (args.transfer [⟨1, address⟩] selected 0)
      [] with
  | .error e => .error e
  | .ok (ptx, outs) =>
    let availableForFee :=
      ptx.fee + ((ptx.dests.head?).map (·.amount)).getD 0 + ptx.changeDts.amount
    if availableForFee < env.requiredFee args ptx then .error .cannotPayForItself
    else
      env.adjust random w args (fun fee => [⟨availableForFee - fee, address⟩]) selected (2 ^ 64)
        (env.requiredFee args ptx) outs (calls + 1)

/-! ### The loop -/

/-- The variables of the loop: `selected` is `selected_transfers` of the last
transaction, which is not made yet. -/
structure SweepState (ℓ : Nat) (Point : Type) where
  unusedTransfers : List Nat
  unusedDust : List Nat
  selected : List Nat
  txes : List (PendingTx ℓ Point)
  accumulatedOutputs : UInt64
  calls : Nat
  picks : Nat

def SpendEnv.dustNext (env : SpendEnv ℓ Point) (args : SpendArgs) (s : SweepState ℓ Point) : Bool :=
  s.unusedTransfers = [] ||
    s.unusedDust ≠ [] && (s.selected.length % 2 = 1 ||
      args.feePerKb * args.feeMultiplier * UInt64.ofNat (env.upperTransactionSizeLimit + 1023) /
        1024 < s.accumulatedOutputs)

/-- The draw of an input: its index, and the lists without it. -/
def SpendEnv.drawInput (env : SpendEnv ℓ Point) (random : SpendRandom ℓ) (w : Wallet2)
    (args : SpendArgs) (s : SweepState ℓ Point) : Except SpendError (Nat × List Nat × List Nat) :=
  if env.dustNext args s then
    (w.popBestValue s.unusedDust s.selected false (random.picks s.picks)).map fun r =>
      (r.1, s.unusedTransfers, r.2)
  else
    (w.popBestValue s.unusedTransfers s.selected false (random.picks s.picks)).map fun r =>
      (r.1, r.2, s.unusedDust)

def SpendEnv.sweepStep (env : SpendEnv ℓ Point) (random : SpendRandom ℓ) (w : Wallet2)
    (args : SpendArgs) (address : AccountPublicAddress) (s : SweepState ℓ Point) :
    Except SpendError (SweepState ℓ Point) := do
  let (idx, unusedTransfers, unusedDust) ← env.drawInput random w args s
  let s : SweepState ℓ Point :=
    { s with
      unusedTransfers, unusedDust
      selected := s.selected ++ [idx]
      accumulatedOutputs := s.accumulatedOutputs + ((w.transfers[idx]?).map (·.money)).getD 0
      picks := s.picks + 1 }
  if s.unusedTransfers = [] ∧ s.unusedDust = [] ∨
      txSizeTarget env.upperTransactionSizeLimit ≤
        (estimateTxSize args.useRct (.ofNat s.selected.length) (.ofNat args.fakeOutsCount) 1).toNat
      then
    let (ptx, calls) ← env.sweepTx random w args address s.selected s.calls
    pure { s with selected := [], txes := s.txes ++ [ptx], calls }
  else pure s

/-- The loop, for at most as many turns as there are outputs. -/
def SpendEnv.sweepLoop (env : SpendEnv ℓ Point) (random : SpendRandom ℓ) (w : Wallet2)
    (args : SpendArgs) (address : AccountPublicAddress) :
    Nat → SweepState ℓ Point → Except SpendError (List (PendingTx ℓ Point))
  | fuel, s =>
    if s.unusedTransfers = [] ∧ s.unusedDust = [] then .ok s.txes
    else
      match fuel with
      | 0 => .error .outOfFuel
      | fuel + 1 =>
        match env.sweepStep random w args address s with
        | .error e => .error e
        | .ok s => sweepLoop env random w args address fuel s

/-- `create_transactions_from`. RingCT is used with ring members only. -/
def SpendEnv.createTransactionsFrom (env : SpendEnv ℓ Point) (random : SpendRandom ℓ) (w : Wallet2)
    (args : SpendArgs) (address : AccountPublicAddress)
    (unusedTransfersIndices unusedDustIndices : List Nat) :
    Except SpendError (List (PendingTx ℓ Point)) :=
  let args := { args with useRct := 0 < args.fakeOutsCount && args.useRct }
  env.sweepLoop random w args address
    (unusedTransfersIndices.length + unusedDustIndices.length)
    { unusedTransfers := unusedTransfersIndices, unusedDust := unusedDustIndices, selected := []
      txes := [], accumulatedOutputs := 0, calls := 0, picks := 0 }

end

/-! ### What one transaction pays -/

section

variable {ℓ : Nat} {Point : Type}

/-- A transaction that pays all it has but its fee to one address: there is no other
destination, and no change. An output of a RingCT transaction that has nothing may
go elsewhere. -/
structure PendingTx.Sweeps (w : Wallet2) (address : AccountPublicAddress)
    (ptx : PendingTx ℓ Point) : Prop where
  pays : ∃ amount, ptx.dests = [⟨amount, address⟩] ∧
    amount.toNat + ptx.fee.toNat = w.inputTotal ptx.selectedTransfers % 2 ^ 64
  no_change : ptx.changeDts.amount = 0
  outputs : ∀ d ∈ ptx.constructionData.splittedDsts, d.addr = address ∨ d.amount = 0

variable {w : Wallet2} {args : SpendArgs} {address : AccountPublicAddress}
  {ptx : PendingTx ℓ Point}

/-- With what is left after the fee for the only destination, there is no change and
no dust. -/
theorem PendingTx.Made.sweeps {selected : List Nat} {fee : UInt64}
    (h : ptx.Made w (args.transfer [⟨w.foundMoney selected - fee, address⟩] selected fee)) :
    ptx.Sweeps w address := by
  have hbalance : (w.foundMoney selected).toNat =
      amountSum [⟨w.foundMoney selected - fee, address⟩] + ptx.changeDts.amount.toNat +
        ptx.fee.toNat := h.balance
  have hfee : fee.toNat ≤ ptx.fee.toNat := UInt64.le_iff_toNat_le.mp h.fee_le
  have hsum : amountSum [⟨w.foundMoney selected - fee, address⟩] =
      (w.foundMoney selected - fee).toNat := by
    simp [amountSum]
  have hle : fee ≤ w.foundMoney selected := UInt64.le_iff_toNat_le.mpr (by omega)
  have hpaid := UInt64.toNat_sub_of_le _ _ hle
  have hchange : ptx.changeDts.amount = 0 := by
    rw [← UInt64.toNat_inj]
    show _ = 0
    omega
  refine ⟨⟨w.foundMoney selected - fee, h.dests_eq, ?_⟩, hchange, ?_⟩
  · rw [h.selected_eq, ← w.toNat_foundMoney]
    show _ = (w.foundMoney selected).toNat
    omega
  obtain ⟨first, rest, hsplit, haddr, hrest⟩ := h.splitted_eq
  intro d hd
  rw [hsplit] at hd
  rcases List.mem_append.mp hd with hd | hd
  · obtain ⟨d', hd', heq⟩ := haddr d hd
    obtain rfl : d' = ⟨w.foundMoney selected - fee, address⟩ := List.mem_singleton.mp hd'
    exact .inl heq
  -- what is behind the destinations has the amount of the change
  right
  have hmem : d.amount.toNat ≤ amountSum rest := List.le_sum_of_mem (List.mem_map_of_mem hd)
  have hzero : ptx.changeDts.amount.toNat = 0 := by rw [hchange]; rfl
  rw [← UInt64.toNat_inj]
  show _ = 0
  omega

structure PendingTx.Swept (env : SpendEnv ℓ Point) (w : Wallet2) (args : SpendArgs)
    (address : AccountPublicAddress) (ptx : PendingTx ℓ Point) : Prop extends
    ptx.Sweeps w address where
  fee_ge : env.requiredFee args ptx ≤ ptx.fee

variable [AddCommGroup Point] [Module (ZMod ℓ) Point] {env : SpendEnv ℓ Point}
  {random : SpendRandom ℓ} {s : SweepState ℓ Point} {given : List Nat}

theorem sweepTx_ok {selected : List Nat} {calls calls' : Nat}
    (h : env.sweepTx random w args address selected calls = .ok (ptx, calls')) :
    ptx.selectedTransfers = selected ∧ ptx.Swept env w args address := by
  unfold SpendEnv.sweepTx at h
  split at h
  · cases h
  rename_i first outs hfirst
  have hmade := attempt_made hfirst
  -- the first attempt has all that the inputs have
  have havailable : first.fee + ((first.dests.head?).map (·.amount)).getD 0 +
      first.changeDts.amount = w.foundMoney selected := by
    have hbalance : (w.foundMoney selected).toNat =
        amountSum [⟨1, address⟩] + first.changeDts.amount.toNat + first.fee.toNat := hmade.balance
    have hone : amountSum [⟨1, address⟩] = (1 : UInt64).toNat := by simp [amountSum]
    have hlt := (w.foundMoney selected).toNat_lt
    rw [hmade.dests_eq]
    show first.fee + 1 + first.changeDts.amount = _
    rw [← UInt64.toNat_inj, UInt64.toNat_add, UInt64.toNat_add]
    omega
  dsimp only at h
  rw [havailable] at h
  split at h
  · cases h
  obtain ⟨hfee, fee, hmade'⟩ := adjust_ok h
  exact ⟨hmade'.selected_eq, hmade'.sweeps, hfee⟩

/-! ### The loop -/

namespace SweepState

/-- All indices: of the transactions that are made, of the next one, and those that
are left. -/
def indices (s : SweepState ℓ Point) : List Nat :=
  s.txes.flatMap (·.selectedTransfers) ++ s.selected ++ (s.unusedTransfers ++ s.unusedDust)

end SweepState

omit [AddCommGroup Point] [Module (ZMod ℓ) Point] in
theorem drawInput_perm {idx : Nat} {transfers dust : List Nat}
    (h : env.drawInput random w args s = .ok (idx, transfers, dust)) :
    (s.unusedTransfers ++ s.unusedDust).Perm (idx :: (transfers ++ dust)) := by
  unfold SpendEnv.drawInput at h
  split at h
  · obtain ⟨r, hpop, heq⟩ := Ringct.map_eq_ok.mp h
    cases heq
    exact ((Wallet2.popBestValue_perm hpop).append_left _).trans List.perm_middle
  · obtain ⟨r, hpop, heq⟩ := Ringct.map_eq_ok.mp h
    cases heq
    exact (Wallet2.popBestValue_perm hpop).append_right _

/-- What holds in every turn: no index is lost or used twice, the transactions that
are made pay the address, and none is left to be made without inputs to draw. -/
structure SweepState.Sound (env : SpendEnv ℓ Point) (w : Wallet2) (args : SpendArgs)
    (address : AccountPublicAddress) (given : List Nat) (s : SweepState ℓ Point) : Prop where
  perm : s.indices.Perm given
  swept : ∀ ptx ∈ s.txes, ptx.Swept env w args address
  complete : s.unusedTransfers = [] → s.unusedDust = [] → s.selected = []

theorem sweepStep_sound {s' : SweepState ℓ Point} (hs : s.Sound env w args address given)
    (h : env.sweepStep random w args address s = .ok s') :
    s'.Sound env w args address given ∧
      s.unusedTransfers.length + s.unusedDust.length =
        s'.unusedTransfers.length + s'.unusedDust.length + 1 := by
  unfold SpendEnv.sweepStep at h
  obtain ⟨⟨idx, transfers, dust⟩, hdraw, h⟩ := Ringct.bind_eq_ok.mp h
  have hdrawn := drawInput_perm hdraw
  have hlength : s.unusedTransfers.length + s.unusedDust.length =
      transfers.length + dust.length + 1 := by
    simpa using hdrawn.length_eq
  have hperm : (s.txes.flatMap (·.selectedTransfers) ++ (s.selected ++ [idx]) ++
      (transfers ++ dust)).Perm given := by
    have hmoved : s.txes.flatMap (·.selectedTransfers) ++ (s.selected ++ [idx]) ++
        (transfers ++ dust) =
          s.txes.flatMap (·.selectedTransfers) ++ s.selected ++ idx :: (transfers ++ dust) := by
      simp
    rw [hmoved]
    exact (hdrawn.symm.append_left _).trans hs.perm
  dsimp only at h
  split at h
  · obtain ⟨⟨ptx, calls⟩, htx, h⟩ := Ringct.bind_eq_ok.mp h
    cases h
    obtain ⟨hselected, hswept⟩ := sweepTx_ok htx
    refine ⟨⟨?_, ?_, fun _ _ => rfl⟩, hlength⟩
    · simpa [SweepState.indices, hselected] using hperm
    · exact forall_mem_concat.mpr ⟨hs.swept, hswept⟩
  · rename_i hmore
    cases h
    refine ⟨⟨hperm, hs.swept, fun htransfers hdust => ?_⟩, hlength⟩
    exact absurd (.inl ⟨htransfers, hdust⟩) hmore

omit [AddCommGroup Point] [Module (ZMod ℓ) Point] in
theorem SweepState.Sound.done (hs : s.Sound env w args address given)
    (hdone : s.unusedTransfers = [] ∧ s.unusedDust = []) :
    (s.txes.flatMap (·.selectedTransfers)).Perm given := by
  have hperm := hs.perm
  rw [SweepState.indices, hs.complete hdone.1 hdone.2, hdone.1, hdone.2] at hperm
  simpa using hperm

section

variable {e : SpendError} (he : e.ofLoop = true)
include he

theorem avoids_sweepTx (selected : List Nat) (calls : Nat) :
    Avoids e (env.sweepTx random w args address selected calls) := by
  unfold SpendEnv.sweepTx
  split
  · rename_i e hattempt
    have hends := avoids_attempt he env args.useRct (random.calls calls) w
      (args.transfer [⟨1, address⟩] selected 0) []
    rw [hattempt] at hends
    exact hends.error
  · dsimp only
    split
    · exact avoids_error he rfl
    · exact avoids_adjust he (by omega)

theorem avoids_sweepStep (s : SweepState ℓ Point) :
    Avoids e (env.sweepStep random w args address s) := by
  refine Avoids.bind ?_ fun drawn _ => ?_
  · unfold SpendEnv.drawInput
    split
    · exact (w.avoids_popBestValue he _ _ _ _).map _
    · exact (w.avoids_popBestValue he _ _ _ _).map _
  · dsimp only
    split
    · exact (avoids_sweepTx he _ _).bind fun _ _ => avoids_ok e _
    · exact avoids_ok e _

/-- As many turns as there are outputs are enough. -/
theorem avoids_sweepLoop {given : List Nat} {fuel : Nat} {s : SweepState ℓ Point}
    (hs : s.Sound env w args address given)
    (hfuel : s.unusedTransfers.length + s.unusedDust.length ≤ fuel) :
    Avoids e (env.sweepLoop random w args address fuel s) := by
  induction fuel generalizing s with
  | zero =>
    have hdone : s.unusedTransfers = [] ∧ s.unusedDust = [] :=
      ⟨List.length_eq_zero_iff.mp (by omega), List.length_eq_zero_iff.mp (by omega)⟩
    rw [SpendEnv.sweepLoop, if_pos hdone]
    exact avoids_ok e _
  | succ fuel ih =>
    rw [SpendEnv.sweepLoop]
    split
    · exact avoids_ok e _
    have hends : Avoids e (env.sweepStep random w args address s) := avoids_sweepStep he s
    cases hstep : env.sweepStep random w args address s with
    | error e =>
      rw [hstep] at hends
      exact hends.error
    | ok s' =>
      obtain ⟨hs', hlength⟩ := sweepStep_sound hs hstep
      exact ih hs' (by omega)

end

/-! ### All outputs, once each -/

omit [AddCommGroup Point] [Module (ZMod ℓ) Point] in
theorem sound_start (transfers dust : List Nat) :
    SweepState.Sound env w args address (transfers ++ dust)
      { unusedTransfers := transfers, unusedDust := dust, selected := []
        txes := [], accumulatedOutputs := 0, calls := 0, picks := 0 } where
  perm := .refl _
  swept := nofun
  complete := fun _ _ => rfl

/-- **A sweep ends.** Neither the loop over the outputs nor the one that raises the fee runs forever.
Whether the indices are in range is not asked here. -/
theorem avoids_outOfFuel_createTransactionsFrom (transfers dust : List Nat) :
    Avoids .outOfFuel (env.createTransactionsFrom random w args address transfers dust) :=
  avoids_sweepLoop rfl (sound_start transfers dust) le_rfl

end

end Lethean
