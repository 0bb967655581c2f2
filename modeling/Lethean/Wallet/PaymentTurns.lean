import Lethean.Wallet.PaymentAmounts

/-!
# Lethean.Wallet.PaymentTurns

One turn of `create_transactions_2`. Money is conserved by every step of a turn: what
the transactions pay to an address and what is left to pay to it are what was
requested. Indices are conserved as well, as long as a preferred input is still unused
when it is taken. Both are fields of `PayState.Sound`, which every turn preserves.

Two turns of the source go wrong. A preferred input stays preferred when it is taken
as the second output, and is then taken again for the fee. And
`original_output_index` is not reset for a new transaction, which without merging has
no destination at this index. `PayState.Careful` says of a state that its turn is not
one of those.
-/

namespace Lethean

section

variable {ℓ : Nat} {Point : Type}

/-! ### What is preserved -/

/-- A transaction whose inputs are what it pays, its change and its fee, and whose fee
is enough. Amounts are added up in words. -/
structure PendingTx.Paid (env : SpendEnv ℓ Point) (w : Wallet2) (args : SpendArgs)
    (ptx : PendingTx ℓ Point) : Prop where
  balance : w.inputTotal ptx.selectedTransfers % 2 ^ 64 =
    amountSum ptx.dests + ptx.changeDts.amount.toNat + ptx.fee.toNat
  fee_ge : env.requiredFee args ptx ≤ ptx.fee

def PayCall.eligible (c : PayCall ℓ Point) : List Nat :=
  c.w.unusedTransfersIndices c.settings.currentTime c.args.useRct ++
    c.w.unusedDustIndices c.settings.currentTime c.args.useRct

namespace PayState

def unused (s : PayState ℓ Point) : List Nat := s.unusedTransfers ++ s.unusedDust

def inputs (s : PayState ℓ Point) : List Nat × List Nat × List Nat :=
  (s.unusedTransfers, s.unusedDust, s.preferredInputs)

def selected (s : PayState ℓ Point) : List Nat :=
  s.done.flatMap (·.selectedTransfers) ++ s.tx.selectedTransfers

def paid (s : PayState ℓ Point) : List TxDestinationEntry :=
  s.done.flatMap (·.dests) ++ s.tx.dsts

/-- What holds before every turn, and in the middle of one: no output and no amount is
lost or used twice, and the transactions that are done are balanced. -/
structure Sound (c : PayCall ℓ Point) (request : List TxDestinationEntry) (s : PayState ℓ Point) :
    Prop where
  fits : amountSum request < 2 ^ 64
  perm : (s.selected ++ s.unused).Perm c.eligible
  conserved : ∀ q, sumTo q s.paid + sumTo q s.dsts = sumTo q request
  pos : ∀ d ∈ s.dsts, d.amount ≠ 0
  done_paid : ∀ ptx ∈ s.done, ptx.Paid c.env c.w c.args
  index : c.settings.mergeDestinations = false →
    s.tx.dsts = [] ∨ s.originalOutputIndex ≤ s.tx.dsts.length

/-- What holds between turns: when all is paid, the last transaction is made. -/
def Made (c : PayCall ℓ Point) (s : PayState ℓ Point) : Prop :=
  s.dsts = [] → s.addingFee = false → ∃ ptx, s.tx.ptx = some ptx ∧
    ptx.Paid c.env c.w c.args ∧ ptx.selectedTransfers = s.tx.selectedTransfers ∧
    ptx.dests = s.tx.dsts

/-- The turn takes no input twice, and starts no transaction at an index behind its
first destination: a preferred input that is taken is still unused, and without
merging the index of a transaction without destinations is 0. -/
structure Careful (c : PayCall ℓ Point) (s : PayState ℓ Point) : Prop where
  preferred : (0 < s.firstAmount || s.addingFee) = true →
    ∀ idx, s.preferredInputs.getLast? = some idx → idx ∈ s.unused
  index : c.settings.mergeDestinations = false → s.tx.dsts = [] → s.originalOutputIndex = 0

def withUnused (s : PayState ℓ Point) (transfers dust preferred : List Nat) : PayState ℓ Point :=
  { s with unusedTransfers := transfers, unusedDust := dust, preferredInputs := preferred }

theorem Sound.index_le {c : PayCall ℓ Point} {request : List TxDestinationEntry}
    {s : PayState ℓ Point} (hs : s.Sound c request) (hc : s.Careful c)
    (hmerge : c.settings.mergeDestinations = false) :
    s.originalOutputIndex ≤ s.tx.dsts.length := by
  rcases hs.index hmerge with hnil | hle
  · rw [hc.index hmerge hnil]
    exact Nat.zero_le _
  · exact hle

theorem Sound.fits_tx {c : PayCall ℓ Point} {request : List TxDestinationEntry}
    {s : PayState ℓ Point} (hs : s.Sound c request) :
    amountSum s.tx.dsts + amountSum s.dsts < 2 ^ 64 := by
  have htotal := hs.conserved fun _ => true
  have hfits := hs.fits
  simp only [PayState.paid, sumTo_append, sumTo_true] at htotal
  omega

end PayState

/-! ### The outputs that may be spent -/

theorem Wallet2.mem_indicesOf {w : Wallet2} {p : TransferDetails → Bool} {idx : Nat} :
    idx ∈ w.indicesOf p ↔ ∃ td, w.transfers[idx]? = some td ∧ p td = true := by
  unfold Wallet2.indicesOf
  rw [List.mem_filter, List.mem_range, Option.any_eq_true]
  constructor
  · rintro ⟨-, td, htd, hp⟩
    exact ⟨td, htd, hp⟩
  · rintro ⟨td, htd, hp⟩
    exact ⟨(List.getElem?_eq_some_iff.mp htd).1, td, htd, hp⟩

theorem Wallet2.nodup_indicesOf (w : Wallet2) (p : TransferDetails → Bool) :
    (w.indicesOf p).Nodup :=
  List.nodup_range.filter _

theorem PayCall.nodup_eligible (c : PayCall ℓ Point) : c.eligible.Nodup := by
  refine (c.w.nodup_indicesOf _).append (c.w.nodup_indicesOf _) ?_
  intro idx htransfer hdust
  obtain ⟨td, htd, h⟩ := Wallet2.mem_indicesOf.mp htransfer
  obtain ⟨td', htd', h'⟩ := Wallet2.mem_indicesOf.mp hdust
  rw [htd] at htd'
  obtain rfl := Option.some.inj htd'
  -- dust is what is not valid as a transfer
  rw [Bool.and_eq_true] at h h'
  rw [h.2] at h'
  exact Bool.noConfusion h'.2

theorem PayCall.spendable_of_eligible {c : PayCall ℓ Point} {idx : Nat} (h : idx ∈ c.eligible) :
    ∃ td, c.w.transfers[idx]? = some td ∧ c.w.spendable c.settings.currentTime td = true := by
  rcases List.mem_append.mp h with h | h
  all_goals
    obtain ⟨td, htd, hp⟩ := Wallet2.mem_indicesOf.mp h
    rw [Bool.and_eq_true, Bool.and_eq_true] at hp
    exact ⟨td, htd, hp.1.1⟩

theorem Wallet2.suitable_of_mem_pickPair {w : Wallet2} {suitable : TransferDetails → Bool}
    {neededMoney : UInt64} {pairs : List (Nat × Nat)} {best idx : Nat} {picks : List Nat}
    (h : idx ∈ w.pickPair suitable neededMoney pairs best picks) :
    idx ∈ picks ∨ ∃ td, w.transfers[idx]? = some td ∧ suitable td = true := by
  induction pairs generalizing best picks with
  | nil => exact .inl h
  | cons pair pairs ih =>
    obtain ⟨i, j⟩ := pair
    rw [Wallet2.pickPair] at h
    split at h
    · rename_i td td2 hi hj
      dsimp only at h
      split at h
      · rename_i hsuitable
        simp only [Bool.and_eq_true] at hsuitable
        have hpair : idx ∈ [i, j] → ∃ td, w.transfers[idx]? = some td ∧ suitable td = true := by
          intro hmem
          rcases List.mem_pair.mp hmem with rfl | rfl
          · exact ⟨td, hi, hsuitable.1.1.1⟩
          · exact ⟨td2, hj, hsuitable.1.1.2⟩
        split at h
        · exact .inr (hpair h)
        · rcases ih h with h | h
          · exact .inr (hpair h)
          · exact .inr h
      · exact ih h
    · exact ih h

theorem Wallet2.suitable_of_mem_pickPreferred {w : Wallet2} {currentTime : Nat}
    {neededMoney : UInt64} {idx : Nat} (h : idx ∈ w.pickPreferredRctInputs currentTime neededMoney) :
    ∃ td, w.transfers[idx]? = some td ∧ (w.spendable currentTime td && td.rct) = true := by
  unfold Wallet2.pickPreferredRctInputs at h
  dsimp only at h
  split at h
  · rename_i i rest hsingle
    have hmem : i ∈ i :: rest := List.mem_cons_self
    rw [← hsingle] at hmem
    obtain ⟨td, htd, hp⟩ := Wallet2.mem_indicesOf.mp hmem
    rw [Bool.and_eq_true] at hp
    rw [List.mem_singleton.mp h]
    exact ⟨td, htd, hp.1⟩
  · exact (Wallet2.suitable_of_mem_pickPair h).resolve_left (List.not_mem_nil)

theorem PayCall.eligible_of_preferred {c : PayCall ℓ Point} {idx : Nat}
    (h : idx ∈ c.preferredInputs) : idx ∈ c.eligible := by
  unfold PayCall.preferredInputs at h
  split at h
  · rename_i hrct
    rw [Bool.and_eq_true] at hrct
    obtain ⟨td, htd, hsuitable⟩ := Wallet2.suitable_of_mem_pickPreferred h
    rw [Bool.and_eq_true] at hsuitable
    refine List.mem_append_left _ (Wallet2.mem_indicesOf.mpr ⟨td, htd, ?_⟩)
    simp [hsuitable.1, hsuitable.2, hrct.1]
  · cases h

/-! ### The draw -/

namespace PayCall

variable {c : PayCall ℓ Point} {s : PayState ℓ Point} {d : Drawn ℓ Point}

/-- What is drawn was unused, and all else is left. -/
inductive Drawn.From (s : PayState ℓ Point) : Drawn ℓ Point → Prop
  | mk {idx : Nat} {transfers dust preferred : List Nat}
      (perm : s.unused.Perm (idx :: (transfers ++ dust)))
      (fewer : preferred.length ≤ s.preferredInputs.length) :
      Drawn.From s ⟨idx, s.withUnused transfers dust preferred⟩

theorem takeOut_from {preferred : List Nat} {idx : Nat} (hnodup : s.unused.Nodup)
    (h : idx ∈ s.unused) (hfewer : preferred.length ≤ s.preferredInputs.length) :
    Drawn.From s ⟨idx, takeOut { s with preferredInputs := preferred } idx⟩ :=
  .mk (Draw.perm_cons_removeIfPresent_append hnodup h) hfewer

theorem drawSecond_ok (h : c.drawSecond s = .ok (some d)) :
    d.idx ∈ s.unused ∧ d.rest = takeOut s d.idx := by
  unfold drawSecond at h
  obtain ⟨⟨idx, rest⟩, hpop, h⟩ := Ringct.bind_eq_ok.mp h
  obtain ⟨tds, -, h⟩ := Ringct.bind_eq_ok.mp h
  have hmem : idx ∈ c.w.getOnlyRct s.unusedDust s.unusedTransfers :=
    (Wallet2.popBestValue_perm hpop).mem_iff.mpr List.mem_cons_self
  have hunused : idx ∈ s.unused := by
    rcases List.mem_append.mp hmem with hmem | hmem
    · exact List.mem_append_right _ (List.mem_filter.mp hmem).1
    · exact List.mem_append_left _ (List.mem_filter.mp hmem).1
  split at h
  · have h := Except.ok.inj h
    split at h
    · cases h
    · cases h
      exact ⟨hunused, rfl⟩
  · cases h

theorem drawUnused_from (h : c.drawUnused s = .ok (some d)) : Drawn.From s d := by
  unfold drawUnused at h
  split at h
  · obtain ⟨r, hpop, heq⟩ := Ringct.map_eq_ok.mp h
    cases heq
    exact .mk (((Wallet2.popBestValue_perm hpop).append_left _).trans List.perm_middle) le_rfl
  · obtain ⟨r, hpop, heq⟩ := Ringct.map_eq_ok.mp h
    cases heq
    exact .mk ((Wallet2.popBestValue_perm hpop).append_right _) le_rfl

theorem draw_cases {r : Option (Drawn ℓ Point)} (h : c.draw s = .ok r) :
    (s.firstAmount = 0 ∧ s.addingFee = false ∧ c.drawSecond s = .ok r) ∨
      ((0 < s.firstAmount || s.addingFee) = true ∧ ∃ idx, s.preferredInputs.getLast? = some idx ∧
        r = some ⟨idx, takeOut { s with preferredInputs := s.preferredInputs.dropLast } idx⟩) ∨
      s.preferredInputs = [] ∧ c.drawUnused s = .ok r := by
  unfold draw at h
  split at h
  · rename_i hsecond
    rw [Bool.and_eq_true, decide_eq_true_eq, Bool.not_eq_true'] at hsecond
    exact .inl ⟨hsecond.1, hsecond.2, h⟩
  rename_i hsecond
  split at h
  · rename_i idx hlast
    refine .inr (.inl ⟨?_, idx, hlast, (Except.ok.inj h).symm⟩)
    rw [Bool.or_eq_true, decide_eq_true_eq]
    rw [Bool.and_eq_true, decide_eq_true_eq, Bool.not_eq_true'] at hsecond
    by_cases hzero : s.firstAmount = 0
    · exact .inr (Bool.of_not_eq_false fun hfee => hsecond ⟨hzero, hfee⟩)
    · refine .inl (UInt64.lt_iff_toNat_lt.mpr (Nat.pos_of_ne_zero fun hnat => hzero ?_))
      exact UInt64.toNat_inj.mp hnat
  · rename_i hlast
    exact .inr (.inr ⟨List.getLast?_eq_none_iff.mp hlast, h⟩)

theorem draw_from (hnodup : s.unused.Nodup) (hc : s.Careful c) (h : c.draw s = .ok (some d)) :
    Drawn.From s d := by
  rcases draw_cases h with ⟨-, -, h⟩ | ⟨hturn, idx, hlast, h⟩ | ⟨-, h⟩
  · obtain ⟨hmem, hrest⟩ := drawSecond_ok h
    obtain ⟨idx, rest⟩ := d
    obtain rfl : rest = takeOut s idx := hrest
    exact takeOut_from hnodup hmem le_rfl
  · cases h
    exact takeOut_from hnodup (hc.preferred hturn idx hlast) (List.dropLast_sublist _).length_le
  · exact drawUnused_from h

/-- A turn that is not for a second output takes a preferred input, if there is one. -/
theorem preferred_draw (h : c.draw s = .ok (some d)) :
    d.rest.preferredInputs =
      if 0 < s.firstAmount || s.addingFee then s.preferredInputs.dropLast
      else s.preferredInputs := by
  rcases draw_cases h with ⟨hfirst, hfee, h⟩ | ⟨hturn, idx, -, h⟩ | ⟨hnil, h⟩
  · obtain ⟨-, hrest⟩ := drawSecond_ok h
    have hstay : ¬ (0 < s.firstAmount || s.addingFee) = true := by
      rw [hfirst, hfee]
      decide
    rw [if_neg hstay, hrest]
    rfl
  · cases h
    rw [if_pos hturn]
    rfl
  · cases drawUnused_from h with
    | mk hperm hfewer =>
      rw [hnil] at hfewer ⊢
      rw [List.dropLast_nil, ite_self]
      exact List.length_eq_zero_iff.mp (Nat.le_zero.mp hfewer)

theorem draw_none (h : c.draw s = .ok none) : s.firstAmount = 0 ∧ s.addingFee = false := by
  rcases draw_cases h with ⟨hfirst, hfee, -⟩ | ⟨-, idx, -, h⟩ | ⟨-, h⟩
  · exact ⟨hfirst, hfee⟩
  · cases h
  · unfold drawUnused at h
    split at h
    all_goals
      obtain ⟨r, -, heq⟩ := Ringct.map_eq_ok.mp h
      cases heq

theorem sound_select {request : List TxDestinationEntry} (hs : s.Sound c request)
    (h : Drawn.From s d) : (select d).Sound c request := by
  cases h with
  | @mk idx transfers dust preferred hperm hfewer =>
    refine ⟨hs.fits, ?_, hs.conserved, hs.pos, hs.done_paid, hs.index⟩
    have hmoved : (select ⟨idx, s.withUnused transfers dust preferred⟩).selected ++
        (select ⟨idx, s.withUnused transfers dust preferred⟩).unused =
          s.selected ++ idx :: (transfers ++ dust) := by
      simp [select, PayState.selected, PayState.unused, PayState.withUnused]
    rw [hmoved]
    exact (hperm.symm.append_left _).trans hs.perm

theorem avoids_draw {e : SpendError} (he : e.ofLoop = true) (s : PayState ℓ Point) :
    Avoids e (c.draw s) := by
  unfold draw
  split
  · unfold drawSecond
    refine (c.w.avoids_popBestValue he _ _ _ _).bind fun drawn _ =>
      (c.w.avoids_detailsAt he _).bind fun tds _ => ?_
    split
    · exact avoids_ok e _
    · exact avoids_error he rfl
  split
  · exact avoids_ok e _
  · unfold drawUnused
    split
    · exact (c.w.avoids_popBestValue he _ _ _ _).map _
    · exact (c.w.avoids_popBestValue he _ _ _ _).map _

theorem turns_takeOut {idx : Nat} (h : idx ∈ s.unused) : turns (takeOut s idx) < turns s := by
  have htransfers := Draw.length_removeIfPresent_le s.unusedTransfers idx
  have hdust := Draw.length_removeIfPresent_le s.unusedDust idx
  unfold turns takeOut
  dsimp only
  rcases List.mem_append.mp h with h | h
  · have := (Draw.perm_cons_removePresent h).length_eq
    rw [List.length_cons] at this
    omega
  · have := (Draw.perm_cons_removePresent h).length_eq
    rw [List.length_cons] at this
    omega

theorem turns_draw (h : c.draw s = .ok (some d)) : turns d.rest < turns s := by
  rcases draw_cases h with ⟨-, -, h⟩ | ⟨-, idx, hlast, h⟩ | ⟨-, h⟩
  · obtain ⟨hmem, hrest⟩ := drawSecond_ok h
    rw [hrest]
    exact turns_takeOut hmem
  · cases h
    have htransfers := Draw.length_removeIfPresent_le s.unusedTransfers idx
    have hdust := Draw.length_removeIfPresent_le s.unusedDust idx
    have hne : s.preferredInputs ≠ [] := by
      intro hnil
      rw [hnil] at hlast
      cases hlast
    have hpreferred := List.length_pos_iff.mpr hne
    unfold turns takeOut
    dsimp only
    rw [List.length_dropLast]
    omega
  · cases drawUnused_from h with
    | mk hperm hfewer =>
      have := hperm.length_eq
      simp only [PayState.unused, List.length_append, List.length_cons] at this
      unfold turns PayState.withUnused
      dsimp only
      omega

/-! ### Spending -/

variable {s' : PayState ℓ Point} {request : List TxDestinationEntry}

section

variable (hs : s.Sound c request)
  (hindex : c.settings.mergeDestinations = false → s.originalOutputIndex ≤ s.tx.dsts.length)
include hs hindex

theorem sound_payDestinations {availableAmount : UInt64}
    (h : c.payDestinations s availableAmount = .ok s') : s'.Sound c request := by
  unfold payDestinations at h
  obtain ⟨p, hfully, h⟩ := Ringct.bind_eq_ok.mp h
  obtain ⟨p', hpartly, h⟩ := Ringct.bind_eq_ok.mp h
  cases h
  have hfits : Paying.Fits ⟨s.dsts, s.tx.dsts, availableAmount, s.originalOutputIndex⟩ := hs.fits_tx
  have hpays := payFully_pays hfits hfully
  have hstops : ∀ d rest, p.dsts = d :: rest → c.room s p.paid.length = true →
      p.availableAmount < d.amount := fun _ _ hdsts hroom =>
    payFully_stops (Nat.le_refl s.dsts.length) hfully hdsts hroom
  have hall := hpays.trans (payPartly_pays (hpays.fits hfits) hstops hpartly)
  refine ⟨hs.fits, hs.perm, fun q => ?_, hall.pos hs.pos, hs.done_paid, fun hmerge => .inr ?_⟩
  · have hbefore := hs.conserved q
    have hpaid := hall.conserved q
    simp only [PayState.paid, sumTo_append] at hbefore hpaid ⊢
    omega
  · rw [hmerge] at hfully hpartly
    exact payPartly_index (payFully_index (hindex hmerge) hfully) hpartly

theorem sound_spend {idx : Nat} (h : c.spend s idx = .ok s') : s'.Sound c request := by
  unfold spend at h
  split at h
  · cases h
    exact ⟨hs.fits, hs.perm, hs.conserved, hs.pos, hs.done_paid, hs.index⟩
  · exact sound_payDestinations hs hindex h

end

theorem sound_carveFee (hs : s.Sound c request) (h : carveFee s = .ok s') :
    s'.Sound c request := by
  unfold carveFee at h
  split at h
  · cases h
    exact hs
  rename_i d dsts hdsts
  split at h
  · split at h
    · cases h
    rename_i i hfind
    obtain ⟨e, hentry, haddr⟩ := findIdx?_addr hfind
    simp only [hentry, Option.map_some, Option.getD_some] at h
    split at h
    · rename_i hlt
      cases h
      have hfits := hs.fits_tx
      rw [hdsts] at hfits
      refine ⟨hs.fits, hs.perm, fun q => ?_, ?_, hs.done_paid, ?_⟩
      · have hbefore := hs.conserved q
        have hcarved := sumTo_carved q hentry haddr hlt hfits
        simp only [PayState.paid, sumTo_append, hdsts] at hbefore ⊢
        omega
      · intro d' hd'
        rcases List.mem_cons.mp hd' with rfl | hd'
        · intro hzero
          have hsum := toNat_carved hentry hlt hfits
          have hpos := hs.pos d (by simp [hdsts])
          refine hpos (UInt64.toNat_inj.mp ?_)
          have : (d.amount + (e.amount - (e.amount - s.neededFee))).toNat = 0 :=
            congrArg UInt64.toNat hzero
          show _ = 0
          omega
        · exact hs.pos d' (by simp [hdsts, hd'])
      · intro hmerge
        have hne : s.tx.dsts ≠ [] := List.ne_nil_of_mem (List.mem_of_getElem? hentry)
        rw [List.length_modify]
        exact .inr ((hs.index hmerge).resolve_left hne)
    · cases h
      exact hs
  · cases h
    exact hs

theorem avoids_spend {e : SpendError} (he : e.ofLoop = true) (idx : Nat)
    (hindex : e = .originalOutputIndex → c.settings.mergeDestinations = false →
      s.originalOutputIndex ≤ s.tx.dsts.length) : Avoids e (c.spend s idx) := by
  unfold spend
  split
  · exact avoids_ok e _
  unfold payDestinations
  refine (avoids_payFully he hindex).bind fun p hfully => ?_
  refine (avoids_payPartly he fun horiginal hmerge => ?_).bind fun _ _ => avoids_ok e _
  rw [hmerge] at hfully
  exact payFully_index (hindex horiginal hmerge) hfully

theorem avoids_carveFee {e : SpendError} (he : e.ofLoop = true) (s : PayState ℓ Point) :
    Avoids e (carveFee s) := by
  unfold carveFee
  split
  · exact avoids_ok e _
  split
  · split
    · exact avoids_error he rfl
    · dsimp only
      split
      · exact avoids_ok e _
      · exact avoids_ok e _
  · exact avoids_ok e _

theorem inputs_spend {idx : Nat} (h : c.spend s idx = .ok s') : s'.inputs = s.inputs := by
  unfold spend at h
  split at h
  · cases h
    rfl
  · unfold payDestinations at h
    obtain ⟨p, -, h⟩ := Ringct.bind_eq_ok.mp h
    obtain ⟨p', -, h⟩ := Ringct.bind_eq_ok.mp h
    cases h
    rfl

theorem inputs_carveFee (h : carveFee s = .ok s') : s'.inputs = s.inputs := by
  unfold carveFee at h
  split at h
  · cases h
    rfl
  split at h
  · split at h
    · cases h
    dsimp only at h
    split at h
    · cases h
      rfl
    · cases h
      rfl
  · cases h
    rfl

theorem dsts_eq_nil (hpos : ∀ d ∈ s.dsts, d.amount ≠ 0) (h : s.firstAmount = 0) : s.dsts = [] := by
  unfold PayState.firstAmount at h
  cases hdsts : s.dsts with
  | nil => rfl
  | cons d dsts =>
    rw [hdsts] at h
    exact absurd h (hpos d (by simp [hdsts]))

theorem not_continues (h : c.continues s = false) : s.firstAmount = 0 ∧ s.addingFee = false := by
  unfold continues at h
  rw [Bool.or_eq_false_iff, Bool.or_eq_false_iff, decide_eq_false_iff_not] at h
  refine ⟨UInt64.toNat_inj.mp ?_, h.1.2⟩
  have := h.1.1
  rw [UInt64.lt_iff_toNat_lt] at this
  exact Nat.eq_zero_of_not_pos this

theorem start_sound (c : PayCall ℓ Point) {dsts : List TxDestinationEntry}
    (hfits : amountSum dsts < 2 ^ 64) (hpos : ∀ d ∈ dsts, d.amount ≠ 0) :
    (c.start dsts).Sound c dsts where
  fits := hfits
  perm := .refl _
  conserved := fun _ => Nat.zero_add _
  pos := hpos
  done_paid := nofun
  index := fun _ => .inl rfl

/-! ### Making a transaction -/

variable [AddCommGroup Point] [Module (ZMod ℓ) Point]

theorem sound_save (hs : s.Sound c request) {outs : List (List GetOutsEntry)}
    (h : c.save s outs = .ok s') : s'.Sound c request ∧ s'.Made c := by
  unfold save at h
  obtain ⟨⟨ptx, calls⟩, hadjust, h⟩ := Ringct.bind_eq_ok.mp h
  obtain ⟨hfee, fee, hmade⟩ := adjust_ok hadjust
  have hselected : ptx.selectedTransfers = s.tx.selectedTransfers := hmade.selected_eq
  have hdests : ptx.dests = s.tx.dsts := hmade.dests_eq
  have hpaid : ptx.Paid c.env c.w c.args := by
    refine ⟨?_, hfee⟩
    rw [← c.w.toNat_foundMoney, hselected, hdests]
    exact hmade.balance
  cases h
  split
  · exact ⟨⟨hs.fits, hs.perm, hs.conserved, hs.pos, hs.done_paid, hs.index⟩,
      fun _ _ => ⟨ptx, rfl, hpaid, hselected, hdests⟩⟩
  · rename_i hdsts
    refine ⟨⟨hs.fits, ?_, fun q => ?_, hs.pos, forall_mem_concat.mpr ⟨hs.done_paid, hpaid⟩,
      fun _ => .inl rfl⟩, fun hnil => absurd hnil hdsts⟩
    · simpa [PayState.selected, PayState.unused, PayTx.empty, hselected] using hs.perm
    · simpa [PayState.paid, PayTx.empty, hdests, Nat.add_assoc] using hs.conserved q

theorem sound_make (hs : s.Sound c request) (h : c.make s = .ok s') :
    s'.Sound c request ∧ s'.Made c := by
  unfold make at h
  obtain ⟨⟨test, outs⟩, -, h⟩ := Ringct.bind_eq_ok.mp h
  obtain ⟨s1, hcarve, h⟩ := Ringct.bind_eq_ok.mp h
  have hmeasured : (c.measured s test).Sound c request :=
    ⟨hs.fits, hs.perm, hs.conserved, hs.pos, hs.done_paid, hs.index⟩
  have hs1 := sound_carveFee hmeasured hcarve
  split at h
  · cases h
    exact ⟨⟨hs1.fits, hs1.perm, hs1.conserved, hs1.pos, hs1.done_paid, hs1.index⟩, nofun⟩
  · exact sound_save hs1 h

theorem sound_spendDrawn (hs : s.Sound c request) (hc : s.Careful c) (hfrom : Drawn.From s d)
    (h : c.spendDrawn d = .ok s') : s'.Sound c request ∧ s'.Made c := by
  unfold spendDrawn at h
  obtain ⟨s1, hspend, h⟩ := Ringct.bind_eq_ok.mp h
  have hindex : c.settings.mergeDestinations = false →
      (select d).originalOutputIndex ≤ (select d).tx.dsts.length := by
    cases hfrom
    exact hs.index_le hc
  have hs1 := sound_spend (sound_select hs hfrom) hindex hspend
  split at h
  · exact sound_make hs1 h
  · rename_i htry
    cases h
    refine ⟨hs1, fun hdsts hfee => absurd ?_ htry⟩
    simp [tryTx, hdsts, hfee]

/-- A turn is a draw, and what is done with it. -/
theorem turn_cases {r : Option (PayState ℓ Point)} (h : c.turn s = .ok r) :
    (r = none ∧ c.draw s = .ok none) ∨
      ∃ d s', r = some s' ∧ c.draw s = .ok (some d) ∧ c.spendDrawn d = .ok s' := by
  unfold turn at h
  split at h
  · cases h
  split at h
  · cases h
  · rename_i hdraw
    cases h
    exact .inl ⟨rfl, hdraw⟩
  · rename_i d hdraw
    obtain ⟨s1, hspend, rfl⟩ := Ringct.map_eq_ok.mp h
    exact .inr ⟨d, s1, rfl, hdraw, hspend⟩

theorem sound_turn (hs : s.Sound c request) (hc : s.Careful c) (h : c.turn s = .ok (some s')) :
    s'.Sound c request ∧ s'.Made c := by
  rcases turn_cases h with ⟨h, -⟩ | ⟨d, s1, h, hdraw, hspend⟩
  · cases h
  · cases h
    have hnodup : s.unused.Nodup := (hs.perm.nodup_iff.mpr c.nodup_eligible).of_append_right
    exact sound_spendDrawn hs hc (draw_from hnodup hc hdraw) hspend

theorem turn_none (h : c.turn s = .ok none) : s.firstAmount = 0 ∧ s.addingFee = false := by
  rcases turn_cases h with ⟨-, hdraw⟩ | ⟨d, s1, h, -, -⟩
  · exact draw_none hdraw
  · cases h

theorem avoids_make {e : SpendError} (he : e.ofLoop = true) (s : PayState ℓ Point) :
    Avoids e (c.make s) := by
  refine (avoids_attempt he _ _ _ _ _ _).bind fun test _ =>
    (avoids_carveFee he _).bind fun s1 _ => ?_
  split
  · exact avoids_ok e _
  · exact (avoids_adjust he (by omega)).bind fun _ _ => avoids_ok e _

theorem avoids_turn {e : SpendError} (he : e.ofLoop = true)
    (hindex : e = .originalOutputIndex → s.Sound c request ∧ s.Careful c) :
    Avoids e (c.turn s) := by
  unfold turn
  split
  · exact avoids_error he rfl
  cases hdraw : c.draw s with
  | error e' =>
    have havoids : Avoids e (c.draw s) := avoids_draw he s
    rw [hdraw] at havoids
    exact havoids.error
  | ok r =>
    cases r with
    | none => exact avoids_ok e _
    | some d =>
      refine Avoids.map ?_ _
      refine (avoids_spend he _ fun horiginal hmerge => ?_).bind fun s1 _ => ?_
      · obtain ⟨hs, hc⟩ := hindex horiginal
        have hnodup : s.unused.Nodup :=
          ((hs.perm.nodup_iff.mpr c.nodup_eligible).of_append_right)
        cases draw_from hnodup hc hdraw
        exact hs.index_le hc hmerge
      · split
        · exact avoids_make he s1
        · exact avoids_ok e _

theorem inputs_make (h : c.make s = .ok s') : s'.inputs = s.inputs := by
  unfold make at h
  obtain ⟨⟨test, outs⟩, -, h⟩ := Ringct.bind_eq_ok.mp h
  obtain ⟨s1, hcarve, h⟩ := Ringct.bind_eq_ok.mp h
  have hcarved : s1.inputs = (c.measured s test).inputs := inputs_carveFee hcarve
  split at h
  · cases h
    exact hcarved
  unfold save at h
  obtain ⟨⟨ptx, calls⟩, -, h⟩ := Ringct.bind_eq_ok.mp h
  cases h
  split
  · exact hcarved
  · exact hcarved

theorem turn_draws (h : c.turn s = .ok (some s')) :
    ∃ d, c.draw s = .ok (some d) ∧ s'.inputs = d.rest.inputs := by
  rcases turn_cases h with ⟨h, -⟩ | ⟨d, s1, h, hdraw, hdrawn⟩
  · cases h
  cases h
  refine ⟨d, hdraw, ?_⟩
  unfold spendDrawn at hdrawn
  obtain ⟨s2, hspend, hmake⟩ := Ringct.bind_eq_ok.mp hdrawn
  have hspent : s2.inputs = (select d).inputs := inputs_spend hspend
  split at hmake
  · exact (inputs_make hmake).trans hspent
  · cases hmake
    exact hspent

theorem turns_turn (h : c.turn s = .ok (some s')) : turns s' < turns s := by
  obtain ⟨d, hdraw, hinputs⟩ := turn_draws h
  have hless := turns_draw hdraw
  have heq : turns s' = turns d.rest := by
    obtain ⟨htransfers, hrest⟩ := Prod.ext_iff.mp hinputs
    obtain ⟨hdust, hpreferred⟩ := Prod.ext_iff.mp hrest
    simp only [PayState.inputs] at htransfers hdust hpreferred
    rw [turns, turns, htransfers, hdust, hpreferred]
  omega

end PayCall

end

end Lethean
