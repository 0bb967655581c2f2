import Lethean.Wallet.Payments

/-!
# Lethean.Wallet.PaymentAmounts

What one input pays. The amounts of destinations are added up by address (`sumTo`),
so that the total is a special case: no step of a payment loses money, and no amount
wraps since the total of the request does not.
-/

namespace Lethean

/-! ### Amounts by address -/

def sumTo (q : AccountPublicAddress → Bool) (dsts : List TxDestinationEntry) : Nat :=
  (dsts.map fun d => if q d.addr then d.amount.toNat else 0).sum

variable (q : AccountPublicAddress → Bool)

@[simp] theorem sumTo_nil : sumTo q [] = 0 := rfl

@[simp] theorem sumTo_cons (d : TxDestinationEntry) (dsts : List TxDestinationEntry) :
    sumTo q (d :: dsts) = (if q d.addr then d.amount.toNat else 0) + sumTo q dsts := by
  simp [sumTo]

@[simp] theorem sumTo_append (dsts dsts' : List TxDestinationEntry) :
    sumTo q (dsts ++ dsts') = sumTo q dsts + sumTo q dsts' := by
  simp [sumTo]

variable {dsts paid paid' rest : List TxDestinationEntry} {d : TxDestinationEntry} {amount : UInt64}
  {addr : AccountPublicAddress} {index n : Nat} {merge : Bool} {p p' : Paying} {room : Nat → Bool}

theorem sumTo_perm {dsts' : List TxDestinationEntry}
    (h : dsts.Perm dsts') : sumTo q dsts = sumTo q dsts' :=
  (h.map _).sum_eq

theorem sumTo_true (dsts : List TxDestinationEntry) : sumTo (fun _ => true) dsts = amountSum dsts := rfl

theorem amount_le_amountSum (h : d ∈ dsts) : d.amount.toNat ≤ amountSum dsts :=
  List.le_sum_of_mem (List.mem_map_of_mem h)

theorem sumTo_modify {i : Nat} (h : dsts[i]? = some d)
    (f : TxDestinationEntry → TxDestinationEntry) :
    sumTo q (dsts.modify i f) + sumTo q [d] = sumTo q dsts + sumTo q [f d] := by
  induction dsts generalizing i with
  | nil => cases h
  | cons d' dsts ih =>
    cases i with
    | zero =>
      obtain rfl : d' = d := Option.some.inj h
      simp only [List.modify_zero_cons, sumTo_cons, sumTo_nil]
      omega
    | succ i =>
      rw [List.getElem?_cons_succ] at h
      have := ih h
      simp only [List.modify_succ_cons, sumTo_cons, sumTo_nil] at this ⊢
      omega

theorem sumTo_modify_more {i : Nat} (h : dsts[i]? = some d)
    (hfits : amountSum dsts + amount.toNat < 2 ^ 64) :
    sumTo q (dsts.modify i (·.more amount)) = sumTo q dsts + sumTo q [⟨amount, d.addr⟩] := by
  have hle := amount_le_amountSum (List.mem_of_getElem? h)
  have hsum : (d.amount + amount).toNat = d.amount.toNat + amount.toNat := by
    rw [UInt64.toNat_add]
    omega
  have := sumTo_modify q h (·.more amount)
  simp only [TxDestinationEntry.more, sumTo_cons, sumTo_nil, hsum] at this ⊢
  cases hq : q d.addr <;> simp only [hq, if_true, Bool.false_eq_true, if_false] at this ⊢ <;>
    omega

/-! ### Adding to the destinations of a transaction -/

theorem findIdx?_addr {i : Nat} (h : paid.findIdx? (·.addr = addr) = some i) :
    ∃ d, paid[i]? = some d ∧ d.addr = addr := by
  obtain ⟨hlt, heq, -⟩ := List.findIdx?_eq_some_iff_getElem.mp h
  exact ⟨paid[i], List.getElem?_eq_getElem hlt, by simpa using heq⟩

theorem sumTo_addMerged (addr : AccountPublicAddress)
    (hfits : amountSum paid + amount.toNat < 2 ^ 64) :
    sumTo q (addMerged paid addr amount) = sumTo q paid + sumTo q [⟨amount, addr⟩] := by
  unfold addMerged
  cases hfind : paid.findIdx? (·.addr = addr) with
  | none => exact sumTo_append q paid _
  | some i =>
    obtain ⟨d, hd, rfl⟩ := findIdx?_addr hfind
    exact sumTo_modify_more q hd hfits

/-- The destination at the index gets more, after one with an amount of 0 is added if
there was none. -/
theorem addIndexed_ok (h : addIndexed paid addr amount index = .ok paid') :
    ∃ paid0 d, (∀ q, sumTo q paid0 = sumTo q paid) ∧ paid0[index]? = some d ∧ d.addr = addr ∧
      paid' = paid0.modify index (·.more amount) := by
  unfold addIndexed at h
  obtain ⟨-, h⟩ := SpendError.check_eq_ok.mp h
  refine ⟨if index = paid.length then paid ++ [⟨0, addr⟩] else paid, ?_⟩
  dsimp only at h
  split at h
  · cases h
  rename_i d hd
  obtain ⟨haddr, h⟩ := SpendError.check_eq_ok.mp h
  refine ⟨d, fun q => ?_, hd, not_not.mp haddr, (Except.ok.inj h).symm⟩
  split
  · simp
  · rfl

theorem sumTo_addIndexed (h : addIndexed paid addr amount index = .ok paid')
    (hfits : amountSum paid + amount.toNat < 2 ^ 64) (q : AccountPublicAddress → Bool) :
    sumTo q paid' = sumTo q paid + sumTo q [⟨amount, addr⟩] := by
  obtain ⟨paid0, d, hzero, hd, rfl, rfl⟩ := addIndexed_ok h
  have htotal := hzero fun _ => true
  rw [sumTo_true, sumTo_true] at htotal
  rw [sumTo_modify_more q hd (by omega), hzero]

theorem sumTo_addDest (h : addDestination merge paid addr amount index = .ok paid')
    (hfits : amountSum paid + amount.toNat < 2 ^ 64) (q : AccountPublicAddress → Bool) :
    sumTo q paid' = sumTo q paid + sumTo q [⟨amount, addr⟩] := by
  cases merge with
  | true =>
    cases h
    exact sumTo_addMerged q addr hfits
  | false => exact sumTo_addIndexed h hfits q

theorem lt_length_addDest (h : addDestination false paid addr amount index = .ok paid') :
    index < paid'.length := by
  obtain ⟨paid0, d, -, hd, -, rfl⟩ := addIndexed_ok h
  rw [List.length_modify]
  exact (List.getElem?_eq_some_iff.mp hd).1

/-- The error of an index that is too large is thrown for such an index only. -/
theorem avoids_addDest {e : SpendError} (he : e.ofLoop = true) (addr : AccountPublicAddress)
    (amount : UInt64) (hindex : e = .originalOutputIndex → merge = false → index ≤ paid.length) :
    Avoids e (addDestination merge paid addr amount index) := by
  cases merge with
  | true => exact avoids_ok e _
  | false =>
    show Avoids e (addIndexed paid addr amount index)
    unfold addIndexed
    split
    · rintro ⟨⟩
      have := hindex rfl rfl
      omega
    dsimp only
    split
    · exact avoids_error he rfl
    split
    · exact avoids_error he rfl
    · exact avoids_ok e _

/-! ### Paying destinations -/

/-- What one input pays: nothing is lost, and no destination with an amount of 0 is
left. -/
structure Paying.Pays (p p' : Paying) : Prop where
  conserved : ∀ q, sumTo q p'.paid + sumTo q p'.dsts = sumTo q p.paid + sumTo q p.dsts
  pos : (∀ d ∈ p.dsts, d.amount ≠ 0) → ∀ d ∈ p'.dsts, d.amount ≠ 0

namespace Paying

theorem Pays.refl (p : Paying) : Pays p p := ⟨fun _ => rfl, id⟩

theorem Pays.trans {p p' p'' : Paying} (h : Pays p p') (h' : Pays p' p'') : Pays p p'' :=
  ⟨fun q => (h'.conserved q).trans (h.conserved q), h'.pos ∘ h.pos⟩

/-- The total of what is paid and left fits into a word. -/
def Fits (p : Paying) : Prop := amountSum p.paid + amountSum p.dsts < 2 ^ 64

theorem Pays.fits {p p' : Paying} (h : Pays p p') (hfits : p.Fits) : p'.Fits := by
  have := h.conserved fun _ => true
  simp only [sumTo_true] at this
  unfold Fits at hfits ⊢
  omega

end Paying

theorem pays_first (hdsts : p.dsts = d :: rest) (hfits : p.Fits)
    (hadd : addDestination merge p.paid d.addr d.amount p.originalOutputIndex = .ok paid) :
    Paying.Pays p
      ⟨Draw.swapRemove p.dsts 0, paid, p.availableAmount - d.amount, p.originalOutputIndex + 1⟩ := by
  have hperm : p.dsts.Perm (d :: Draw.swapRemove p.dsts 0) :=
    Draw.perm_cons_swapRemove (by rw [hdsts]; rfl)
  have hle : d.amount.toNat ≤ amountSum p.dsts := amount_le_amountSum (by simp [hdsts])
  unfold Paying.Fits at hfits
  refine ⟨fun q => ?_, fun hpos d' hd' => ?_⟩
  · have hall := sumTo_perm q hperm
    have := sumTo_addDest hadd (by omega) q
    simp only [sumTo_cons, sumTo_nil] at hall this
    dsimp only
    omega
  · exact hpos d' (hperm.mem_iff.mpr (List.mem_cons_of_mem d hd'))

/-- A round pays the first destination, or the loop stops: nothing is left, the input
is not enough, or there is no room. -/
theorem payFully_cases (h : payFully merge room (n + 1) p = .ok p') :
    p' = p ∧ (∀ d rest, p.dsts = d :: rest → room p.paid.length = true →
        p.availableAmount < d.amount) ∨
      ∃ d rest paid, p.dsts = d :: rest ∧
        addDestination merge p.paid d.addr d.amount p.originalOutputIndex = .ok paid ∧
        payFully merge room n ⟨Draw.swapRemove p.dsts 0, paid, p.availableAmount - d.amount,
          p.originalOutputIndex + 1⟩ = .ok p' := by
  rw [payFully] at h
  cases hdsts : p.dsts with
  | nil =>
    simp only [hdsts] at h
    exact .inl ⟨(Except.ok.inj h).symm, nofun⟩
  | cons d rest =>
    simp only [hdsts] at h
    split at h
    · obtain ⟨paid, hadd, h⟩ := Ringct.bind_eq_ok.mp h
      exact .inr ⟨d, rest, paid, rfl, hadd, h⟩
    · rename_i hstop
      refine .inl ⟨(Except.ok.inj h).symm, fun d' rest' heq hroom => ?_⟩
      cases heq
      simp only [hroom, Bool.and_true, decide_eq_true_eq] at hstop
      exact UInt64.not_le.mp hstop

theorem payFully_pays (hfits : p.Fits) (h : payFully merge room n p = .ok p') :
    Paying.Pays p p' := by
  induction n generalizing p with
  | zero =>
    cases h
    exact .refl _
  | succ n ih =>
    rcases payFully_cases h with ⟨rfl, -⟩ | ⟨d, rest, paid, hdsts, hadd, h⟩
    · exact .refl _
    · have hfirst := pays_first hdsts hfits hadd
      exact hfirst.trans (ih (hfirst.fits hfits) h)

/-- The loop stops at a destination that the input cannot pay, or without room. -/
theorem payFully_stops (hn : p.dsts.length ≤ n) (h : payFully merge room n p = .ok p')
    (hdsts : p'.dsts = d :: rest) (hroom : room p'.paid.length = true) :
    p'.availableAmount < d.amount := by
  induction n generalizing p with
  | zero =>
    cases h
    simp [hdsts] at hn
  | succ n ih =>
    rcases payFully_cases h with ⟨rfl, hstop⟩ | ⟨d', rest', paid, hfirst, -, h⟩
    · exact hstop d rest hdsts hroom
    refine ih ?_ h
    have hperm : p.dsts.Perm (d' :: Draw.swapRemove p.dsts 0) :=
      Draw.perm_cons_swapRemove (by rw [hfirst]; rfl)
    have := hperm.length_eq
    simp only [List.length_cons] at this ⊢
    omega

theorem payPartly_pays (hfits : p.Fits)
    (hless : ∀ d rest, p.dsts = d :: rest → room p.paid.length = true → p.availableAmount < d.amount)
    (h : payPartly merge room p = .ok p') : Paying.Pays p p' := by
  unfold payPartly at h
  cases hdsts : p.dsts with
  | nil =>
    simp only [hdsts] at h
    cases h
    exact .refl _
  | cons d rest =>
    simp only [hdsts] at h
    split at h
    · rename_i hpart
      rw [Bool.and_eq_true] at hpart
      have hlt := UInt64.lt_iff_toNat_lt.mp (hless d rest hdsts hpart.2)
      have hle : d.amount.toNat ≤ amountSum p.dsts := amount_le_amountSum (by simp [hdsts])
      unfold Paying.Fits at hfits
      obtain ⟨paid, hadd, h⟩ := Ringct.bind_eq_ok.mp h
      have hleft : (d.amount - p.availableAmount).toNat =
          d.amount.toNat - p.availableAmount.toNat :=
        UInt64.toNat_sub_of_le _ _ (UInt64.le_iff_toNat_le.mpr (by omega))
      cases h
      refine ⟨fun q => ?_, fun hpos d' hd' => ?_⟩
      · have := sumTo_addDest hadd (by omega) q
        simp only [hdsts, sumTo_cons, sumTo_nil, hleft] at this ⊢
        cases hq : q d.addr <;> simp only [hq, if_true, Bool.false_eq_true, if_false] at this ⊢ <;>
          omega
      · rcases List.mem_cons.mp hd' with rfl | hd'
        · intro hzero
          have : (d.amount - p.availableAmount).toNat = 0 := congrArg UInt64.toNat hzero
          omega
        · exact hpos d' (by simp [hdsts, hd'])
    · cases h
      exact .refl _

/-! ### Taking the fee from a destination -/

section

variable {paid rest : List TxDestinationEntry} {i : Nat} {e d : TxDestinationEntry} {fee : UInt64}

theorem toNat_carved (hentry : paid[i]? = some e) (hlt : fee < e.amount)
    (hfits : amountSum paid + amountSum (d :: rest) < 2 ^ 64) :
    (d.amount + (e.amount - (e.amount - fee))).toNat = d.amount.toNat + fee.toNat := by
  have hpaid := amount_le_amountSum (List.mem_of_getElem? hentry)
  have hleft : d.amount.toNat ≤ amountSum (d :: rest) := amount_le_amountSum List.mem_cons_self
  rw [UInt64.lt_iff_toNat_lt] at hlt
  have hnew : (e.amount - fee).toNat = e.amount.toNat - fee.toNat :=
    UInt64.toNat_sub_of_le _ _ (UInt64.le_iff_toNat_le.mpr (by omega))
  rw [UInt64.toNat_add, UInt64.toNat_sub_of_le _ _ (UInt64.le_iff_toNat_le.mpr (by omega)), hnew]
  omega

theorem sumTo_carved (q : AccountPublicAddress → Bool) (hentry : paid[i]? = some e)
    (haddr : e.addr = d.addr) (hlt : fee < e.amount)
    (hfits : amountSum paid + amountSum (d :: rest) < 2 ^ 64) :
    sumTo q (paid.modify i fun e' => ⟨e.amount - fee, e'.addr⟩) +
        sumTo q (⟨d.amount + (e.amount - (e.amount - fee)), d.addr⟩ :: rest) =
      sumTo q paid + sumTo q (d :: rest) := by
  have hmore := toNat_carved hentry hlt hfits
  have hmodify := sumTo_modify q hentry fun e' => (⟨e.amount - fee, e'.addr⟩ : TxDestinationEntry)
  rw [UInt64.lt_iff_toNat_lt] at hlt
  have hnew : (e.amount - fee).toNat = e.amount.toNat - fee.toNat :=
    UInt64.toNat_sub_of_le _ _ (UInt64.le_iff_toNat_le.mpr (by omega))
  simp only [sumTo_cons, sumTo_nil, haddr, hnew] at hmodify
  simp only [sumTo_cons, hmore]
  cases hq : q d.addr <;> simp only [hq, if_true, Bool.false_eq_true, if_false] at hmodify ⊢ <;>
    omega

end

/-! ### The index of a destination -/

/-- The index stays at the last destination of the transaction, or right behind it. -/
theorem payFully_index (hindex : p.originalOutputIndex ≤ p.paid.length)
    (h : payFully false room n p = .ok p') : p'.originalOutputIndex ≤ p'.paid.length := by
  induction n generalizing p with
  | zero =>
    cases h
    exact hindex
  | succ n ih =>
    rcases payFully_cases h with ⟨rfl, -⟩ | ⟨d, rest, paid, -, hadd, h⟩
    · exact hindex
    · refine ih ?_ h
      exact lt_length_addDest hadd

theorem payPartly_index (hindex : p.originalOutputIndex ≤ p.paid.length)
    (h : payPartly false room p = .ok p') : p'.originalOutputIndex ≤ p'.paid.length := by
  unfold payPartly at h
  split at h
  · cases h
    exact hindex
  split at h
  · obtain ⟨paid, hadd, h⟩ := Ringct.bind_eq_ok.mp h
    cases h
    exact (lt_length_addDest hadd).le
  · cases h
    exact hindex

section

variable {e : SpendError} (he : e.ofLoop = true) {merge : Bool} {room : Nat → Bool}
include he

theorem avoids_payFully {n : Nat} {p : Paying} (hindex : e = .originalOutputIndex → merge = false →
      p.originalOutputIndex ≤ p.paid.length) :
    Avoids e (payFully merge room n p) := by
  induction n generalizing p with
  | zero => exact avoids_ok e p
  | succ n ih =>
    rw [payFully]
    split
    · exact avoids_ok e p
    split
    · refine (avoids_addDest he _ _ hindex).bind fun paid hadd => ih fun _ hmerge => ?_
      subst hmerge
      exact lt_length_addDest hadd
    · exact avoids_ok e p

theorem avoids_payPartly {p : Paying} (hindex : e = .originalOutputIndex → merge = false →
      p.originalOutputIndex ≤ p.paid.length) :
    Avoids e (payPartly merge room p) := by
  unfold payPartly
  split
  · exact avoids_ok e p
  split
  · exact (avoids_addDest he _ _ hindex).bind fun _ _ => avoids_ok e _
  · exact avoids_ok e p

end

end Lethean
