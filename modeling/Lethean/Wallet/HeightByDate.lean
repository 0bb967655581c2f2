import Mathlib.Data.List.Sort
import Mathlib.Data.Nat.Find
import Mathlib.Tactic.Linarith

/-!
# Lethean.Wallet.HeightByDate

`get_blockchain_height_by_date`: the height from which a wallet is restored, found by
halving the chain. The daemon is the list of the timestamps of its blocks; failures of
the connection are left out.

`mktime` gives a signed time, which is compared with the timestamps as an unsigned number.
So a day before 1970 lies in the future.
-/

namespace Lethean

inductive DateError
  | outOfRange | blocksByHeight | future
  deriving DecidableEq

def heightByDateLoop (timestamps : List Nat) (target heightMin heightMax : Nat) :
    Except DateError Nat :=
  let heightMid := (heightMin + heightMax) / 2
  match timestamps[heightMin]?, timestamps[heightMid]?, timestamps[heightMax]? with
  | some timestampMin, some timestampMid, some timestampMax =>
    if ¬ (timestampMin ≤ timestampMid ∧ timestampMid ≤ timestampMax) then
      .ok (min heightMin (min heightMid heightMax))
    else if timestampMax < target then .error .future
    else if target ≤ (timestampMin + 2 * 24 * 60 * 60) % 2 ^ 64 then .ok heightMin
    else if target ≤ timestampMid then
      if heightMid - heightMin ≤ 2 * 24 * 30 then .ok heightMin
      else heightByDateLoop timestamps target heightMin heightMid
    else
      if heightMax - heightMid ≤ 2 * 24 * 30 then .ok heightMid
      else heightByDateLoop timestamps target heightMid heightMax
  | _, _, _ => .error .blocksByHeight
termination_by heightMax - heightMin

/-- `get_blockchain_height_by_date`. The time zone is in `mktime`. -/
def getBlockchainHeightByDate (mktime : Int → Int → Int → Int) (timestamps : List Nat)
    (year month day : Nat) : Except DateError Nat :=
  if month < 1 ∨ 12 < month ∨ day < 1 ∨ 31 < day then .error .outOfRange
  else
    heightByDateLoop timestamps (mktime (year - 1900) (month - 1) day % 2 ^ 64).toNat 0
      (timestamps.length - 1)

/-- A height to restore from: no block below has the time or a later one, and the height
is not much too low, by time or by the number of blocks up to the first such block. -/
structure Restores (timestamps : List Nat) (time : Int) (height : Nat) : Prop where
  below : ∀ i < height, ∀ s ∈ timestamps[i]?, (s : Int) < time
  near : (∃ s ∈ timestamps[height]?, time ≤ s + 2 * 24 * 60 * 60) ∨
    ∃ first ≤ height + 1440, (∃ s ∈ timestamps[first]?, time ≤ s) ∧
      ∀ i < first, ∀ s ∈ timestamps[i]?, (s : Int) < time

section

variable {timestamps : List Nat} {target lo hi : Nat}
  (hbelow : ∀ i < lo, ∀ s ∈ timestamps[i]?, s < target)
  (hmax : ∃ s ∈ timestamps[hi]?, target ≤ s)
include hbelow hmax

theorem Restores.of_close (hclose : hi - lo ≤ 1440) : Restores timestamps target lo where
  below i hi s hs := Int.ofNat_lt.mpr (hbelow i hi s hs)
  near := by
    have hex : ∃ i, ∃ s ∈ timestamps[i]?, target ≤ s := ⟨hi, hmax⟩
    classical
    obtain ⟨s, hs, hle⟩ := Nat.find_spec hex
    refine .inr ⟨Nat.find hex, ?_, ⟨s, hs, Int.ofNat_le.mpr hle⟩, fun i hlt s hs => ?_⟩
    · have := Nat.find_min' hex hmax
      omega
    · exact Int.ofNat_lt.mpr (Nat.lt_of_not_le fun hle => Nat.find_min hex hlt ⟨s, hs, hle⟩)

/-- The first block of the time stays in the range, at its end or below. -/
theorem heightByDateLoop_restores (hsorted : timestamps.Pairwise (· ≤ ·)) (hle : lo ≤ hi) :
    ∃ h, heightByDateLoop timestamps target lo hi = .ok h ∧ Restores timestamps target h := by
  have hmono : ∀ {i j s s' : Nat}, i ≤ j → timestamps[i]? = some s → timestamps[j]? = some s' →
      s ≤ s' := by
    intro i j s s' hij hs hs'
    obtain ⟨hi, rfl⟩ := List.getElem?_eq_some_iff.mp hs
    obtain ⟨hj, rfl⟩ := List.getElem?_eq_some_iff.mp hs'
    rcases hij.eq_or_lt with rfl | hlt
    · exact le_rfl
    · exact List.pairwise_iff_getElem.mp hsorted i j hi hj hlt
  induction hn : hi - lo using Nat.strongRecOn generalizing lo hi with
  | ind n ih =>
    obtain ⟨sMax, (hsMax : timestamps[hi]? = some sMax), htarget⟩ := hmax
    have hlen := (List.getElem?_eq_some_iff.mp hsMax).1
    have hget : ∀ {i}, i ≤ hi → ∃ s, timestamps[i]? = some s :=
      fun hi => ⟨_, List.getElem?_eq_getElem (by omega)⟩
    obtain ⟨sMin, hsMin⟩ := hget hle
    obtain ⟨sMid, hsMid⟩ := hget (show (lo + hi) / 2 ≤ hi by omega)
    rw [heightByDateLoop]
    simp only [hsMin, hsMid, hsMax]
    rw [if_neg (not_not.mpr ⟨hmono (by omega) hsMin hsMid, hmono (by omega) hsMid hsMax⟩),
      if_neg (by omega)]
    split_ifs with hbuffer hmid hclose hclose
    · refine ⟨lo, rfl, fun i hi s hs => Int.ofNat_lt.mpr (hbelow i hi s hs), .inl ⟨sMin, hsMin, ?_⟩⟩
      have := Nat.mod_le (sMin + 2 * 24 * 60 * 60) (2 ^ 64)
      omega
    · exact ⟨lo, rfl, .of_close hbelow ⟨sMid, hsMid, hmid⟩ hclose⟩
    · exact ih _ (by omega) hbelow ⟨sMid, hsMid, hmid⟩ (by omega) rfl
    all_goals
      have hbelow' : ∀ i < (lo + hi) / 2, ∀ s ∈ timestamps[i]?, s < target :=
        fun i hi s hs => (hmono hi.le hs hsMid).trans_lt (Nat.lt_of_not_le hmid)
    · exact ⟨_, rfl, .of_close hbelow' ⟨sMax, hsMax, htarget⟩ hclose⟩
    · exact ih _ (by omega) hbelow' ⟨sMax, hsMax, htarget⟩ (by omega) rfl

end

/-- **The search is safe, from 1970 on.** For each date, on all chains of ordered
timestamps that reach it. -/
theorem height_by_date_iff (mktime : Int → Int → Int → Int) (year : Nat) {month day : Nat}
    (hmonth : 1 ≤ month ∧ month ≤ 12) (hday : 1 ≤ day ∧ day ≤ 31) {time : Int}
    (htime : mktime (year - 1900) (month - 1) day = time) (hbits : -2 ^ 63 ≤ time ∧ time < 2 ^ 63) :
    (∀ timestamps : List Nat, timestamps.Pairwise (· ≤ ·) →
      (∃ last ∈ timestamps.getLast?, time ≤ last) →
      ∃ height, getBlockchainHeightByDate mktime timestamps year month day = .ok height ∧
        Restores timestamps time height) ↔ 0 ≤ time := by
  have hcall : ∀ timestamps, getBlockchainHeightByDate mktime timestamps year month day =
      heightByDateLoop timestamps (time % 2 ^ 64).toNat 0 (timestamps.length - 1) := by
    intro timestamps
    rw [getBlockchainHeightByDate, if_neg (by omega), htime]
  simp only [hcall]
  constructor
  · intro h
    by_contra hneg
    obtain ⟨height, hok, -⟩ := h [0] (by simp) ⟨0, rfl, by omega⟩
    have hfuture : 0 < time % 18446744073709551616 := by omega
    simp [heightByDateLoop, hfuture] at hok
  · rintro hnonneg timestamps hsorted ⟨last, hlast, hle⟩
    obtain ⟨target, rfl⟩ := Int.eq_ofNat_of_zero_le hnonneg
    rw [Int.emod_eq_of_lt hnonneg (by omega), Int.toNat_natCast]
    rw [List.getLast?_eq_getElem?] at hlast
    exact heightByDateLoop_restores (by simp) ⟨last, hlast, by omega⟩ hsorted (Nat.zero_le _)

theorem height_by_date_iff_2018 :
    ∃ height, getBlockchainHeightByDate (fun _ _ _ => 1514764800) [1513900800, 1514764900] 2018 1 1 =
      .ok height ∧ Restores [1513900800, 1514764900] 1514764800 height :=
  (@height_by_date_iff (fun _ _ _ => 1514764800) 2018 1 1 (by decide) (by decide) _ rfl
    (by decide)).mpr (by decide) _ (by decide) ⟨_, rfl, by decide⟩

/-- The first of January 1960, before all blocks of any chain. -/
theorem height_by_date_before_1970 :
    getBlockchainHeightByDate (fun _ _ _ => -315619200) [1513900800] 1960 1 1 = .error .future := by
  rw [getBlockchainHeightByDate, if_neg (by decide), heightByDateLoop]
  simp

end Lethean
