import Lethean.CryptonoteBasic.Difficulty

/-!
# Lethean.CryptonoteBasic.LegacyDifficulty

The two sorting rules of `next_difficulty`: versions 1 and 2, and version 3. Both
cut the outliers off the sorted timestamps and divide the work of what is left
by its time span, rounding up, with a check that the numerator of that division
fits in 64 bits. Version 3 divides by an adjusted span, but its check was left
at the span before the adjustment. So the result of version 3 is what the check
promises exactly if both spans agree about the overflow; versions 1 and 2 have
only one span.

The source indexes its vectors without a check. `nextDifficultyV1Checked` and
`nextDifficultyV3Checked` are the two rules with every access checked.
-/

namespace Lethean

/-! ### The rules with checked accesses -/

/-- `time_spans` of the version 3 rule. -/
def timeSpansChecked (timestamps : List Nat) (i : Nat) : Option (List Nat) :=
  (List.range' i (timestamps.length - 1 - i)).mapM fun j => do
    let next ← timestamps[j + 1]?
    let this ← timestamps[j]?
    pure (timeSpanOf next this)

/-- `timespan_median` of the version 3 rule. -/
def timespanMedianChecked (timestamps : List Nat) (length cutBegin : Nat) : Option Nat :=
  if 0 < cutBegin ∧ cutBegin * 2 + 3 ≤ length then
    (timeSpansChecked timestamps (length - cutBegin * 2 - 3)).map median
  else some 0

def nextDifficultyV1Checked (timestamps cds : List Nat) : Option Nat :=
  let timestamps := timestamps.take difficultyWindow
  let cd := cds.take difficultyWindow
  let length := timestamps.length
  if length ≤ 1 then some 1
  else
    let timestamps := sortU64 timestamps
    let (cutBegin, cutEnd) := cutBounds length (difficultyWindow - 2 * difficultyCut)
    do
      let last ← timestamps[cutEnd - 1]?
      let first ← timestamps[cutBegin]?
      let lastWork ← cd[cutEnd - 1]?
      let firstWork ← cd[cutBegin]?
      pure (quotientV1 (subU64 lastWork firstWork) (timeSpanOf last first))

def nextDifficultyV3Checked (timestamps cds : List Nat) : Option Nat :=
  let timestamps := timestamps.take difficultyBlocksCountV2
  let cd := cds.take difficultyBlocksCountV2
  let length := timestamps.length
  if length ≤ 1 then some 1
  else
    let timestamps := sortU64 timestamps
    let (cutBegin, cutEnd) := cutBounds length (difficultyBlocksCountV2 - 2 * difficultyCutV2)
    do
      let last ← timestamps[cutEnd - 1]?
      let first ← timestamps[cutBegin]?
      let totalTimespan := timeSpanOf last first
      let timespanMedian ← timespanMedianChecked timestamps length cutBegin
      let adjusted := adjustedTimespan totalTimespan timespanMedian (length - cutBegin * 2 - 1)
      let lastWork ← cd[cutEnd - 1]?
      let firstWork ← cd[cutBegin]?
      pure (quotientV3 (subU64 lastWork firstWork) totalTimespan adjusted)

/-! ### Every access is in range -/

theorem cutBounds_spec {length kept : Nat} (hlength : 2 ≤ length) (hkept : 2 ≤ kept) :
    (cutBounds length kept).1 + 2 ≤ (cutBounds length kept).2 ∧
      (cutBounds length kept).2 ≤ length := by
  unfold cutBounds
  split <;> dsimp only <;> omega

theorem cutBegin_mul_two_le {length kept : Nat} (hkept : 4 ≤ kept) :
    (cutBounds length kept).1 * 2 + 3 ≤ length ∨ (cutBounds length kept).1 = 0 := by
  unfold cutBounds
  split <;> dsimp only <;> omega

theorem getElem?_eq_getD {l : List Nat} {i : Nat} (h : i < l.length) :
    l[i]? = some (l.getD i 0) := by
  rw [List.getElem?_eq_getElem h, List.getD_eq_getElem _ _ h]

theorem timeSpansChecked_eq (timestamps : List Nat) (i : Nat) :
    timeSpansChecked timestamps i = some (timeSpans timestamps i) := by
  have hread : ∀ j ∈ List.range' i (timestamps.length - 1 - i),
      (do let next ← timestamps[j + 1]?
          let this ← timestamps[j]?
          pure (timeSpanOf next this)) =
        some (timeSpanOf (timestamps.getD (j + 1) 0) (timestamps.getD j 0)) := by
    intro j hj
    rw [List.mem_range'_1] at hj
    rw [getElem?_eq_getD (by omega), getElem?_eq_getD (by omega)]
    rfl
  rw [timeSpansChecked, mapM_eq_some hread, timeSpans]
  congr 1
  refine List.ext_getElem ?_ fun k hk _ => ?_
  · simp only [List.length_map, List.length_range', List.length_zip, List.length_drop,
      List.length_tail]
    omega
  · rw [List.length_map, List.length_range'] at hk
    simp only [List.getElem_map, List.getElem_range', List.getElem_zip, List.getElem_drop,
      List.getElem_tail, Nat.one_mul]
    rw [List.getD_eq_getElem _ _ (by omega), List.getD_eq_getElem _ _ (by omega)]
    rfl

variable {timestamps : List Nat} {totalWork span : Nat}

theorem nextDifficultyV1Checked_eq {cds : List Nat} (hlen : cds.length = timestamps.length) :
    nextDifficultyV1Checked timestamps cds =
      some (nextDifficultyV1 timestamps cds) := by
  have hcd : (cds.take difficultyWindow).length =
      (timestamps.take difficultyWindow).length := by
    rw [List.length_take, List.length_take, hlen]
  unfold nextDifficultyV1Checked nextDifficultyV1
  generalize timestamps.take difficultyWindow = ts at *
  generalize cds.take difficultyWindow = cd at *
  dsimp only
  by_cases h : ts.length ≤ 1
  · rw [if_pos h, if_pos h]
  obtain ⟨hcut, hend⟩ := cutBounds_spec (not_le.mp h)
    (show 2 ≤ difficultyWindow - 2 * difficultyCut by decide)
  rw [if_neg h, if_neg h]
  generalize cutBounds ts.length (difficultyWindow - 2 * difficultyCut) = cut at *
  have hsort := length_sortU64 ts
  rw [getElem?_eq_getD (show cut.2 - 1 < (sortU64 ts).length by omega),
    getElem?_eq_getD (show cut.1 < (sortU64 ts).length by omega),
    getElem?_eq_getD (show cut.2 - 1 < cd.length by omega),
    getElem?_eq_getD (show cut.1 < cd.length by omega)]
  rfl

theorem nextDifficultyV3Checked_eq {cds : List Nat} (hlen : cds.length = timestamps.length) :
    nextDifficultyV3Checked timestamps cds =
      some (nextDifficultyV3 timestamps cds) := by
  have hcd : (cds.take difficultyBlocksCountV2).length =
      (timestamps.take difficultyBlocksCountV2).length := by
    rw [List.length_take, List.length_take, hlen]
  unfold nextDifficultyV3Checked nextDifficultyV3
  generalize timestamps.take difficultyBlocksCountV2 = ts at *
  generalize cds.take difficultyBlocksCountV2 = cd at *
  dsimp only
  by_cases h : ts.length ≤ 1
  · rw [if_pos h, if_pos h]
  obtain ⟨hcut, hend⟩ := cutBounds_spec (not_le.mp h)
    (show 2 ≤ difficultyBlocksCountV2 - 2 * difficultyCutV2 by decide)
  rw [if_neg h, if_neg h]
  generalize cutBounds ts.length (difficultyBlocksCountV2 - 2 * difficultyCutV2) = cut at *
  have hsort := length_sortU64 ts
  have hmedian : timespanMedianChecked (sortU64 ts) ts.length cut.1 =
      some (if 0 < cut.1 ∧ cut.1 * 2 + 3 ≤ ts.length then
        median (timeSpans (sortU64 ts) (ts.length - cut.1 * 2 - 3)) else 0) := by
    rw [timespanMedianChecked, timeSpansChecked_eq]
    split <;> rfl
  rw [getElem?_eq_getD (show cut.2 - 1 < (sortU64 ts).length by omega),
    getElem?_eq_getD (show cut.1 < (sortU64 ts).length by omega), hmedian,
    getElem?_eq_getD (show cut.2 - 1 < cd.length by omega),
    getElem?_eq_getD (show cut.1 < cd.length by omega)]
  rfl

/-! ### The rules over the integers -/

/-- How many blocks the rule of a version looks at, and how many of them it keeps. -/
def legacyWindow (version : Nat) : Nat × Nat :=
  if version = 3 then (difficultyBlocksCountV2, difficultyBlocksCountV2 - 2 * difficultyCutV2)
  else (difficultyWindow, difficultyWindow - 2 * difficultyCut)

/-- `cutBegin` and `cutEnd` for vectors of a length. -/
def legacyCut (version length : Nat) : Nat × Nat :=
  cutBounds (min length (legacyWindow version).1) (legacyWindow version).2

/-- The sorted timestamps of the window. -/
def legacyTimes (version : Nat) (timestamps : List Nat) : List Nat :=
  sortU64 (timestamps.take (legacyWindow version).1)

/-- The time span of what is kept, at least 1. -/
def legacySpan (version : Nat) (timestamps : List Nat) : Nat :=
  let (cutBegin, cutEnd) := legacyCut version timestamps.length
  let ts := legacyTimes version timestamps
  max 1 (ts.getD (cutEnd - 1) 0 - ts.getD cutBegin 0)

def legacyWork (version : Nat) (cds : List Nat) : Nat :=
  let (cutBegin, cutEnd) := legacyCut version cds.length
  cds.getD (cutEnd - 1) 0 - cds.getD cutBegin 0

/-- The gaps between timestamps from index `i` on, at least 1 each. -/
def gaps (timestamps : List Nat) (i : Nat) : List Nat :=
  let ts := timestamps.drop i
  (ts.zip ts.tail).map fun p => max 1 (p.2 - p.1)

/-- The median, with the two middle values averaged. -/
def exactMedian (v : List Nat) : Nat :=
  match v with
  | [] => 0
  | [x] => x
  | _ =>
    let n := v.length / 2
    let s := sortU64 v
    if v.length % 2 = 1 then s.getD n 0 else (s.getD (n - 1) 0 + s.getD n 0) / 2

/-- The span that version 3 divides by: eight tenths of the span and three tenths
of the median gap for every gap, between 10 and 1440 seconds for each gap. Without
a cut there is no median, and seven tenths of the span stand for it. -/
def legacyAdjusted (timestamps : List Nat) : Nat :=
  let length := min timestamps.length difficultyBlocksCountV2
  let cutBegin := (legacyCut 3 timestamps.length).1
  let gapCount := length - cutBegin * 2 - 1
  let span := legacySpan 3 timestamps
  let medians :=
    if 0 < cutBegin then
      exactMedian (gaps (legacyTimes 3 timestamps) (length - cutBegin * 2 - 3)) * gapCount
    else span * 7 / 10
  max (min ((span * 8 + medians * 3) / 10) (maxAverageTimespan * gapCount))
    (minAverageTimespan * gapCount)

/-- The span that the rule of a version divides by. -/
def legacyDivisor (version : Nat) (timestamps : List Nat) : Nat :=
  if version = 3 then legacyAdjusted timestamps else legacySpan version timestamps

/-! ### The arithmetic is exact -/

theorem timeSpanOf_eq {last first : Nat} (hle : first ≤ last) (hlast : last < 2 ^ 64) :
    timeSpanOf last first = max 1 (last - first) := by
  rw [timeSpanOf, subU64_of_le hle hlast]
  split <;> omega

theorem pairwise_sortU64 (v : List Nat) : (sortU64 v).Pairwise (· ≤ ·) :=
  v.pairwise_insertionSort _

theorem timeSpans_eq (hsorted : timestamps.Pairwise (· ≤ ·)) (hts : ∀ ts ∈ timestamps, ts < 2 ^ 64)
    (i : Nat) : timeSpans timestamps i = gaps timestamps i := by
  refine List.map_congr_left fun p hp => ?_
  obtain ⟨k, hk, rfl⟩ := List.mem_iff_getElem.mp hp
  rw [List.length_zip, List.length_tail, List.length_drop] at hk
  rw [List.getElem_zip, List.getElem_tail, List.getElem_drop, List.getElem_drop]
  exact timeSpanOf_eq (List.pairwise_iff_getElem.mp hsorted _ _ _ _ (by omega))
    (hts _ (List.getElem_mem _))

theorem one_le_of_mem_gaps {i g : Nat} (h : g ∈ gaps timestamps i) : 1 ≤ g := by
  obtain ⟨p, -, rfl⟩ := List.mem_map.mp h
  exact le_max_left _ _

theorem lt_of_mem_gaps {b i g : Nat} (hb : 1 < b) (hts : ∀ ts ∈ timestamps, ts < b)
    (h : g ∈ gaps timestamps i) : g < b := by
  obtain ⟨p, hp, rfl⟩ := List.mem_map.mp h
  have hmem : p.2 ∈ timestamps :=
    List.mem_of_mem_drop (List.mem_of_mem_tail (List.of_mem_zip hp).2)
  have := hts _ hmem
  omega

theorem median_eq_exactMedian {v : List Nat} (h : ∀ x ∈ v, x < 2 ^ 63) :
    median v = exactMedian v := by
  rcases v with _ | ⟨x, _ | ⟨y, v⟩⟩
  · rfl
  · rfl
  · have hlen : 2 ≤ (x :: y :: v).length := by simp
    have h1 := h _
      (sortU64_getD_mem (v := x :: y :: v) (n := (x :: y :: v).length / 2 - 1) (by omega))
    have h2 := h _ (sortU64_getD_mem (v := x :: y :: v) (n := (x :: y :: v).length / 2) (by omega))
    simp only [median, exactMedian]
    rw [u64_of_lt (by omega)]

theorem guard_iff (hspan : 1 ≤ span) :
    ((mul128 totalWork difficultyTarget).2 ≠ 0 ∨
        2 ^ 64 - 1 - (mul128 totalWork difficultyTarget).1 < span - 1) ↔
      2 ^ 64 ≤ totalWork * difficultyTarget + span - 1 := by
  unfold mul128
  generalize totalWork * difficultyTarget = p
  omega

theorem quotientV1_eq (hspan : 1 ≤ span) :
    quotientV1 totalWork span =
      if 2 ^ 64 ≤ totalWork * difficultyTarget + span - 1 then 0
      else (totalWork * difficultyTarget) ⌈/⌉ span := by
  unfold quotientV1
  simp only [guard_iff hspan]
  split
  · rfl
  · rename_i h
    have hlow : (mul128 totalWork difficultyTarget).1 = totalWork * difficultyTarget :=
      Nat.mod_eq_of_lt (by omega)
    rw [hlow, u64_of_lt (by omega), Nat.ceilDiv_eq_add_pred_div]

theorem quotientV3_eq {adjusted : Nat} (hspan : 1 ≤ span) :
    quotientV3 totalWork span adjusted =
      if 2 ^ 64 ≤ totalWork * difficultyTarget + span - 1 then 0
      else max 1 (u64 (totalWork * difficultyTarget + adjusted - 1) / adjusted) := by
  unfold quotientV3
  simp only [guard_iff hspan]
  split
  · rfl
  · rename_i h
    have hlow : (mul128 totalWork difficultyTarget).1 = totalWork * difficultyTarget :=
      Nat.mod_eq_of_lt (by omega)
    rw [hlow]
    split <;> omega

/-- For spans below `2 ^ 56` the adjustment does not wrap. -/
theorem adjustedTimespan_eq {med len : Nat} (hspan : span < 2 ^ 56) (hmed : med < 2 ^ 56)
    (hlen : len ≤ 28) :
    adjustedTimespan span med len =
      max (min ((span * 8 + (if 0 < med then med * len else span * 7 / 10) * 3) / 10)
        (maxAverageTimespan * len)) (minAverageTimespan * len) := by
  have hproduct : med * len ≤ 2 ^ 56 * 28 := Nat.mul_le_mul hmed.le hlen
  have hmedians : (if 0 < med then u64 (med * len) else u64 (span * 7) / 10) =
      if 0 < med then med * len else span * 7 / 10 := by
    rw [u64_of_lt (n := med * len) (by omega), u64_of_lt (n := span * 7) (by omega)]
  have hle : (if 0 < med then med * len else span * 7 / 10) ≤ 2 ^ 56 * 28 := by
    split <;> omega
  unfold adjustedTimespan
  rw [hmedians]
  generalize (if 0 < med then med * len else span * 7 / 10) = medians at *
  dsimp only
  rw [u64_of_lt (by omega)]
  generalize (span * 8 + medians * 3) / 10 = a
  generalize maxAverageTimespan * len = hi
  generalize minAverageTimespan * len = lo
  split <;> split <;> omega

/-! ### The two rules -/

section

variable (version : Nat) {timestamps cds : List Nat}

theorem legacyCut_spec {length : Nat} (hlength : 2 ≤ length) :
    (legacyCut version length).1 + 2 ≤ (legacyCut version length).2 ∧
      (legacyCut version length).2 ≤ min length (legacyWindow version).1 := by
  have hwindow : 2 ≤ (legacyWindow version).1 ∧ 2 ≤ (legacyWindow version).2 := by
    unfold legacyWindow
    split <;> decide
  exact cutBounds_spec (by omega) hwindow.2

theorem length_legacyTimes (timestamps : List Nat) :
    (legacyTimes version timestamps).length = min timestamps.length (legacyWindow version).1 := by
  rw [legacyTimes, length_sortU64, List.length_take, min_comm]

theorem one_le_legacySpan (timestamps : List Nat) :
    1 ≤ legacySpan version timestamps := le_max_left _ _

theorem lt_of_mem_legacyTimes {b ts : Nat} (hts : ∀ ts ∈ timestamps, ts < b)
    (h : ts ∈ legacyTimes version timestamps) : ts < b :=
  hts ts (List.mem_of_mem_take ((List.perm_insertionSort _ _).mem_iff.mp h))

theorem timeSpanOf_legacyTimes (hlen : 2 ≤ timestamps.length)
    (hts : ∀ ts ∈ timestamps, ts < 2 ^ 64) :
    timeSpanOf
        ((legacyTimes version timestamps).getD ((legacyCut version timestamps.length).2 - 1) 0)
        ((legacyTimes version timestamps).getD (legacyCut version timestamps.length).1 0) =
      legacySpan version timestamps := by
  obtain ⟨hcut, hend⟩ := legacyCut_spec version hlen
  have hlength := length_legacyTimes version timestamps
  have hsorted : (legacyTimes version timestamps).Pairwise (· ≤ ·) := pairwise_sortU64 _
  exact timeSpanOf_eq (getD_le_getD hsorted (by omega) (by omega))
    (getD_lt (fun ts => lt_of_mem_legacyTimes version hts) (by decide) _)

theorem subU64_legacyWork (hlen : 2 ≤ cds.length) (hcd : ∀ d ∈ cds, d < 2 ^ 64)
    (hmono : cds.Pairwise (· ≤ ·)) :
    subU64 ((cds.take (legacyWindow version).1).getD ((legacyCut version cds.length).2 - 1) 0)
        ((cds.take (legacyWindow version).1).getD (legacyCut version cds.length).1 0) =
      legacyWork version cds := by
  obtain ⟨hcut, hend⟩ := legacyCut_spec version hlen
  have htake {i : Nat} (hi : i < (legacyWindow version).1) (hi' : i < cds.length) :
      (cds.take (legacyWindow version).1).getD i 0 =
        cds.getD i 0 := by
    rw [List.getD_eq_getElem _ _ (by rw [List.length_take]; omega), List.getElem_take,
      List.getD_eq_getElem _ _ hi']
  rw [htake (by omega) (by omega), htake (by omega) (by omega),
    subU64_of_le (getD_le_getD hmono (by omega) (by omega)) (getD_lt hcd (by decide) _)]
  rfl

theorem one_le_legacyWork (hlen : 2 ≤ cds.length) (hmono : cds.Pairwise (· < ·)) :
    1 ≤ legacyWork version cds := by
  obtain ⟨hcut, hend⟩ := legacyCut_spec version hlen
  have := List.pairwise_iff_getElem.mp hmono (legacyCut version cds.length).1
    ((legacyCut version cds.length).2 - 1) (by omega) (by omega) (by omega)
  dsimp only [legacyWork]
  rw [List.getD_eq_getElem _ _ (by omega), List.getD_eq_getElem _ _ (by omega)]
  omega

variable {version} in
theorem nextDifficultyV1_eq (hversion : version ≠ 3) (hlen : 2 ≤ timestamps.length)
    (heq : cds.length = timestamps.length)
    (hts : ∀ ts ∈ timestamps, ts < 2 ^ 64) (hcd : ∀ d ∈ cds, d < 2 ^ 64)
    (hmono : cds.Pairwise (· ≤ ·)) :
    nextDifficultyV1 timestamps cds =
      quotientV1 (legacyWork version cds) (legacySpan version timestamps) := by
  have hwindow : legacyWindow version = (difficultyWindow, difficultyWindow - 2 * difficultyCut) :=
    if_neg hversion
  have hlength : (timestamps.take difficultyWindow).length =
      min timestamps.length difficultyWindow := by
    rw [List.length_take, min_comm]
  have hspan := timeSpanOf_legacyTimes version hlen hts
  have hwork := subU64_legacyWork version (heq ▸ hlen) hcd hmono
  rw [legacyTimes, legacyCut, hwindow] at hspan
  rw [legacyCut, hwindow, heq] at hwork
  have hlong : ¬min timestamps.length difficultyWindow ≤ 1 := by
    have : difficultyWindow = 720 := rfl
    omega
  unfold nextDifficultyV1
  dsimp only
  rw [hlength, if_neg hlong, ← hspan, ← hwork]

theorem legacySpan_lt {b : Nat} (hb : 1 < b) (hts : ∀ ts ∈ timestamps, ts < b) :
    legacySpan version timestamps < b := by
  have := getD_lt (fun ts => lt_of_mem_legacyTimes version hts) (by omega)
    ((legacyCut version timestamps.length).2 - 1)
  dsimp only [legacySpan]
  omega

theorem adjustedTimespan_legacy (hts : ∀ ts ∈ timestamps, ts < 2 ^ 56) :
    adjustedTimespan (legacySpan 3 timestamps) (if 0 < (legacyCut 3 timestamps.length).1 ∧
            (legacyCut 3 timestamps.length).1 * 2 + 3 ≤
              min timestamps.length difficultyBlocksCountV2 then
          median (timeSpans (legacyTimes 3 timestamps)
            (min timestamps.length difficultyBlocksCountV2 -
              (legacyCut 3 timestamps.length).1 * 2 - 3))
        else 0)
        (min timestamps.length difficultyBlocksCountV2 -
          (legacyCut 3 timestamps.length).1 * 2 - 1) =
      legacyAdjusted timestamps := by
  have hsorted : (legacyTimes 3 timestamps).Pairwise (· ≤ ·) := pairwise_sortU64 _
  have htimes : ∀ ts ∈ legacyTimes 3 timestamps, ts < 2 ^ 56 :=
    fun ts => lt_of_mem_legacyTimes 3 hts
  have hspan := legacySpan_lt 3 (by decide) hts
  have hlength : (legacyTimes 3 timestamps).length =
      min timestamps.length difficultyBlocksCountV2 := length_legacyTimes 3 timestamps
  have hcut : (legacyCut 3 timestamps.length).1 * 2 + 3 ≤
      min timestamps.length difficultyBlocksCountV2 ∨ (legacyCut 3 timestamps.length).1 = 0 :=
    cutBegin_mul_two_le (by decide)
  have hwindow : min timestamps.length difficultyBlocksCountV2 ≤ 29 := min_le_right _ _
  unfold legacyAdjusted
  dsimp only
  generalize min timestamps.length difficultyBlocksCountV2 = n at *
  generalize (legacyCut 3 timestamps.length).1 = cutBegin at *
  by_cases hc : 0 < cutBegin
  · have hgaps : ∀ g ∈ gaps (legacyTimes 3 timestamps) (n - cutBegin * 2 - 3), g < 2 ^ 56 :=
      fun g => lt_of_mem_gaps (by decide) htimes
    have hne : gaps (legacyTimes 3 timestamps) (n - cutBegin * 2 - 3) ≠ [] := by
      rw [← List.length_pos_iff, gaps, List.length_map, List.length_zip, List.length_tail,
        List.length_drop]
      omega
    have hpos : 0 < median (gaps (legacyTimes 3 timestamps) (n - cutBegin * 2 - 3)) :=
      le_median hne (fun g => one_le_of_mem_gaps) fun g hg => (hgaps g hg).trans (by decide)
    have hlt := median_le fun g hg => Nat.le_of_lt_succ (hgaps g hg)
    rw [if_pos ⟨hc, by omega⟩, if_pos hc,
      timeSpans_eq hsorted (fun ts hmem => (htimes ts hmem).trans (by decide)),
      adjustedTimespan_eq hspan (by omega) (by omega), if_pos hpos,
      median_eq_exactMedian fun g hg => (hgaps g hg).trans (by decide)]
  · rw [if_neg fun h => hc h.1, if_neg hc, adjustedTimespan_eq hspan (by decide) (by omega),
      if_neg (by decide)]

theorem nextDifficultyV3_eq (hlen : 2 ≤ timestamps.length) (heq : cds.length = timestamps.length)
    (hts : ∀ ts ∈ timestamps, ts < 2 ^ 56) (hcd : ∀ d ∈ cds, d < 2 ^ 64)
    (hmono : cds.Pairwise (· ≤ ·)) :
    nextDifficultyV3 timestamps cds =
      quotientV3 (legacyWork 3 cds) (legacySpan 3 timestamps) (legacyAdjusted timestamps) := by
  have hlength : (timestamps.take difficultyBlocksCountV2).length =
      min timestamps.length difficultyBlocksCountV2 := by
    rw [List.length_take, min_comm]
  have hspan := timeSpanOf_legacyTimes 3 hlen fun ts hmem => (hts ts hmem).trans (by decide)
  have hwork := subU64_legacyWork 3 (heq ▸ hlen) hcd hmono
  have hadjusted := adjustedTimespan_legacy hts
  rw [← hspan] at hadjusted
  rw [heq] at hwork
  have hlong : ¬min timestamps.length difficultyBlocksCountV2 ≤ 1 := by
    have : difficultyBlocksCountV2 = 29 := rfl
    omega
  unfold nextDifficultyV3
  dsimp only
  rw [hlength, if_neg hlong, ← hadjusted, ← hspan, ← hwork]
  rfl

end

/-! ### Exactness -/

/-- The rule of a version with every access checked. -/
def nextDifficultyChecked (version : Nat) (timestamps cds : List Nat) :
    Option Nat :=
  if version = 3 then nextDifficultyV3Checked timestamps cds
  else nextDifficultyV1Checked timestamps cds

/-- What the sorting rules promise: a cut that keeps two timestamps of the window,
accesses in range, and the quotient rounded up, or 0 if its numerator does not
fit in 64 bits. -/
structure LegacyExact (lwmaV4 : List Nat → List Nat → Nat) (version : Nat)
    (timestamps cds : List Nat) : Prop where
  cut : 2 ≤ timestamps.length →
    (legacyCut version timestamps.length).1 + 2 ≤ (legacyCut version timestamps.length).2 ∧
      (legacyCut version timestamps.length).2 ≤ min timestamps.length (legacyWindow version).1
  reads : nextDifficultyChecked version timestamps cds =
    some (nextDifficulty lwmaV4 version timestamps cds)
  result : nextDifficulty lwmaV4 version timestamps cds =
    if 2 ^ 64 ≤ legacyWork version cds * difficultyTarget +
        legacyDivisor version timestamps - 1 then 0
    else max 1 ((legacyWork version cds * difficultyTarget) ⌈/⌉
      legacyDivisor version timestamps)

section

variable {timestamps cds : List Nat}

section

variable (lwmaV4 : List Nat → List Nat → Nat) {version : Nat}
  (hversion : version = 1 ∨ version = 2 ∨ version = 3)
include hversion

theorem nextDifficulty_of_legacy :
    nextDifficulty lwmaV4 version timestamps cds =
      if version = 3 then nextDifficultyV3 timestamps cds
      else nextDifficultyV1 timestamps cds := by
  rw [nextDifficulty, if_neg (by omega), if_neg (by omega)]

theorem nextDifficultyChecked_eq (hlen : cds.length = timestamps.length) :
    nextDifficultyChecked version timestamps cds =
      some (nextDifficulty lwmaV4 version timestamps cds) := by
  rw [nextDifficulty_of_legacy lwmaV4 hversion, nextDifficultyChecked,
    nextDifficultyV3Checked_eq hlen, nextDifficultyV1Checked_eq hlen]
  split <;> rfl

theorem nextDifficulty_of_short (hlen : timestamps.length ≤ 1) :
    nextDifficulty lwmaV4 version timestamps cds = 1 := by
  have hshort (n : Nat) : (timestamps.take n).length ≤ 1 := (List.length_take_le' _ _).trans hlen
  rw [nextDifficulty_of_legacy lwmaV4 hversion, nextDifficultyV3, nextDifficultyV1]
  rw [if_pos (hshort _), if_pos (hshort _), ite_self]

end

section

variable (version : Nat)

theorem legacyCut_of_short {length : Nat} (hlength : length ≤ 1) :
    legacyCut version length = (0, length) := by
  have hwindow : 1 ≤ (legacyWindow version).1 ∧ 1 ≤ (legacyWindow version).2 := by
    unfold legacyWindow
    split <;> decide
  rw [legacyCut, cutBounds, if_pos (by omega), min_eq_left (by omega)]

theorem legacyWork_of_short (hlen : cds.length ≤ 1) : legacyWork version cds = 0 := by
  rw [legacyWork, legacyCut_of_short version hlen]
  dsimp only
  rw [show cds.length - 1 = 0 by omega, Nat.sub_self]

theorem legacySpan_of_short (hlen : timestamps.length ≤ 1) : legacySpan version timestamps = 1 := by
  rw [legacySpan, legacyCut_of_short version hlen]
  dsimp only
  rw [show timestamps.length - 1 = 0 by omega, Nat.sub_self]
  decide

end

theorem legacyAdjusted_of_short (hlen : timestamps.length ≤ 1) : legacyAdjusted timestamps = 0 := by
  rw [legacyAdjusted, legacyCut_of_short 3 hlen]
  rw [show min timestamps.length difficultyBlocksCountV2 - 0 * 2 - 1 = 0 by omega]
  omega

theorem legacyAdjusted_pos (hlen : 2 ≤ timestamps.length) : 0 < legacyAdjusted timestamps := by
  obtain ⟨hcut, hend⟩ := legacyCut_spec 3 hlen
  have hwindow : (legacyWindow 3).1 = difficultyBlocksCountV2 := rfl
  have hbegin : (legacyCut 3 timestamps.length).1 * 2 + 3 ≤
      min timestamps.length difficultyBlocksCountV2 ∨ (legacyCut 3 timestamps.length).1 = 0 :=
    cutBegin_mul_two_le (by decide)
  refine lt_max_of_lt_right (Nat.mul_pos (by decide) ?_)
  omega

/-- **The sorting rules.** Versions 1 and 2 return the quotient rounded up or an
explicit overflow. So does version 3, exactly if the span before the adjustment
overflows when the adjusted one does. -/
theorem legacy_difficulty_iff (lwmaV4 : List Nat → List Nat → Nat) {version : Nat}
    (hversion : version = 1 ∨ version = 2 ∨ version = 3)
    (hlen : cds.length = timestamps.length)
    (hts : ∀ ts ∈ timestamps, ts < 2 ^ 56) (hcd : ∀ d ∈ cds, d < 2 ^ 64)
    (hmono : cds.Pairwise (· < ·)) :
    LegacyExact lwmaV4 version timestamps cds ↔
      (version = 3 →
        (2 ^ 64 ≤ legacyWork 3 cds * difficultyTarget + legacySpan 3 timestamps - 1 ↔
          2 ^ 64 ≤ legacyWork 3 cds * difficultyTarget + legacyAdjusted timestamps - 1)) := by
  have hmono' := hmono.imp fun h => le_of_lt h
  have hresult : LegacyExact lwmaV4 version timestamps cds ↔ _ :=
    ⟨fun h => h.result, fun h =>
      ⟨legacyCut_spec version, nextDifficultyChecked_eq lwmaV4 hversion hlen, h⟩⟩
  rw [hresult]
  rcases Nat.lt_or_ge timestamps.length 2 with hshort | hlong
  · -- no work, and nothing that could overflow
    have hwork (v : Nat) := legacyWork_of_short v (hlen.trans_le (Nat.le_of_lt_succ hshort))
    have hspan (v : Nat) := legacySpan_of_short v (Nat.le_of_lt_succ hshort)
    have hadjusted := legacyAdjusted_of_short (Nat.le_of_lt_succ hshort)
    rw [nextDifficulty_of_short lwmaV4 hversion (Nat.le_of_lt_succ hshort), legacyDivisor]
    simp only [hwork, hspan, hadjusted]
    refine iff_of_true ?_ fun _ => by decide
    split <;> decide
  · by_cases hthree : version = 3
    · subst hthree
      have hspan := one_le_legacySpan 3 timestamps
      have hadjusted := legacyAdjusted_pos hlong
      rw [nextDifficulty_of_legacy lwmaV4 hversion, if_pos rfl,
        nextDifficultyV3_eq hlong hlen hts hcd hmono', quotientV3_eq hspan, legacyDivisor,
        if_pos rfl, forall_prop_of_true rfl, Nat.ceilDiv_eq_add_pred_div]
      generalize legacyWork 3 cds * difficultyTarget = p
      by_cases h₁ : 2 ^ 64 ≤ p + legacySpan 3 timestamps - 1 <;>
        by_cases h₂ : 2 ^ 64 ≤ p + legacyAdjusted timestamps - 1
      · rw [if_pos h₁, if_pos h₂]
        exact iff_of_true rfl (iff_of_true h₁ h₂)
      · -- the check fails although the adjusted span fits
        rw [if_pos h₁, if_neg h₂]
        exact iff_of_false (by omega) fun h => h₂ (h.mp h₁)
      · -- the check passes, and the adjusted numerator wraps
        rw [if_neg h₁, if_pos h₂]
        exact iff_of_false (by omega) fun h => h₁ (h.mpr h₂)
      · rw [if_neg h₁, if_neg h₂, u64_of_lt (not_le.mp h₂)]
        exact iff_of_true rfl (iff_of_false h₁ h₂)
    · have hspan := one_le_legacySpan version timestamps
      have hwork := one_le_legacyWork version (hlen ▸ hlong) hmono
      have hts' : ∀ ts ∈ timestamps, ts < 2 ^ 64 := fun ts hmem => (hts ts hmem).trans (by decide)
      refine iff_of_true ?_ fun h => absurd h hthree
      rw [nextDifficulty_of_legacy lwmaV4 hversion, if_neg hthree,
        nextDifficultyV1_eq hthree hlong hlen hts' hcd hmono', quotientV1_eq hspan, legacyDivisor,
        if_neg hthree]
      split
      · rfl
      · refine (max_eq_right ?_).symm
        rw [Nat.ceilDiv_eq_add_pred_div, Nat.one_le_div_iff (by omega)]
        unfold difficultyTarget
        omega

theorem legacy_difficulty_two : LegacyExact (fun _ _ => 0) 3 [0, 60] [0, 1000] :=
  (@legacy_difficulty_iff [0, 60] [0, 1000] (fun _ _ => 0) 3 (.inr (.inr rfl)) rfl (by decide)
    (by decide) (by decide)).mpr fun _ => by decide +kernel

/-- Three blocks of one second, the last of them with a work just below `2 ^ 64`
over the target: the check on the span of 1 passes, and the numerator with the
adjusted span of 20 wraps. The next difficulty is 1. -/
theorem legacy_check_wraps :
    ¬LegacyExact (fun _ _ => 0) 3 [5, 5, 5] [0, 1, 153722867280912930] := by
  intro h
  have hone : nextDifficulty (fun _ _ => 0) 3 [5, 5, 5] [0, 1, 153722867280912930] = 1 := by
    decide +kernel
  have hzero := h.result
  rw [if_pos (by decide +kernel), hone] at hzero
  cases hzero

end

end Lethean
