import Lethean.CryptonoteBasic.Difficulty

/-!
# Lethean.CryptonoteBasic.Lwma3

The LWMA-3 rule of `next_difficulty` (version 5 on) against its formula over the
integers. The rule weighs the last solve times, and both the timestamps and the
difficulties come from the chain:

* the solve times of the loop lie between 1 and `6 T` for any timestamps, since
  a timestamp that is not later counts as one second later
  (`one_le_of_mem_solveTimes`, `le_of_mem_solveTimes`), so the divisor is positive;
* all products are 64-bit products. The one that wraps first is the product of
  the total work, so a bound on the work makes the rule exact;
* the lower clamp is two thirds of the last difficulty, rounded down, which is
  nothing for a difficulty of 1.
-/

namespace Lethean

/-! ### The formula -/

/-- The solve times that the rule counts, after the largest timestamp so far. -/
def solveTimes (prevMaxTs : Nat) : List Nat → List Nat
  | [] => []
  | ts :: rest =>
    let maxTs := max ts (prevMaxTs + 1)
    min (6 * difficultyTarget) (maxTs - prevMaxTs) :: solveTimes maxTs rest

/-- A sum with weights `i`, `i + 1`, ... -/
def weightedSum (i : Nat) : List Nat → Nat
  | [] => 0
  | st :: rest => st * i + weightedSum (i + 1) rest

/-- The work of the blocks after the first one. -/
def totalWork (cds : List Nat) : Nat :=
  cds.getD (cds.length - 1) 0 -
    cds.getD 0 0

def lastDifficulty (cds : List Nat) : Nat :=
  cds.getD (cds.length - 1) 0 -
    cds.getD (cds.length - 2) 0

/-- The formula of the rule over the integers, for `n` solve times with the
weighted sum `l` and the sum `last3` of the last three. -/
def lwma3Formula (n work prev l last3 : Nat) : Nat :=
  let d := work * difficultyTarget * (n + 1) * 99 / (200 * l)
  let d := max (67 * prev / 100) (min d (150 * prev / 100))
  if last3 < 8 * difficultyTarget / 10 then max d (108 * prev / 100) else d

def lwma3 (timestamps cds : List Nat) : Nat :=
  let sts := solveTimes (timestamps.getD 0 0) timestamps.tail
  lwma3Formula sts.length (totalWork cds)
    (lastDifficulty cds) (weightedSum 1 sts) (sts.drop (sts.length - 3)).sum

/-! ### Solve times in words -/

/-- The solve times as the loop computes them. -/
def wordSolveTimes (prevMaxTs : Nat) : List Nat → List Nat
  | [] => []
  | ts :: rest =>
    let maxTs := if prevMaxTs < ts then ts else u64 (prevMaxTs + 1)
    min (6 * difficultyTarget) (subU64 maxTs prevMaxTs) :: wordSolveTimes maxTs rest

@[simp] theorem length_wordSolveTimes (prev : Nat) (l : List Nat) :
    (wordSolveTimes prev l).length = l.length := by
  induction l generalizing prev with
  | nil => rfl
  | cons ts rest ih => simp [wordSolveTimes, ih]

variable {prev : Nat} {l timestamps : List Nat}

theorem le_of_mem_solveTimes {st : Nat} (h : st ∈ wordSolveTimes prev l) :
    st ≤ 6 * difficultyTarget := by
  induction l generalizing prev with
  | nil => cases h
  | cons ts rest ih =>
    rcases List.mem_cons.mp h with rfl | h
    · exact min_le_left _ _
    · exact ih h

theorem one_le_of_mem_solveTimes {st : Nat} (hprev : prev < 2 ^ 64) (hl : ∀ ts ∈ l, ts < 2 ^ 64)
    (h : st ∈ wordSolveTimes prev l) : 1 ≤ st := by
  induction l generalizing prev with
  | nil => cases h
  | cons ts rest ih =>
    have hts := hl ts (by simp)
    have hmax : (if prev < ts then ts else u64 (prev + 1)) < 2 ^ 64 := by
      split
      · exact hts
      · exact u64_lt _
    rcases List.mem_cons.mp h with rfl | h
    · refine le_min (by decide) ?_
      split
      · rw [subU64_of_le (by omega) hts]
        omega
      · unfold subU64 u64
        omega
    · exact ih hmax (fun ts hmem => hl ts (by simp [hmem])) h

/-- As long as no timestamp comes near `2 ^ 64`, the words are the integers. -/
theorem wordSolveTimes_eq {b : Nat} (hprev : prev ≤ b) (hl : ∀ ts ∈ l, ts ≤ b)
    (hb : b + l.length < 2 ^ 64) : wordSolveTimes prev l = solveTimes prev l := by
  induction l generalizing prev b with
  | nil => rfl
  | cons ts rest ih =>
    have hts := hl ts (by simp)
    rw [List.length_cons] at hb
    have hmax : (if prev < ts then ts else u64 (prev + 1)) = max ts (prev + 1) := by
      split
      · omega
      · rw [u64_of_lt (by omega)]
        omega
    simp only [wordSolveTimes, solveTimes, hmax]
    rw [subU64_of_le (by omega) (by omega), ih (b := b + 1) (by omega) ?_ (by omega)]
    intro ts' hmem
    have := hl ts' (by simp [hmem])
    omega

/-! ### The loop -/

theorem weightedSum_le {c : Nat} (hl : ∀ st ∈ l, st ≤ c) (i : Nat) :
    weightedSum i l ≤ c * (i + l.length) * l.length := by
  induction l generalizing i with
  | nil => simp [weightedSum]
  | cons st rest ih =>
    have hst := hl st (by simp)
    have hrest := ih (fun st hmem => hl st (by simp [hmem])) (i + 1)
    rw [weightedSum, List.length_cons]
    calc st * i + weightedSum (i + 1) rest
        ≤ c * i + c * (i + 1 + rest.length) * rest.length :=
          Nat.add_le_add (Nat.mul_le_mul_right i hst) hrest
      _ ≤ c * (i + (rest.length + 1)) * (rest.length + 1) := by nlinarith

theorem weightedSum_pos (hne : l ≠ []) (hl : ∀ st ∈ l, 1 ≤ st) {i : Nat} (hi : 0 < i) :
    0 < weightedSum i l := by
  obtain ⟨st, rest, rfl⟩ := List.exists_cons_of_ne_nil hne
  have hst : 0 < st := hl st (by simp)
  rw [weightedSum]
  exact Nat.add_pos_left (Nat.mul_pos hst hi) _

/-- The part of the solve times from index `n - 2` on, where the list starts at
index `i`. -/
def lateSum (n i : Nat) : List Nat → Nat
  | [] => 0
  | st :: rest => (if n - 3 < i then st else 0) + lateSum n (i + 1) rest

theorem lateSum_eq (n i : Nat) (l : List Nat) : lateSum n i l = (l.drop (n - 3 + 1 - i)).sum := by
  induction l generalizing i with
  | nil => simp [lateSum]
  | cons st rest ih =>
    rw [lateSum, ih]
    split
    · rw [show n - 3 + 1 - i = 0 by omega, show n - 3 + 1 - (i + 1) = 0 by omega, List.drop_zero,
        List.drop_zero, List.sum_cons]
    · rw [show n - 3 + 1 - i = n - 3 + 1 - (i + 1) + 1 by omega, List.drop_succ_cons,
        Nat.zero_add]

/-- The loop adds up the weighted solve times and the last three of them. -/
theorem lwma3Loop_eq (n : Nat) {i l sum3 : Nat}
    (hl : l + weightedSum i (wordSolveTimes prev timestamps) < 2 ^ 64)
    (hsum : sum3 + (wordSolveTimes prev timestamps).sum < 2 ^ 64) :
    lwma3Loop n timestamps i prev l sum3 =
      (l + weightedSum i (wordSolveTimes prev timestamps),
        sum3 + lateSum n i (wordSolveTimes prev timestamps)) := by
  induction timestamps generalizing i prev l sum3 with
  | nil => simp [lwma3Loop, wordSolveTimes, weightedSum, lateSum]
  | cons ts rest ih =>
    simp only [wordSolveTimes, weightedSum, lateSum, List.sum_cons, lwma3Loop] at hl hsum ⊢
    generalize (if prev < ts then ts else u64 (prev + 1)) = maxTs at *
    generalize min (6 * difficultyTarget) (subU64 maxTs prev) = st at *
    rw [u64_of_lt (n := st * i) (by omega), u64_of_lt (n := l + st * i) (by omega)]
    split
    · rw [u64_of_lt (n := sum3 + st) (by omega), ih (by omega) (by omega), Nat.add_assoc,
        Nat.add_assoc]
    · rw [ih (by omega) (by omega), Nat.add_assoc, Nat.zero_add]

/-- The solve times of a window as the loop sees them: what follows is about
their number, their weighted sum and the sum of the last three. -/
def windowTimes (timestamps : List Nat) : List Nat :=
  wordSolveTimes (timestamps.getD 0 0) timestamps.tail

@[simp] theorem length_windowTimes (timestamps : List Nat) :
    (windowTimes timestamps).length = timestamps.length - 1 := by
  simp [windowTimes]

/-- A weighted sum of at most 60 solve times is far from wrapping. -/
theorem weightedSum_windowTimes_le {timestamps : List Nat} (h : timestamps.length ≤ 61) :
    weightedSum 1 (windowTimes timestamps) ≤ 2635200 := by
  refine (weightedSum_le (fun st => le_of_mem_solveTimes) 1).trans ?_
  have hlen : (windowTimes timestamps).length ≤ 60 := by
    rw [length_windowTimes]
    omega
  calc 6 * difficultyTarget * (1 + (windowTimes timestamps).length) *
        (windowTimes timestamps).length ≤ 6 * difficultyTarget * (1 + 60) * 60 := by gcongr
    _ = 2635200 := by decide

theorem weightedSum_windowTimes_pos (h : 2 ≤ timestamps.length)
    (hts : ∀ ts ∈ timestamps, ts < 2 ^ 64) : 0 < weightedSum 1 (windowTimes timestamps) := by
  refine weightedSum_pos ?_ (fun st hst => ?_) Nat.one_pos
  · rw [← List.length_pos_iff, length_windowTimes]
    omega
  · refine one_le_of_mem_solveTimes ?_ (fun ts hmem => hts ts (List.mem_of_mem_tail hmem)) hst
    rw [List.getD_eq_getElem _ _ (by omega)]
    exact hts _ (List.getElem_mem _)

theorem windowLength_eq (hhi : timestamps.length ≤ 61) :
    (if timestamps.length < difficultyWindowV4 + 1 then timestamps.length - 1
      else difficultyWindowV4) = timestamps.length - 1 := by
  unfold difficultyWindowV4
  split <;> omega

theorem lwma3Loop_window (hhi : timestamps.length ≤ 61) :
    lwma3Loop (timestamps.length - 1) ((timestamps.drop 1).take (timestamps.length - 1)) 1
        (timestamps.getD 0 0) 0 0 =
      (weightedSum 1 (windowTimes timestamps),
        ((windowTimes timestamps).drop ((windowTimes timestamps).length - 3)).sum) := by
  have hsum : (windowTimes timestamps).sum ≤ 60 * (6 * difficultyTarget) := by
    refine (List.sum_le_card_nsmul _ _ fun st => le_of_mem_solveTimes).trans ?_
    rw [smul_eq_mul, length_wordSolveTimes, List.length_tail]
    exact Nat.mul_le_mul_right _ (by omega)
  have hweighted := weightedSum_windowTimes_le hhi
  rw [List.drop_one, List.take_of_length_le (by simp), lwma3Loop_eq, Nat.zero_add, Nat.zero_add,
    lateSum_eq, length_windowTimes, Nat.add_sub_cancel]
  · rfl
  · change 0 + weightedSum 1 (windowTimes timestamps) < 2 ^ 64
    omega
  · change 0 + (windowTimes timestamps).sum < 2 ^ 64
    unfold difficultyTarget at hsum
    omega

def lwma3Words (n work prev l last3 : Nat) : Nat :=
  let d := u64 (work * difficultyTarget * (n + 1) * 99) / u64 (100 * 2 * l)
  let d := max (u64 (prev * 67) / 100) (min d (u64 (prev * 150) / 100))
  if last3 < 8 * difficultyTarget / 10 then max d (u64 (prev * 108) / 100) else d

theorem nextDifficultyV5_eq {cds : List Nat} (hlo : 11 ≤ timestamps.length)
    (hhi : timestamps.length ≤ 61) (hlen : cds.length = timestamps.length)
    (hcd : ∀ d ∈ cds, d < 2 ^ 64) (hmono : cds.Pairwise (· ≤ ·)) :
    nextDifficultyV5 timestamps cds =
      lwma3Words (windowTimes timestamps).length (totalWork cds)
        (lastDifficulty cds) (weightedSum 1 (windowTimes timestamps))
        ((windowTimes timestamps).drop ((windowTimes timestamps).length - 3)).sum := by
  have hwork : subU64 (cds.getD (timestamps.length - 1) 0) (cds.getD 0 0) = totalWork cds := by
    rw [subU64_of_le (getD_le_getD hmono (by omega) (by omega)) (getD_lt hcd (by decide) _),
      totalWork, hlen]
  have hprev : subU64 (cds.getD (timestamps.length - 1) 0)
      (cds.getD (timestamps.length - 1 - 1) 0) =
        lastDifficulty cds := by
    rw [subU64_of_le (getD_le_getD hmono (by omega) (by omega)) (getD_lt hcd (by decide) _),
      lastDifficulty, hlen]
    rfl
  rw [nextDifficultyV5, if_neg (by omega), windowLength_eq hhi]
  dsimp only
  rw [lwma3Loop_window hhi, hwork, hprev, length_windowTimes]
  rfl

/-! ### Exactness -/

/-- Without a product that wraps, the words compute the formula. -/
theorem lwma3Words_eq {n work l last3 : Nat}
    (hwork : work * difficultyTarget * (n + 1) * 99 < 2 ^ 64) (hprev : prev ≤ work)
    (hl : 200 * l < 2 ^ 64) :
    lwma3Words n work prev l last3 = lwma3Formula n work prev l last3 := by
  have hfactor : work * 150 ≤ work * difficultyTarget * (n + 1) * 99 := by
    rw [Nat.mul_assoc, Nat.mul_assoc]
    refine Nat.mul_le_mul_left work ?_
    unfold difficultyTarget
    omega
  rw [lwma3Words, lwma3Formula, u64_of_lt hwork, u64_of_lt (n := 100 * 2 * l) hl,
    u64_of_lt (n := prev * 67) (by omega), u64_of_lt (n := prev * 150) (by omega),
    u64_of_lt (n := prev * 108) (by omega), Nat.mul_comm prev, Nat.mul_comm prev, Nat.mul_comm prev]

theorem lastDifficulty_le_totalWork {cd : List Nat} (h : cd.Pairwise (· ≤ ·))
    (hlen : 2 ≤ cd.length) : lastDifficulty cd ≤ totalWork cd := by
  have := getD_le_getD h (Nat.zero_le (cd.length - 2)) (by omega)
  unfold lastDifficulty totalWork
  omega

/-- `k` timestamps after `start`, each one full solve time later. -/
def slowTimestamps : Nat → Nat → List Nat
  | 0, _ => []
  | k + 1, start =>
    (start + 6 * difficultyTarget) :: slowTimestamps k (start + 6 * difficultyTarget)

@[simp] theorem length_slowTimestamps (k start : Nat) : (slowTimestamps k start).length = k := by
  induction k generalizing start with
  | zero => rfl
  | succ k ih => simp [slowTimestamps, ih]

theorem le_of_mem_slowTimestamps {k start ts : Nat} (h : ts ∈ slowTimestamps k start) :
    ts ≤ start + k * (6 * difficultyTarget) := by
  induction k generalizing start with
  | zero => cases h
  | succ k ih =>
    rw [Nat.succ_mul]
    rcases List.mem_cons.mp h with rfl | h
    · omega
    · have := ih h
      omega

theorem solveTimes_slowTimestamps (k start : Nat) :
    solveTimes start (slowTimestamps k start) = List.replicate k (6 * difficultyTarget) := by
  induction k generalizing start with
  | zero => rfl
  | succ k ih =>
    have hmax : max (start + 6 * difficultyTarget) (start + 1) = start + 6 * difficultyTarget :=
      max_eq_left (by unfold difficultyTarget; omega)
    simp only [slowTimestamps, solveTimes, hmax, ih, Nat.add_sub_cancel_left, min_self,
      List.replicate_succ]

theorem two_mul_weightedSum_replicate (i k c : Nat) :
    2 * weightedSum i (List.replicate k c) + c * k = c * k * (2 * i + k) := by
  induction k generalizing i with
  | zero => simp [weightedSum]
  | succ k ih =>
    rw [List.replicate_succ, weightedSum]
    linarith [ih (i + 1)]

/-- Cumulative difficulties of `n + 1` blocks with the given work, of which the
last block has `prev`. -/
def lateDifficulties (n work prev : Nat) : List Nat :=
  0 :: (List.replicate (n - 1) (work - prev) ++ [work])

section lateDifficulties

variable {n work prev : Nat}

theorem length_lateDiffs (hn : 1 ≤ n) : (lateDifficulties n work prev).length = n + 1 := by
  simp only [lateDifficulties, List.length_cons, List.length_append, List.length_replicate,
    List.length_nil]
  omega

theorem pairwise_lateDiffs : (lateDifficulties n work prev).Pairwise (· ≤ ·) := by
  refine List.pairwise_cons.mpr ⟨fun _ _ => Nat.zero_le _, List.pairwise_append.mpr
    ⟨List.pairwise_replicate.mpr (.inr le_rfl), List.pairwise_singleton _ _, ?_⟩⟩
  intro x hx y hy
  rw [List.eq_of_mem_replicate hx, List.mem_singleton.mp hy]
  exact Nat.sub_le _ _

theorem le_of_mem_lateDiffs {d : Nat} (h : d ∈ lateDifficulties n work prev) : d ≤ work := by
  simp only [lateDifficulties, List.mem_cons, List.mem_append, List.mem_replicate,
    List.not_mem_nil, or_false] at h
  omega

theorem getD_lateDiffs (hn : 1 ≤ n) :
    (lateDifficulties n work prev).getD n 0 = work := by
  obtain ⟨k, rfl⟩ : ∃ k, n = k + 1 := ⟨n - 1, by omega⟩
  rw [lateDifficulties, List.getD_cons_succ, List.getD_append_right _ _ _ _ (by simp)]
  simp

theorem totalWork_lateDiffs (hn : 1 ≤ n) :
    totalWork (lateDifficulties n work prev) = work := by
  rw [totalWork, length_lateDiffs hn, Nat.add_sub_cancel, getD_lateDiffs hn]
  rfl

theorem lastDifficulty_lateDiffs (hn : 2 ≤ n) (hprev : prev ≤ work) :
    lastDifficulty (lateDifficulties n work prev) = prev := by
  have hbefore : (lateDifficulties n work prev).getD (n - 1) 0 = work - prev := by
    obtain ⟨k, rfl⟩ : ∃ k, n = k + 2 := ⟨n - 2, by omega⟩
    rw [lateDifficulties, show k + 2 - 1 = k + 1 by omega, List.getD_cons_succ,
      List.getD_append _ _ _ _ (by simp)]
    simp
  rw [lastDifficulty, length_lateDiffs (by omega), Nat.add_sub_cancel,
    show n + 1 - 2 = n - 1 by omega, getD_lateDiffs (by omega), hbefore]
  omega

end lateDifficulties

/-- The rule returns the value of its formula for every window of `n` blocks
that did the given work. -/
def Lwma3Exact (lwmaV4 : List Nat → List Nat → Nat) (version n work : Nat) : Prop :=
  ∀ timestamps cds : List Nat,
    timestamps.length = n → cds.length = n →
    (∀ ts ∈ timestamps, ts ≤ 2 ^ 62) → (∀ d ∈ cds, d < 2 ^ 64) →
    cds.Pairwise (· ≤ ·) → totalWork cds = work →
    nextDifficulty lwmaV4 version timestamps cds =
      lwma3 timestamps cds

/-- A product of the work that wraps is lost from the difficulty: with the
difficulty of the formula as the last one, no clamp brings it back. -/
theorem lwma3Words_lt {n work l last3 : Nat} (hl : 0 < l) (hl64 : 200 * l < 2 ^ 64)
    (hlast3 : 8 * difficultyTarget / 10 ≤ last3)
    (hwork : 2 ^ 64 ≤ work * difficultyTarget * (n + 1) * 99) :
    lwma3Words n work (work * difficultyTarget * (n + 1) * 99 / (200 * l)) l last3 <
      lwma3Formula n work (work * difficultyTarget * (n + 1) * 99 / (200 * l)) l last3 := by
  rw [lwma3Words, lwma3Formula, if_neg (not_lt.mpr hlast3), if_neg (not_lt.mpr hlast3),
    u64_of_lt (n := 100 * 2 * l) hl64]
  generalize work * difficultyTarget * (n + 1) * 99 = p at *
  have hdivisor : 0 < 200 * l := by omega
  have hwrapped : u64 p / (200 * l) < p / (200 * l) := by
    have hle : u64 p + 2 ^ 64 ≤ p := by
      unfold u64
      omega
    calc u64 p / (200 * l) < (u64 p + 200 * l) / (200 * l) := by
          rw [Nat.add_div_right _ hdivisor]
          exact Nat.lt_succ_self _
      _ ≤ p / (200 * l) := Nat.div_le_div_right (by omega)
  generalize p / (200 * l) = prev at *
  have hpos : 0 < prev := (Nat.zero_le _).trans_lt hwrapped
  have hlow : u64 (prev * 67) / 100 < prev := by
    have : u64 (prev * 67) ≤ prev * 67 := Nat.mod_le _ _
    omega
  have hclamped : max (67 * prev / 100) (min prev (150 * prev / 100)) = prev := by omega
  rw [hclamped]
  exact max_lt hlow ((min_le_left _ _).trans_lt hwrapped)

theorem lwma3_eq {timestamps : List Nat} (hlen : timestamps.length ≤ 61)
    (hts : ∀ ts ∈ timestamps, ts ≤ 2 ^ 62) (cd : List Nat) :
    lwma3 timestamps cd = lwma3Formula (windowTimes timestamps).length (totalWork cd)
      (lastDifficulty cd) (weightedSum 1 (windowTimes timestamps))
      ((windowTimes timestamps).drop ((windowTimes timestamps).length - 3)).sum := by
  have hfirst : timestamps.getD 0 0 ≤ 2 ^ 62 :=
    Nat.le_of_lt_succ (getD_lt (fun ts hmem => Nat.lt_succ_of_le (hts ts hmem)) (by decide) 0)
  rw [lwma3, windowTimes, wordSolveTimes_eq hfirst
    (fun ts hmem => hts ts (List.mem_of_mem_tail hmem)) (by rw [List.length_tail]; omega)]

theorem windowTimes_slow {k : Nat} (hk : k ≤ 60) :
    windowTimes (0 :: slowTimestamps k 0) = List.replicate k (6 * difficultyTarget) := by
  rw [windowTimes, List.tail_cons, ← solveTimes_slowTimestamps]
  refine wordSolveTimes_eq (b := 0 + k * (6 * difficultyTarget)) (Nat.zero_le _)
    (fun ts => le_of_mem_slowTimestamps) ?_
  rw [length_slowTimestamps, difficultyTarget]
  omega

/-- If the product of the work wraps, the rule is wrong on a slow chain whose
last difficulty was the one of the formula. -/
theorem not_lwma3Exact (lwmaV4 : List Nat → List Nat → Nat) {version k work : Nat}
    (hversion : 5 ≤ version) (hlo : 10 ≤ k) (hhi : k ≤ 60) (hwork : work < 2 ^ 64)
    (hbig : 2 ^ 64 ≤ work * difficultyTarget * (k + 1) * 99) :
    ¬Lwma3Exact lwmaV4 version (k + 1) work := by
  intro h
  have hwindow := windowTimes_slow hhi
  have hsum : ((List.replicate k (6 * difficultyTarget)).drop (k - 3)).sum = 2160 := by
    rw [List.drop_replicate, List.sum_replicate, show k - (k - 3) = 3 by omega]
    rfl
  have hl := two_mul_weightedSum_replicate 1 k (6 * difficultyTarget)
  have hl' := @weightedSum_windowTimes_le (0 :: slowTimestamps k 0)
    (by rw [List.length_cons, length_slowTimestamps]; omega)
  rw [hwindow] at hl'
  generalize hldef : weightedSum 1 (List.replicate k (6 * difficultyTarget)) = l at *
  have hlong : 3600 * (k + 1) ≤ l := by
    unfold difficultyTarget at hl
    nlinarith
  obtain ⟨prev, hprev⟩ : ∃ prev, prev = work * difficultyTarget * (k + 1) * 99 / (200 * l) :=
    ⟨_, rfl⟩
  have hle : prev ≤ work := by
    rw [hprev]
    refine Nat.div_le_of_le_mul ?_
    rw [Nat.mul_comm (200 * l), Nat.mul_assoc, Nat.mul_assoc]
    refine Nat.mul_le_mul_left work ?_
    unfold difficultyTarget
    omega
  have hlen : (0 :: slowTimestamps k 0).length = k + 1 := by simp
  have hcdlen : (lateDifficulties k work prev).length = k + 1 := length_lateDiffs (by omega)
  have hcd : ∀ d ∈ lateDifficulties k work prev, d < 2 ^ 64 := fun d hd =>
    (le_of_mem_lateDiffs hd).trans_lt hwork
  have hts : ∀ ts ∈ 0 :: slowTimestamps k 0, ts ≤ 2 ^ 62 := by
    intro ts hts
    rcases List.mem_cons.mp hts with rfl | hts
    · exact Nat.zero_le _
    · have := le_of_mem_slowTimestamps hts
      unfold difficultyTarget at this
      omega
  have heq := h _ _ hlen hcdlen hts hcd pairwise_lateDiffs
    (totalWork_lateDiffs (by omega))
  rw [nextDifficulty, if_pos hversion, nextDifficultyV5_eq (by omega) (by omega)
    (hcdlen.trans hlen.symm) hcd pairwise_lateDiffs, lwma3_eq (by omega) hts, hwindow,
    totalWork_lateDiffs (by omega), lastDifficulty_lateDiffs (by omega) hle,
    List.length_replicate, hsum, hldef, hprev] at heq
  exact (lwma3Words_lt (by omega) (by omega) (show 8 * difficultyTarget / 10 ≤ 2160 by decide)
    hbig).ne heq

/-- **LWMA-3 without overflow.** For windows of `n` blocks the rule is exact for
every chain with the given work exactly if the product of the work fits in 64
bits. -/
theorem lwma3_exact_iff (lwmaV4 : List Nat → List Nat → Nat) {version n work : Nat}
    (hversion : 5 ≤ version) (hlo : 11 ≤ n) (hhi : n ≤ 61) (hwork : work < 2 ^ 64) :
    Lwma3Exact lwmaV4 version n work ↔ work * difficultyTarget * n * 99 < 2 ^ 64 := by
  constructor
  · intro h
    obtain ⟨k, rfl⟩ : ∃ k, n = k + 1 := ⟨n - 1, by omega⟩
    by_contra hbig
    exact not_lwma3Exact lwmaV4 hversion (by omega) (by omega) hwork (not_lt.mp hbig) h
  · rintro hfits timestamps cd hlen hcdlen hts hcd hmono rfl
    have hl := weightedSum_windowTimes_le (hlen.trans_le hhi)
    rw [nextDifficulty, if_pos hversion, nextDifficultyV5_eq (hlen ▸ hlo) (hlen ▸ hhi)
      (hcdlen.trans hlen.symm) hcd hmono, lwma3_eq (hlen ▸ hhi) hts]
    refine lwma3Words_eq ?_ (lastDifficulty_le_totalWork hmono (by omega)) (by omega)
    rwa [length_windowTimes, hlen, Nat.sub_add_cancel (by omega)]

/-- A full window of blocks of a million each is computed exactly. -/
theorem lwma3_exact_million : Lwma3Exact (fun _ _ => 0) 5 61 60000000 :=
  (lwma3_exact_iff (fun _ _ => 0) (by decide) (by decide) (by decide) (by decide)).mpr (by decide)

/-- Blocks that come on schedule, at a difficulty of 424250337476: the product of
the work wraps, and the next difficulty is two thirds of the last one instead
of nearly the same. -/
theorem lwma3_wraps : ¬Lwma3Exact (fun _ _ => 0) 5 61 (60 * 424250337476) := by
  intro h
  have hrule : nextDifficulty (fun _ _ => 0) 5 ((List.range 61).map (· * 120))
      ((List.range 61).map (· * 424250337476)) = 284247726108 := by
    decide +kernel
  have hformula : lwma3 ((List.range 61).map (· * 120)) ((List.range 61).map (· * 424250337476)) =
      420007834101 := by
    decide +kernel
  have heq := h ((List.range 61).map (· * 120)) ((List.range 61).map (· * 424250337476))
    (by simp) (by simp) (by decide +kernel) (by decide +kernel) (by decide +kernel)
    (by decide +kernel)
  rw [hrule, hformula] at heq
  exact absurd heq (by decide)

/-! ### The rule never returns nothing -/

def lwma3Divisor (timestamps : List Nat) : Nat :=
  let n := if timestamps.length < difficultyWindowV4 + 1 then timestamps.length - 1
    else difficultyWindowV4
  u64 (100 * 2 * (lwma3Loop n ((timestamps.drop 1).take n) 1 (timestamps.getD 0 0) 0 0).1)

/-- The rule keeps the chain going: it does not divide by 0, and its difficulty
is neither 0, which the caller takes for an error, nor above one and a half of
the last one. -/
structure Lwma3Alive (lwmaV4 : List Nat → List Nat → Nat) (version : Nat)
    (timestamps cds : List Nat) : Prop where
  divisor_pos : 10 < timestamps.length → 0 < lwma3Divisor timestamps
  one_le : 1 ≤ nextDifficulty lwmaV4 version timestamps cds
  le_max : nextDifficulty lwmaV4 version timestamps cds ≤
    max 10000 (150 * lastDifficulty cds / 100)

/-- What keeps the difficulty of a window from 0: a last difficulty of at least
2, enough work for the solve times, or three fast blocks. -/
def Lwma3Lives (timestamps cds : List Nat) : Prop :=
  timestamps.length ≤ 10 ∨ 2 ≤ lastDifficulty cds ∨
    200 * weightedSum 1 (windowTimes timestamps) ≤
      totalWork cds * difficultyTarget * timestamps.length * 99 ∨
    ((windowTimes timestamps).drop (timestamps.length - 4)).sum < 8 * difficultyTarget / 10

theorem one_le_lwma3Formula_iff {n work prev l last3 : Nat} (hl : 0 < l) (hprev : 1 ≤ prev) :
    1 ≤ lwma3Formula n work prev l last3 ↔
      2 ≤ prev ∨ 200 * l ≤ work * difficultyTarget * (n + 1) * 99 ∨
        last3 < 8 * difficultyTarget / 10 := by
  have hdiv := Nat.one_le_div_iff (a := work * difficultyTarget * (n + 1) * 99)
    (show 0 < 200 * l by omega)
  dsimp only [lwma3Formula]
  rw [← hdiv]
  generalize work * difficultyTarget * (n + 1) * 99 / (200 * l) = d
  split <;> omega

theorem lwma3Formula_le (n work prev l last3 : Nat) :
    lwma3Formula n work prev l last3 ≤ 150 * prev / 100 := by
  dsimp only [lwma3Formula]
  generalize work * difficultyTarget * (n + 1) * 99 / (200 * l) = d
  split <;> omega

/-- **LWMA-3 keeps the chain going**, for a total work below `2 ^ 40` and any
timestamps, exactly if one of four things holds. -/
theorem lwma3_alive_iff (lwmaV4 : List Nat → List Nat → Nat) {version : Nat}
    {timestamps cds : List Nat} (hversion : 5 ≤ version)
    (hlen : cds.length = timestamps.length) (hhi : timestamps.length ≤ 61)
    (hts : ∀ ts ∈ timestamps, ts < 2 ^ 64) (hcd : ∀ d ∈ cds, d < 2 ^ 64)
    (hmono : cds.Pairwise (· < ·))
    (hwork : totalWork cds < 2 ^ 40) :
    Lwma3Alive lwmaV4 version timestamps cds ↔
      Lwma3Lives timestamps cds := by
  rcases Nat.lt_or_ge 10 timestamps.length with hlo | hlo
  · have hmono' := hmono.imp fun h => le_of_lt h
    have hl := weightedSum_windowTimes_le hhi
    have hlpos := weightedSum_windowTimes_pos (by omega) hts
    have hprev : 1 ≤ lastDifficulty cds := by
      have := List.pairwise_iff_getElem.mp hmono (timestamps.length - 2) (timestamps.length - 1)
        (by omega) (by omega) (by omega)
      rw [lastDifficulty, hlen, List.getD_eq_getElem _ _ (by omega),
        List.getD_eq_getElem _ _ (by omega)]
      omega
    have hproduct : totalWork cds * difficultyTarget *
        ((windowTimes timestamps).length + 1) * 99 < 2 ^ 64 := by
      rw [length_windowTimes, Nat.sub_add_cancel (by omega)]
      calc totalWork cds * difficultyTarget * timestamps.length * 99
          ≤ 2 ^ 40 * difficultyTarget * 61 * 99 := by gcongr
        _ < 2 ^ 64 := by decide
    have hrule : nextDifficulty lwmaV4 version timestamps cds =
        lwma3Formula (windowTimes timestamps).length (totalWork cds)
          (lastDifficulty cds) (weightedSum 1 (windowTimes timestamps))
          ((windowTimes timestamps).drop ((windowTimes timestamps).length - 3)).sum := by
      rw [nextDifficulty, if_pos hversion, nextDifficultyV5_eq hlo hhi hlen hcd hmono',
        lwma3Words_eq hproduct (lastDifficulty_le_totalWork hmono' (by omega)) (by omega)]
    have hdivisor : 0 < lwma3Divisor timestamps := by
      rw [lwma3Divisor, windowLength_eq hhi, lwma3Loop_window hhi, u64_of_lt (by omega)]
      omega
    have hlives : 1 ≤ nextDifficulty lwmaV4 version timestamps cds ↔
        Lwma3Lives timestamps cds := by
      rw [hrule, one_le_lwma3Formula_iff hlpos hprev, Lwma3Lives, length_windowTimes,
        Nat.sub_add_cancel (by omega), or_iff_right (not_le.mpr hlo)]
      rfl
    rw [← hlives]
    refine ⟨fun h => h.one_le, fun h => ⟨fun _ => hdivisor, h, le_max_of_le_right ?_⟩⟩
    rw [hrule]
    exact lwma3Formula_le _ _ _ _ _
  · have hrule : nextDifficulty lwmaV4 version timestamps cds = 10000 := by
      rw [nextDifficulty, if_pos hversion, nextDifficultyV5, if_pos hlo]
    refine iff_of_true ⟨fun h => absurd hlo (by omega), ?_, ?_⟩ (.inl hlo)
    · rw [hrule]
      decide
    · rw [hrule]
      exact le_max_left _ _

/-- Ten blocks of difficulty 2 in a row, all of them late, still give a difficulty. -/
theorem lwma3_alive_two :
    Lwma3Alive (fun _ _ => 0) 5 ((List.range 11).map (· * 720)) ((List.range 11).map (· * 2)) :=
  (lwma3_alive_iff (fun _ _ => 0) (by decide) (by simp) (by simp) (by decide +kernel)
    (by decide +kernel) (by decide +kernel) (by decide +kernel)).mpr
    (.inr (.inl (by decide +kernel)))

/-- Ten blocks of difficulty 1 in a row, all of them late: the next difficulty is 0. -/
theorem lwma3_stalls : ¬Lwma3Alive (fun _ _ => 0) 5 ((List.range 11).map (· * 720))
    (List.range 11) := by
  intro h
  have hzero : nextDifficulty (fun _ _ => 0) 5 ((List.range 11).map (· * 720)) (List.range 11) =
      0 := by
    decide +kernel
  have := h.one_le
  omega

end Lethean
