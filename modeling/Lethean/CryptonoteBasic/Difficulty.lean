import Lethean.CryptonoteBasic.Types
import Lethean.Common.IntUtil

/-!
# Lethean.CryptonoteBasic.Difficulty

`difficulty.cpp`: the proof-of-work target test `check_hash` and the four
retargeting rules of `next_difficulty`, with the constants of
`cryptonote_config.h`.

The version 4 rule is written in IEEE doubles. It enters as the parameter
`lwmaV4` of `nextDifficulty`, a function of the two vectors like the other
three rules; nothing here depends on which function it is.
-/

namespace Lethean

/-! ### Constants -/

/-- `DIFFICULTY_TARGET_V1` and `DIFFICULTY_TARGET_V2`. -/
def difficultyTarget : Nat := 120
def difficultyWindow : Nat := 720
def difficultyWindowV2 : Nat := 17
def difficultyWindowV3 : Nat := 70
def difficultyWindowV4 : Nat := 60
def difficultyLag : Nat := 15
def difficultyCut : Nat := 60
def difficultyCutV2 : Nat := 6
def difficultyBlocksCount : Nat := difficultyWindow + difficultyLag
def difficultyBlocksCountV2 : Nat := difficultyWindowV2 + difficultyCutV2 * 2
def difficultyBlocksCountV3 : Nat := difficultyWindowV3 + 1
def difficultyBlocksCountV4 : Nat := difficultyWindowV4 + 1
def maxAverageTimespan : Nat := difficultyTarget * 12
def minAverageTimespan : Nat := difficultyTarget / 12

/-- `difficultyBlocks`: how many blocks the rule of a version looks at. The
source repeats this choice in both functions that collect the vectors. -/
def difficultyBlocks (blockMajorVersion : Nat) : Nat :=
  if 5 ≤ blockMajorVersion then difficultyBlocksCountV4
  else if blockMajorVersion = 4 then difficultyBlocksCountV3
  else if blockMajorVersion = 3 then difficultyBlocksCountV2
  else difficultyBlocksCount

/-! ### `check_hash` -/

/-- `cadd`: does `a + b` carry? -/
def cadd (a b : Nat) : Bool := u64 (a + b) < a

/-- `cadc`: does `a + b + c` carry? -/
def cadc (a b : Nat) (c : Bool) : Bool := u64 (a + b) < a || (c && u64 (a + b) = 2 ^ 64 - 1)

def leNat : List UInt8 → Nat
  | [] => 0
  | b :: bs => b.toNat + 256 * leNat bs

/-- `swap64le(((const uint64_t *) &hash)[i])`. -/
def hashWord (hash : Hash) (i : Nat) : Nat := leNat ((hash.toList.drop (8 * i)).take 8)

def checkHash (hash : Hash) (difficulty : Nat) : Bool :=
  if hash = nullHash then false
  else
    let (top, high) := mul128 (hashWord hash 3) difficulty
    if high ≠ 0 then false
    else
      let (_, cur) := mul128 (hashWord hash 0) difficulty
      let (low, high) := mul128 (hashWord hash 1) difficulty
      let carry := cadd cur low
      let cur := high
      let (low, high) := mul128 (hashWord hash 2) difficulty
      let carry := cadc cur low carry
      let carry := cadc high top carry
      !carry

/-! ### `next_difficulty` -/

/-- The loop of the LWMA-3 rule over `timestamps[i]`, from index `i` on. It
returns `L` and `sum_3_ST`. -/
def lwma3Loop (n : Nat) : List Nat → Nat → Nat → Nat → Nat → Nat × Nat
  | [], _, _, l, sum3 => (l, sum3)
  | ts :: rest, i, prevMaxTs, l, sum3 =>
    let maxTs := if prevMaxTs < ts then ts else u64 (prevMaxTs + 1)
    let st := min (6 * difficultyTarget) (subU64 maxTs prevMaxTs)
    lwma3Loop n rest (i + 1) maxTs (u64 (l + u64 (st * i)))
      (if n - 3 < i then u64 (sum3 + st) else sum3)

/-- The branch `blockMajorVersion >= BLOCK_MAJOR_VERSION_5`. -/
def nextDifficultyV5 (timestamps cumulativeDifficulties : List Nat) : Nat :=
  let t := difficultyTarget
  if timestamps.length ≤ 10 then 10000
  else
    let n := if timestamps.length < difficultyWindowV4 + 1 then timestamps.length - 1
      else difficultyWindowV4
    let cd := fun i => cumulativeDifficulties.getD i 0
    let (l, sum3) := lwma3Loop n ((timestamps.drop 1).take n) 1 (timestamps.getD 0 0) 0 0
    let nextD := u64 (subU64 (cd n) (cd 0) * t * (n + 1) * 99) / u64 (100 * 2 * l)
    let prevD := subU64 (cd n) (cd (n - 1))
    let nextD := max (u64 (prevD * 67) / 100) (min nextD (u64 (prevD * 150) / 100))
    if sum3 < 8 * t / 10 then max nextD (u64 (prevD * 108) / 100) else nextD

/-- `cutBegin` and `cutEnd` of the two sorting rules, for a window that keeps
`kept` of its timestamps. -/
def cutBounds (length kept : Nat) : Nat × Nat :=
  if length ≤ kept then (0, length)
  else
    let cutBegin := (length - kept + 1) / 2
    (cutBegin, cutBegin + kept)

/-- `timeSpan` and `totalTimespan`. -/
def timeSpanOf (last first : Nat) : Nat :=
  let timeSpan := subU64 last first
  if timeSpan = 0 then 1 else timeSpan

/-- The last lines of the branch for versions up to 2. -/
def quotientV1 (totalWork timeSpan : Nat) : Nat :=
  let (low, high) := mul128 totalWork difficultyTarget
  if high ≠ 0 ∨ 2 ^ 64 - 1 - low < timeSpan - 1 then 0
  else u64 (low + timeSpan - 1) / timeSpan

/-- `adjusted_total_timespan` of the branch for version 3. -/
def adjustedTimespan (totalTimespan timespanMedian timespanLength : Nat) : Nat :=
  let totalTimespanMedian :=
    if 0 < timespanMedian then u64 (timespanMedian * timespanLength)
    else u64 (totalTimespan * 7) / 10
  let adjusted := u64 (totalTimespan * 8 + totalTimespanMedian * 3) / 10
  let adjusted := if maxAverageTimespan * timespanLength < adjusted then
    maxAverageTimespan * timespanLength else adjusted
  if adjusted < minAverageTimespan * timespanLength then
    minAverageTimespan * timespanLength else adjusted

/-- The last lines of the branch for version 3. -/
def quotientV3 (totalWork totalTimespan adjusted : Nat) : Nat :=
  let (low, high) := mul128 totalWork difficultyTarget
  if high ≠ 0 ∨ 2 ^ 64 - 1 - low < totalTimespan - 1 then 0
  else
    let nextDiff := u64 (low + adjusted - 1) / adjusted
    if nextDiff < 1 then 1 else nextDiff

/-- `time_spans` of the version 3 rule: the gaps between the sorted timestamps
from index `i` on, at least 1 each. -/
def timeSpans (timestamps : List Nat) (i : Nat) : List Nat :=
  let ts := timestamps.drop i
  (ts.zip ts.tail).map fun p => timeSpanOf p.2 p.1

/-- The branch `blockMajorVersion == BLOCK_MAJOR_VERSION_3`. -/
def nextDifficultyV3 (timestamps cumulativeDifficulties : List Nat) : Nat :=
  let timestamps := timestamps.take difficultyBlocksCountV2
  let cd := cumulativeDifficulties.take difficultyBlocksCountV2
  let length := timestamps.length
  if length ≤ 1 then 1
  else
    let timestamps := sortU64 timestamps
    let (cutBegin, cutEnd) :=
      cutBounds length (difficultyBlocksCountV2 - 2 * difficultyCutV2)
    let totalTimespan := timeSpanOf (timestamps.getD (cutEnd - 1) 0) (timestamps.getD cutBegin 0)
    let timespanMedian :=
      if 0 < cutBegin ∧ cutBegin * 2 + 3 ≤ length then
        median (timeSpans timestamps (length - cutBegin * 2 - 3))
      else 0
    let timespanLength := length - cutBegin * 2 - 1
    let totalWork := subU64 (cd.getD (cutEnd - 1) 0) (cd.getD cutBegin 0)
    quotientV3 totalWork totalTimespan (adjustedTimespan totalTimespan timespanMedian timespanLength)

/-- The last branch, for versions up to 2. -/
def nextDifficultyV1 (timestamps cumulativeDifficulties : List Nat) : Nat :=
  let timestamps := timestamps.take difficultyWindow
  let cd := cumulativeDifficulties.take difficultyWindow
  let length := timestamps.length
  if length ≤ 1 then 1
  else
    let timestamps := sortU64 timestamps
    let (cutBegin, cutEnd) := cutBounds length (difficultyWindow - 2 * difficultyCut)
    let timeSpan := timeSpanOf (timestamps.getD (cutEnd - 1) 0) (timestamps.getD cutBegin 0)
    quotientV1 (subU64 (cd.getD (cutEnd - 1) 0) (cd.getD cutBegin 0)) timeSpan

def nextDifficulty (lwmaV4 : List Nat → List Nat → Nat) (blockMajorVersion : Nat)
    (timestamps cumulativeDifficulties : List Nat) : Nat :=
  if 5 ≤ blockMajorVersion then nextDifficultyV5 timestamps cumulativeDifficulties
  else if blockMajorVersion = 4 then lwmaV4 timestamps cumulativeDifficulties
  else if blockMajorVersion = 3 then nextDifficultyV3 timestamps cumulativeDifficulties
  else nextDifficultyV1 timestamps cumulativeDifficulties

end Lethean
