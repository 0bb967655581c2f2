import Lethean.Lib.RingWalk
import Lethean.Ringct.RctOps

/-!
# Lethean.Ringct.Mlsag

`MLSAG_Gen` and `MLSAG_Ver`: ring signatures with several keys to a ring
position. The signer goes around the ring from behind his own column, with
random responses, and closes it with the responses only he can compute. The
verifier goes around from column 0.
-/

namespace Lethean

namespace Ringct

open RingWalk (walk turn behind steps)

structure MgSig (ℓ : Nat) (Point : Type) where
  ss : List (List (ZMod ℓ))
  cc : ZMod ℓ
  II : List Point

/-- The random scalars of `MLSAG_Gen`: one for each row, and the responses of the
other columns. -/
structure MlsagRandom (ℓ : Nat) where
  alpha : Nat → ZMod ℓ
  ss : Nat → Nat → ZMod ℓ

section

variable {ℓ : Nat} {Point Key : Type} [AddCommGroup Point] [Module (ZMod ℓ) Point]
  (C : Curve ℓ Point Key)

/-! ### Signing and verification -/

/-- The hash of `toHash`: the message, for a row with a key image the key and the
points `L` and `R`, for another one the key and `L`. -/
def mlsagHash (message : Key) (dsRows : Nat) (pk : List Point) (L R : Nat → Point) : ZMod ℓ :=
  let key := fun j => C.ofPoint (pk.getD j 0)
  C.hashToScalar (message ::
    ((List.range dsRows).flatMap fun j => [key j, C.ofPoint (L j), C.ofPoint (R j)]) ++
    ((List.range' dsRows (pk.length - dsRows)).flatMap fun j => [key j, C.ofPoint (L j)]))

def mlsagRound (message : Key) (dsRows : Nat) (II pk : List Point) (ss : List (ZMod ℓ))
    (c : ZMod ℓ) : ZMod ℓ :=
  mlsagHash C message dsRows pk (fun j => C.addKeys2 (ss.getD j 0) c (pk.getD j 0))
    fun j => addKeys3 (ss.getD j 0) (C.hashToPoint (pk.getD j 0)) c (II.getD j 0)

def skvGen (rows : Nat) (random : Nat → ZMod ℓ) : List (ZMod ℓ) := (List.range rows).map random

/-- `MLSAG_Gen`. The loop keeps the current challenge, `cc` and `ss`. -/
def mlsagGen (message : Key) (pk : List (List Point)) (xx : List (ZMod ℓ)) (index dsRows : Nat)
    (random : MlsagRandom ℓ) : Except String (MgSig ℓ Point) := do
  let cols := pk.length
  checkAndAssertThrow (2 ≤ cols) "Error! What is c if cols = 1!"
  checkAndAssertThrow (index < cols) "Index out of range"
  let rows := (pk.getD 0 []).length
  checkAndAssertThrow (1 ≤ rows) "Empty pk"
  checkAndAssertThrow (∀ col ∈ pk.tail, col.length = rows) "pk is not rectangular"
  checkAndAssertThrow (xx.length = rows) "Bad xx size"
  checkAndAssertThrow (dsRows ≤ rows) "Bad dsRows size"
  let own := pk.getD index []
  let Hi := fun j => C.hashToPoint (own.getD j 0)
  let II := (List.range dsRows).map fun j => xx.getD j 0 • Hi j
  let c := mlsagHash C message dsRows own (fun j => random.alpha j • C.G)
    fun j => random.alpha j • Hi j
  let round := fun i => mlsagRound C message dsRows II (pk.getD i []) (skvGen rows (random.ss i))
  match walk cols index
      (fun i s => (turn cols round i s.1, s.2.set i (skvGen rows (random.ss i)))) cols
      ((index + 1) % cols)
      ((c, if (index + 1) % cols = 0 then c else 0), List.replicate cols []) with
  | none => throw "out of fuel"
  | some ((c, cc), ss) =>
    let closing := (List.range rows).map fun j => random.alpha j - c * xx.getD j 0
    pure { ss := ss.set index closing, cc := cc, II := II }

def mlsagVer (message : Key) (pk : List (List Point)) (rv : MgSig ℓ Point) (dsRows : Nat) : Bool :=
  let cols := pk.length
  let rows := (pk.getD 0 []).length
  decide (2 ≤ cols) && decide (1 ≤ rows) && decide (∀ col ∈ pk.tail, col.length = rows) &&
    decide (rv.II.length = dsRows) && decide (rv.ss.length = cols) &&
    decide (∀ s ∈ rv.ss, s.length = rows) && decide (dsRows ≤ rows) &&
    decide (steps (fun i => mlsagRound C message dsRows rv.II (pk.getD i []) (rv.ss.getD i []))
      (List.range cols) rv.cc - rv.cc = 0)

/-! ### Completeness -/

omit [Module (ZMod ℓ) Point] in
/-- The hash reads `L` in all rows, and `R` in those with a key image. -/
theorem mlsagHash_congr (message : Key) {dsRows : Nat} {pk : List Point} {L L' R R' : Nat → Point}
    (hds : dsRows ≤ pk.length) (hL : ∀ j < pk.length, L j = L' j) (hR : ∀ j < dsRows, R j = R' j) :
    mlsagHash C message dsRows pk L R = mlsagHash C message dsRows pk L' R' := by
  unfold mlsagHash
  dsimp only
  have hfirst : ((List.range dsRows).flatMap fun j =>
      [C.ofPoint (pk.getD j 0), C.ofPoint (L j), C.ofPoint (R j)]) =
        (List.range dsRows).flatMap fun j =>
          [C.ofPoint (pk.getD j 0), C.ofPoint (L' j), C.ofPoint (R' j)] := by
    refine List.flatMap_congr fun j hj => ?_
    rw [List.mem_range] at hj
    rw [hL j (by omega), hR j hj]
  have hrest : ((List.range' dsRows (pk.length - dsRows)).flatMap fun j =>
      [C.ofPoint (pk.getD j 0), C.ofPoint (L j)]) =
        (List.range' dsRows (pk.length - dsRows)).flatMap fun j =>
          [C.ofPoint (pk.getD j 0), C.ofPoint (L' j)] := by
    refine List.flatMap_congr fun j hj => ?_
    rw [List.mem_range'_1] at hj
    rw [hL j (by omega)]
  rw [hfirst, hrest]

theorem getD_map_range {α : Type} (f : Nat → α) (d : α) {n j : Nat} (h : j < n) :
    ((List.range n).map f).getD j d = f j := by
  simp [List.getD_eq_getElem?_getD, h]

/-- With the closing responses, a column turns its challenge into the hash of the
points the signer started with. -/
theorem mlsagRound_closing (message : Key) {dsRows : Nat} (xx : List (ZMod ℓ))
    (hds : dsRows ≤ xx.length) (alpha : Nat → ZMod ℓ) (c : ZMod ℓ) :
    mlsagRound C message dsRows ((List.range dsRows).map fun j =>
          xx.getD j 0 • C.hashToPoint ((xx.map (· • C.G)).getD j 0)) (xx.map (· • C.G))
        ((List.range xx.length).map fun j => alpha j - c * xx.getD j 0) c =
      mlsagHash C message dsRows (xx.map (· • C.G)) (fun j => alpha j • C.G)
        fun j => alpha j • C.hashToPoint ((xx.map (· • C.G)).getD j 0) := by
  have hown : ∀ j < xx.length, (xx.map (· • C.G)).getD j 0 = xx.getD j 0 • C.G := by
    intro j hj
    simp [List.getD_eq_getElem?_getD, hj]
  refine mlsagHash_congr C message (by simpa using hds) (fun j hj => ?_) fun j hj => ?_
  · rw [List.length_map] at hj
    rw [getD_map_range _ _ hj, hown j hj, Curve.addKeys2]
    module
  · rw [getD_map_range _ _ (lt_of_lt_of_le hj hds), getD_map_range _ _ hj, addKeys3]
    module

/-- The responses after the walk and the closing: every column has its own. -/
theorem getElem?_responses {α : Type} {n index : Nat} (hindex : index < n) (r : Nat → List α)
    (closing : List α) {k : Nat} (hk : k < n) :
    ((steps (fun i ss => ss.set i (r i)) (behind n index ++ List.range index)
      (List.replicate n [])).set index closing)[k]? =
        some (if k = index then closing else r k) := by
  have hvisited : k ≠ index → k ∈ behind n index ++ List.range index := by
    intro hne
    rw [behind, List.mem_append, List.mem_range'_1, List.mem_range]
    omega
  rw [List.getElem?_set, RingWalk.length_steps_set, List.length_replicate,
    RingWalk.getElem?_steps_set, List.length_replicate]
  by_cases heq : k = index
  · simp [heq, hindex]
  · simp [heq, Ne.symm heq, hk, hvisited heq]

/-- The signature `MLSAG_Gen` returns is the one that closes the ring. -/
theorem mlsagVer_of_closed (message : Key) {pk : List (List Point)} {index dsRows rows : Nat}
    {II : List Point} {c : ZMod ℓ} {r : Nat → List (ZMod ℓ)} {closing : List (ZMod ℓ)}
    (hcols : 2 ≤ pk.length) (hindex : index < pk.length) (hrows : 1 ≤ rows)
    (hrect : ∀ col ∈ pk, col.length = rows) (hds : dsRows ≤ rows) (hII : II.length = dsRows)
    (hr : ∀ i, (r i).length = rows) (hclosing : closing.length = rows)
    (hclosed : let round := fun i => mlsagRound C message dsRows II (pk.getD i []) (r i)
      mlsagRound C message dsRows II (pk.getD index []) closing
        (steps round (List.range index) (steps round (behind pk.length index) c)) = c) :
    let round := fun i => mlsagRound C message dsRows II (pk.getD i []) (r i)
    mlsagVer C message pk
      { ss := (steps (fun i ss => ss.set i (r i)) (behind pk.length index ++ List.range index)
          (List.replicate pk.length [])).set index closing
        cc := steps round (behind pk.length index) c
        II := II } dsRows = true := by
  intro round
  set ss := (steps (fun i ss => ss.set i (r i)) (behind pk.length index ++ List.range index)
    (List.replicate pk.length [])).set index closing with hss
  have hlength : ss.length = pk.length := by
    rw [hss, List.length_set, RingWalk.length_steps_set, List.length_replicate]
  have hget : ∀ k < pk.length, ss.getD k [] = if k = index then closing else r k := by
    intro k hk
    rw [List.getD_eq_getElem?_getD, hss, getElem?_responses hindex r closing hk]
    rfl
  have hlengths : ∀ s ∈ ss, s.length = rows := by
    intro s hs
    obtain ⟨k, hk, rfl⟩ := List.getElem_of_mem hs
    rw [← List.getD_eq_getElem ss [] hk, hget k (hlength ▸ hk)]
    split
    · exact hclosing
    · exact hr k
  have hrows' : (pk.getD 0 []).length = rows := by
    rw [List.getD_eq_getElem _ _ (by omega : 0 < pk.length)]
    exact hrect _ (List.getElem_mem _)
  have htail : ∀ col ∈ pk.tail, col.length = rows := fun col hcol =>
    hrect col (List.mem_of_mem_tail hcol)
  -- away from the signer's column the verifier takes the signer's steps
  have hround : ∀ k < pk.length, k ≠ index → ∀ c,
      mlsagRound C message dsRows II (pk.getD k []) (ss.getD k []) c = round k c := by
    intro k hk hne c
    rw [hget k hk, if_neg hne]
  have hfront : ∀ c, steps (fun i => mlsagRound C message dsRows II (pk.getD i []) (ss.getD i []))
      (List.range index) c = steps round (List.range index) c := by
    refine fun c => RingWalk.steps_congr fun k hk => ?_
    rw [List.mem_range] at hk
    exact hround k (by omega) (by omega)
  have hbehind : ∀ c, steps (fun i => mlsagRound C message dsRows II (pk.getD i []) (ss.getD i []))
      (behind pk.length index) c = steps round (behind pk.length index) c := by
    refine fun c => RingWalk.steps_congr fun k hk => ?_
    rw [behind, List.mem_range'_1] at hk
    exact hround k (by omega) (by omega)
  have hring := RingWalk.steps_range_of_closed
    (fun i => mlsagRound C message dsRows II (pk.getD i []) (ss.getD i [])) hindex (c := c)
    (by rw [hfront, hbehind, hget index hindex, if_pos rfl]; exact hclosed)
  rw [hbehind] at hring
  simp only [mlsagVer, hrows', Bool.and_eq_true, decide_eq_true_eq, sub_eq_zero]
  exact ⟨⟨⟨⟨⟨⟨⟨hcols, hrows⟩, htail⟩, hII⟩, hlength⟩, hlengths⟩, hds⟩, hring⟩

/-- What the signer knows the secret keys of is accepted. -/
theorem mlsagVer_mlsagGen (message : Key) {pk : List (List Point)} {xx : List (ZMod ℓ)}
    {index dsRows : Nat} (random : MlsagRandom ℓ) (hcols : 2 ≤ pk.length) (hrows : 1 ≤ xx.length)
    (hrect : ∀ col ∈ pk, col.length = xx.length) (hds : dsRows ≤ xx.length)
    (hown : pk[index]? = some (xx.map (· • C.G))) :
    ∃ mg, mlsagGen C message pk xx index dsRows random = .ok mg ∧
      mlsagVer C message pk mg dsRows = true := by
  obtain ⟨hindex, -⟩ := List.getElem?_eq_some_iff.mp hown
  have hrows' : (pk.getD 0 []).length = xx.length := by
    rw [List.getD_eq_getElem _ _ (by omega : 0 < pk.length)]
    exact hrect _ (List.getElem_mem _)
  have htail : ∀ col ∈ pk.tail, col.length = xx.length := fun col hcol =>
    hrect col (List.mem_of_mem_tail hcol)
  have hgetD : pk.getD index [] = xx.map (· • C.G) := by
    rw [List.getD_eq_getElem?_getD, hown]
    rfl
  unfold mlsagGen
  simp only [hrows', hgetD]
  rw [assertThrow_bind hcols, assertThrow_bind hindex,
    assertThrow_bind hrows, assertThrow_bind htail,
    assertThrow_bind trivial, assertThrow_bind hds,
    RingWalk.walk_turn_set hindex]
  refine ⟨_, rfl, mlsagVer_of_closed C message hcols hindex hrows hrect hds (by simp) ?_ ?_ ?_⟩
  · simp [skvGen]
  · simp
  · dsimp only
    rw [hgetD]
    exact mlsagRound_closing C message xx hds random.alpha _

end

end Ringct

end Lethean
