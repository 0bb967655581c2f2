import Mathlib

/-!
# Lethean.Lib.Positions

A map from keys to positions in a list that is kept next to the list. `Points m ks`
says that every entry is the position of its key, `Indexes m ks` that every key of
the list has its own position as entry. Elements without a key are `none` in `ks`.

The operations are those of a vector with a reverse map: an element is pushed, a
suffix is cut off, and the keys at the front are overwritten.
-/

namespace Positions

variable {κ : Type*} {m : κ → Option Nat} {ks : List (Option κ)} {k : κ}

/-- Every entry of the map is the position of its key. -/
def Points (m : κ → Option Nat) (ks : List (Option κ)) : Prop :=
  ∀ k i, m k = some i → ks[i]? = some (some k)

/-- Every element of the list has a key with its own position as entry. -/
def Indexes (m : κ → Option Nat) (ks : List (Option κ)) : Prop :=
  ∀ i key, ks[i]? = some key → ∃ k, key = some k ∧ m k = some i

theorem Points.nil : Points (fun _ : κ => none) [] := nofun

theorem Indexes.nil : Indexes m [] := nofun

theorem Indexes.unique (h : Indexes m ks) {i j : Nat} {key : Option κ} (hi : ks[i]? = some key)
    (hj : ks[j]? = some key) : i = j := by
  obtain ⟨k, rfl, hk⟩ := h _ _ hi
  obtain ⟨k', hkk', hk'⟩ := h _ _ hj
  cases hkk'
  exact Option.some.inj (hk.symm.trans hk')

theorem Indexes.nodup (h : Indexes m ks) : ks.Nodup := by
  rw [List.nodup_iff_getElem?_ne_getElem?]
  intro i j hij hj heq
  have hsome : ks[j]? = some ks[j] := List.getElem?_eq_getElem hj
  have := h.unique (heq.trans hsome) hsome
  omega

theorem mem_drop_iff {n : Nat} {key : Option κ} :
    key ∈ ks.drop n ↔ ∃ i, n ≤ i ∧ ks[i]? = some key := by
  rw [List.mem_iff_getElem?]
  constructor
  · rintro ⟨i, hi⟩
    rw [List.getElem?_drop] at hi
    exact ⟨n + i, by omega, hi⟩
  · rintro ⟨i, hle, hi⟩
    exact ⟨i - n, by rw [List.getElem?_drop, Nat.add_sub_cancel' hle, hi]⟩

variable [DecidableEq κ]

/-! ### Pushing -/

theorem Points.push (h : Points m ks) (k : κ) :
    Points (Function.update m k (some ks.length)) (ks ++ [some k]) := by
  intro k' i hi
  by_cases hk : k' = k
  · subst hk
    rw [Function.update_self, Option.some.injEq] at hi
    subst hi
    exact List.getElem?_concat_length
  · rw [Function.update_of_ne hk] at hi
    have hold := h _ _ hi
    rw [List.getElem?_append_left (List.getElem?_eq_some_iff.mp hold).1, hold]

theorem Points.enter (h : Points m ks) {i : Nat} (hi : ks[i]? = some (some k)) :
    Points (Function.update m k (some i)) ks := by
  intro k' j hj
  by_cases hk : k' = k
  · subst hk
    rw [Function.update_self, Option.some.injEq] at hj
    rwa [← hj]
  · rw [Function.update_of_ne hk] at hj
    exact h _ _ hj

theorem Indexes.push (h : Indexes m ks) (hnew : m k = none) :
    Indexes (Function.update m k (some ks.length)) (ks ++ [some k]) := by
  intro i key hi
  rcases Nat.lt_or_ge i ks.length with hlt | hge
  · rw [List.getElem?_append_left hlt] at hi
    obtain ⟨k', rfl, hk'⟩ := h _ _ hi
    have hne : k' ≠ k := by
      rintro rfl
      simp [hnew] at hk'
    exact ⟨k', rfl, by rwa [Function.update_of_ne hne]⟩
  · obtain ⟨rfl, rfl⟩ : i = ks.length ∧ key = some k := by
      rw [List.getElem?_append_right hge] at hi
      have hlt := (List.getElem?_eq_some_iff.mp hi).1
      have hi' : i = ks.length := by
        simp only [List.length_singleton] at hlt
        omega
      subst hi'
      simpa [eq_comm] using hi
    exact ⟨k, rfl, Function.update_self ..⟩

/-! ### Cutting off a suffix -/

def without (m : κ → Option Nat) (dead : List (Option κ)) : κ → Option Nat :=
  fun k => if some k ∈ dead then none else m k

@[simp] theorem without_nil : without m [] = m := by
  funext k
  simp [without]

theorem without_cons (m : κ → Option Nat) (k : κ) (dead : List (Option κ)) :
    without m (some k :: dead) = without (Function.update m k none) dead := by
  funext k'
  by_cases hk : k' = k <;> simp [without, hk]

theorem without_update_concat (hnew : m k = none) (i : Option Nat) (dead : List (Option κ)) :
    without (Function.update m k i) (dead ++ [some k]) = without m dead := by
  funext k'
  by_cases hk : k' = k <;> simp [without, hk, hnew]

theorem Points.take (h : Points m ks) (n : Nat) :
    Points (without m (ks.drop n)) (ks.take n) := by
  intro k i hi
  unfold without at hi
  split at hi
  · cases hi
  rename_i hlive
  have hold := h _ _ hi
  have hlt : i < n := by
    by_contra hge
    exact hlive (mem_drop_iff.mpr ⟨i, Nat.le_of_not_lt hge, hold⟩)
  rw [List.getElem?_take_of_lt hlt, hold]

/-! ### Overwriting from the front -/

/-- The map after the keys of a list have been entered one by one, from position
`n` on. -/
def place (m : κ → Option Nat) (n : Nat) : List κ → κ → Option Nat
  | [] => m
  | k :: ks => place (Function.update m k (some n)) (n + 1) ks

theorem place_of_not_mem {ks : List κ} {m : κ → Option Nat} {n : Nat} (hk : k ∉ ks) :
    place m n ks k = m k := by
  induction ks generalizing m n with
  | nil => rfl
  | cons k' ks ih =>
    obtain ⟨hne, hk⟩ := not_or.mp (mt List.mem_cons.mpr hk)
    rw [place, ih hk, Function.update_of_ne hne]

theorem place_of_mem {ks : List κ} {m : κ → Option Nat} {n : Nat} (hk : k ∈ ks) :
    ∃ j, ks[j]? = some k ∧ place m n ks k = some (n + j) := by
  induction ks generalizing m n with
  | nil =>
    cases hk
  | cons k' ks ih =>
    by_cases hlater : k ∈ ks
    · obtain ⟨j, hj, hplace⟩ := ih hlater (m := Function.update m k' (some n)) (n := n + 1)
      refine ⟨j + 1, hj, ?_⟩
      rw [place, hplace]
      congr 1
      omega
    · obtain rfl : k = k' := (List.mem_cons.mp hk).resolve_right hlater
      refine ⟨0, rfl, ?_⟩
      rw [place, place_of_not_mem hlater, Function.update_self, Nat.add_zero]

theorem place_ne_none {n : Nat} {ks : List κ} (h : m k ≠ none ∨ k ∈ ks) :
    place m n ks k ≠ none := by
  by_cases hmem : k ∈ ks
  · obtain ⟨j, -, hplace⟩ := place_of_mem (m := m) (n := n) hmem
    simp [hplace]
  · rw [place_of_not_mem hmem]
    exact h.resolve_right hmem

/-- The map points at the new keys if every other entry is right behind them. -/
theorem points_place {new : List κ} (hother : ∀ {k i}, m k = some i → k ∉ new →
      new.length ≤ i ∧ ks[i - new.length]? = some (some k)) :
    Points (place m 0 new) (new.map some ++ ks) := by
  intro k i hi
  by_cases hmem : k ∈ new
  · obtain ⟨j, hj, hplace⟩ := place_of_mem (m := m) (n := 0) hmem
    rw [hplace, Option.some.injEq, Nat.zero_add] at hi
    subst hi
    have hlt := (List.getElem?_eq_some_iff.mp hj).1
    rw [List.getElem?_append_left (by simpa using hlt), List.getElem?_map, hj]
    rfl
  · rw [place_of_not_mem hmem] at hi
    obtain ⟨hge, hkey⟩ := hother hi hmem
    rwa [List.getElem?_append_right (by simpa using hge), List.length_map]

/-- Keys at the front are overwritten: no other key may keep an entry there. -/
theorem Points.overwrite (h : Points m ks) {new : List κ}
    (hcovers : ∀ {k i}, m k = some i → i < new.length → k ∈ new) :
    Points (place m 0 new) (new.map some ++ ks.drop new.length) := by
  refine points_place fun {k i} hi hmem => ?_
  have hge : new.length ≤ i := by
    by_contra hlt
    exact hmem (hcovers hi (Nat.lt_of_not_le hlt))
  refine ⟨hge, ?_⟩
  rw [List.getElem?_drop, Nat.add_sub_cancel' hge]
  exact h _ _ hi

/-- The list is replaced: no other key may keep an entry at all. -/
theorem points_replace {new : List κ} (hcovers : ∀ {k}, m k ≠ none → k ∈ new) :
    Points (place m 0 new) (new.map some) := by
  have hplace : Points (place m 0 new) (new.map some ++ []) :=
    points_place fun {k i} hi hmem => absurd (hcovers (by simp [hi])) hmem
  rwa [List.append_nil] at hplace

end Positions
