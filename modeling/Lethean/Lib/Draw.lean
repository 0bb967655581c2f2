import Mathlib

/-!
# Lethean.Lib.Draw

Drawing elements from a vector whose order does not matter: the last element takes
the place of the one that is drawn. What is drawn and what is left are a
permutation of what was there.
-/

namespace Draw

variable {α : Type}

/-- The vector without the element at an index. -/
def swapRemove (l : List α) (i : Nat) : List α :=
  match l.getLast? with
  | none => []
  | some last => (l.set i last).dropLast

theorem perm_cons_swapRemove {l : List α} {i : Nat} {a : α} (h : l[i]? = some a) :
    l.Perm (a :: swapRemove l i) := by
  cases l using List.reverseRecOn with
  | nil => cases h
  | append_singleton front last =>
    have hlast : (front ++ [last]).getLast? = some last := List.getLast?_concat
    have hlt := (List.getElem?_eq_some_iff.mp h).1
    rw [List.length_append, List.length_singleton] at hlt
    rw [swapRemove, hlast]
    rcases Nat.lt_succ_iff_lt_or_eq.mp hlt with hfront | rfl
    · -- the drawn element is in front of the last one
      rw [List.getElem?_append_left hfront] at h
      obtain ⟨-, rfl⟩ := List.getElem?_eq_some_iff.mp h
      dsimp only
      rw [List.set_append_left _ _ hfront, List.dropLast_concat]
      have hperm : (front.take i ++ front[i] :: front.drop (i + 1) ++ [last]).Perm
          (front[i] :: (front.take i ++ last :: front.drop (i + 1))) := by
        rw [List.append_assoc]
        refine List.perm_middle.trans (.cons _ ?_)
        exact (List.perm_append_singleton last _).append_left _
      rw [List.getElem_cons_drop, List.take_append_drop] at hperm
      rwa [List.set_eq_take_append_cons_drop, if_pos hfront]
    · rw [List.getElem?_concat_length] at h
      cases h
      dsimp only
      rw [List.set_append_right _ _ le_rfl, Nat.sub_self, List.set_cons_zero,
        List.dropLast_concat]
      exact List.perm_append_singleton a front

section

variable [DecidableEq α]

/-- The vector without the first occurrence of an element, if there is one. -/
def removeIfPresent (l : List α) (a : α) : List α :=
  match l.findIdx? (· = a) with
  | none => l
  | some i => swapRemove l i

theorem removeIfPresent_of_not_mem {l : List α} {a : α} (h : a ∉ l) :
    removeIfPresent l a = l := by
  have hnone : l.findIdx? (· = a) = none := by
    rw [List.findIdx?_eq_none_iff]
    intro b hb
    have hne : b ≠ a := fun heq => h (heq ▸ hb)
    simpa using hne
  rw [removeIfPresent, hnone]

theorem perm_cons_removePresent {l : List α} {a : α} (h : a ∈ l) :
    l.Perm (a :: removeIfPresent l a) := by
  cases hfind : l.findIdx? (· = a) with
  | none =>
    rw [List.findIdx?_eq_none_iff] at hfind
    simpa using hfind a h
  | some i =>
    obtain ⟨hlt, heq, -⟩ := List.findIdx?_eq_some_iff_getElem.mp hfind
    rw [removeIfPresent, hfind]
    refine perm_cons_swapRemove (List.getElem?_eq_some_iff.mpr ⟨hlt, ?_⟩)
    simpa using heq

theorem length_removeIfPresent_le (l : List α) (a : α) : (removeIfPresent l a).length ≤ l.length := by
  by_cases h : a ∈ l
  · have := (perm_cons_removePresent h).length_eq
    rw [List.length_cons] at this
    omega
  · rw [removeIfPresent_of_not_mem h]

theorem perm_cons_removeIfPresent_append {l l' : List α} {a : α} (hnodup : (l ++ l').Nodup)
    (h : a ∈ l ++ l') : (l ++ l').Perm (a :: (removeIfPresent l a ++ removeIfPresent l' a)) := by
  have hdisjoint := List.disjoint_of_nodup_append hnodup
  rcases List.mem_append.mp h with h | h
  · rw [removeIfPresent_of_not_mem (hdisjoint h)]
    exact (perm_cons_removePresent h).append_right l'
  · rw [removeIfPresent_of_not_mem fun hl => hdisjoint hl h]
    exact ((perm_cons_removePresent h).append_left l).trans List.perm_middle

end

end Draw
