import Mathlib

/-!
# Ordered sets with a key

A set whose elements are compared by a key only, as a list in key order. Two
elements with the same key cannot both be in it: inserting a second one changes
nothing. Everything about the set is said with membership.
-/

structure KeySet (α κ : Type) [LinearOrder κ] (key : α → κ) where
  elems : List α
  sorted : elems.Pairwise fun a b => key a < key b

namespace KeySet

variable {α κ : Type} [LinearOrder κ] {key : α → κ}

instance : Membership α (KeySet α κ key) := ⟨fun s a => a ∈ s.elems⟩

variable {a : α} {s : KeySet α κ key}

def empty : KeySet α κ key := ⟨[], .nil⟩

theorem eq_of_key_eq {b : α} (ha : a ∈ s) (hb : b ∈ s) (h : key a = key b) : a = b := by
  have hnodup : (s.elems.map key).Nodup := List.pairwise_map.mpr (s.sorted.imp ne_of_lt)
  exact List.inj_on_of_nodup_map hnodup ha hb h

theorem find?_eq_some {p : α → Bool} (ha : a ∈ s) (hp : p a = true)
    (hkey : ∀ b, p b = true → key b = key a) : s.elems.find? p = some a := by
  obtain ⟨b, hb⟩ := Option.isSome_iff_exists.mp (List.find?_isSome.mpr ⟨a, ha, hp⟩)
  have hmem : b ∈ s := List.mem_of_find?_eq_some hb
  rw [hb, eq_of_key_eq hmem ha (hkey b (List.find?_some hb))]

def filter (p : α → Bool) (s : KeySet α κ key) : KeySet α κ key :=
  ⟨s.elems.filter p, s.sorted.filter p⟩

@[simp] theorem mem_filter {p : α → Bool} : a ∈ s.filter p ↔ a ∈ s ∧ p a = true := List.mem_filter

variable (key) in
/-- An element put in its place, unless its key is there already. -/
def insertElems (a : α) : List α → List α
  | [] => [a]
  | b :: l =>
    if key a < key b then a :: b :: l
    else if key b < key a then b :: insertElems a l
    else b :: l

theorem mem_insertElems {b : α} {l : List α} (hl : l.Pairwise fun a b => key a < key b) :
    b ∈ insertElems key a l ↔ b ∈ l ∨ b = a ∧ ∀ c ∈ l, key c ≠ key a := by
  induction l with
  | nil => simp [insertElems]
  | cons c l ih =>
    obtain ⟨hc, hl⟩ := List.pairwise_cons.mp hl
    rw [insertElems]
    by_cases hlt : key a < key c
    · have hfree : ∀ d ∈ c :: l, key d ≠ key a := by
        exact List.forall_mem_cons.mpr ⟨ne_of_gt hlt, fun d hd => ne_of_gt (hlt.trans (hc d hd))⟩
      rw [if_pos hlt, List.mem_cons, or_comm]
      exact or_congr_right (and_iff_left hfree).symm
    rw [if_neg hlt]
    by_cases hgt : key c < key a
    · rw [if_pos hgt, List.mem_cons, ih hl, List.mem_cons, List.forall_mem_cons,
        and_iff_right (ne_of_lt hgt), or_assoc]
    · have heq : key c = key a := le_antisymm (not_lt.mp hlt) (not_lt.mp hgt)
      rw [if_neg hgt, List.forall_mem_cons]
      simp [heq]

theorem pairwise_insertElems (a : α) {l : List α} (hl : l.Pairwise fun a b => key a < key b) :
    (insertElems key a l).Pairwise fun a b => key a < key b := by
  induction l with
  | nil => simp [insertElems]
  | cons c l ih =>
    obtain ⟨hc, htail⟩ := List.pairwise_cons.mp hl
    rw [insertElems]
    split
    · rename_i hlt
      exact List.pairwise_cons.mpr
        ⟨List.forall_mem_cons.mpr ⟨hlt, fun d hd => hlt.trans (hc d hd)⟩, hl⟩
    split
    · rename_i hgt
      refine List.pairwise_cons.mpr ⟨fun d hd => ?_, ih htail⟩
      rcases (mem_insertElems htail).mp hd with hd | ⟨rfl, -⟩
      · exact hc d hd
      · exact hgt
    · exact hl

/-- Insertion. An element whose key is there already is dropped. -/
def insert (a : α) (s : KeySet α κ key) : KeySet α κ key :=
  ⟨insertElems key a s.elems, pairwise_insertElems a s.sorted⟩

theorem mem_insert {b : α} :
    b ∈ s.insert a ↔ b ∈ s ∨ b = a ∧ ∀ c ∈ s, key c ≠ key a := mem_insertElems s.sorted

theorem ext {t : KeySet α κ key} (h : ∀ a, a ∈ s ↔ a ∈ t) : s = t := by
  obtain ⟨l, hl⟩ := s
  obtain ⟨m, hm⟩ := t
  have hperm : l.Perm m := by
    refine (List.perm_ext_iff_of_nodup ?_ ?_).mpr h
    · exact hl.imp fun hab heq => absurd (congrArg key heq) (ne_of_lt hab)
    · exact hm.imp fun hab heq => absurd (congrArg key heq) (ne_of_lt hab)
  have heq : l = m := hperm.eq_of_pairwise (fun a b _ _ hab hba => absurd hab hba.asymm) hl hm
  simp [heq]

end KeySet
