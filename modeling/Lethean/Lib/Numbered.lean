import Mathlib

/-!
# Tables with numbered rows

A table whose rows carry their own number, counted from 0 without a gap. New
rows go to the end and the last row is the one that is removed, so a number is
found at its own position, and removing the row that was added last gives the
table back.
-/

def Numbered {α : Type*} (key : α → Nat) (rows : List α) : Prop :=
  rows.map key = List.range rows.length

namespace Numbered

variable {α : Type*} {key : α → Nat} {rows : List α} {row : α} {n : Nat}

/-- The row with the number `n`. -/
def rowAt (key : α → Nat) (rows : List α) (n : Nat) : Option α := rows.find? fun r => key r = n

/-- The rows without the one with the number `n`. -/
def deleteRow (key : α → Nat) (rows : List α) (n : Nat) : List α := rows.eraseP fun r => key r = n

@[simp] theorem nil : Numbered key [] := rfl

theorem concat_iff :
    Numbered key (rows ++ [row]) ↔ Numbered key rows ∧ key row = rows.length := by
  simp [Numbered, List.range_succ]

theorem key_lt (h : Numbered key rows) (hrow : row ∈ rows) : key row < rows.length := by
  have hmem : key row ∈ rows.map key := List.mem_map_of_mem hrow
  rw [h] at hmem
  exact List.mem_range.mp hmem

theorem rowAt_eq (h : Numbered key rows) (n : Nat) : rowAt key rows n = rows[n]? := by
  induction rows using List.reverseRecOn with
  | nil => rfl
  | append_singleton rows r ih =>
    obtain ⟨hrows, hr⟩ := concat_iff.mp h
    rw [rowAt, List.find?_append, ← rowAt, ih hrows]
    rcases lt_trichotomy n rows.length with hn | rfl | hn
    · rw [List.getElem?_append_left hn, List.getElem?_eq_getElem hn]
      rfl
    · simp [hr]
    · have hne : ¬ rows.length = n := by omega
      rw [List.getElem?_eq_none (by omega), List.getElem?_eq_none (by simp; omega)]
      simp [hr, hne]

theorem rowAt_last (h : Numbered key rows) (row : α) (hrow : key row = rows.length) :
    rowAt key (rows ++ [row]) rows.length = some row := by
  rw [rowAt_eq (concat_iff.mpr ⟨h, hrow⟩), List.getElem?_concat_length]

theorem deleteRow_last (h : Numbered key rows) (hrow : key row = rows.length) :
    deleteRow key (rows ++ [row]) rows.length = rows := by
  have hrest : ∀ r ∈ rows, ¬ decide (key r = rows.length) = true := by
    intro r hr
    have := h.key_lt hr
    simp
    omega
  rw [deleteRow, List.eraseP_append_right _ hrest]
  simp [hrow]

end Numbered
