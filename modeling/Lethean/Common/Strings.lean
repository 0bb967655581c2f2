import Mathlib

/-!
# Lethean.Common.Strings

Strings are byte lists, as `std::string` is. This module has the literals of the
source and the hexadecimal reader of `epee::string_tools`, which leaves the two
characters of a byte to `strtoul` and so takes a blank or a sign for the first.
-/

namespace Lethean

def literal (s : String) : List UInt8 := s.toUTF8.data.toList

def charCode (c : Char) : UInt8 := UInt8.ofNat c.toNat

def isSpace (b : UInt8) : Bool := b = 32 || (9 ≤ b && b ≤ 13)

def trim (s : List UInt8) : List UInt8 :=
  ((s.dropWhile isSpace).reverse.dropWhile isSpace).reverse

def hexValue (b : UInt8) : Option Nat :=
  if charCode '0' ≤ b ∧ b ≤ charCode '9' then some (b.toNat - (charCode '0').toNat)
  else if charCode 'A' ≤ b ∧ b ≤ charCode 'F' then some (b.toNat - (charCode 'A').toNat + 10)
  else if charCode 'a' ≤ b ∧ b ≤ charCode 'f' then some (b.toNat - (charCode 'a').toNat + 10)
  else none

def signLength (s : List UInt8) : Nat :=
  if s.head? = some (charCode '+') ∨ s.head? = some (charCode '-') then 1 else 0

def hexDigits (s : List UInt8) : List Nat :=
  ((s.drop (signLength s)).takeWhile fun b => (hexValue b).isSome).filterMap hexValue

/-- `strtoul(s, &endptr, 16)` as a `long`, with the number of characters it took. On
two characters there is no room for a digit behind `0x`. -/
def strtoul16 (s : List UInt8) : Int × Nat :=
  let spaces := (s.takeWhile isSpace).length
  let s := s.dropWhile isSpace
  let digits := hexDigits s
  let v : Nat := digits.foldl (fun v d => 16 * v + d) 0
  if digits = [] then (0, 0)
  else (if s.head? = some (charCode '-') then -(v : Int) else v,
    spaces + signLength s + digits.length)

/-- The loop of `parse_hexstr_to_binbuff`. -/
def parseHexPairs : List UInt8 → Option (List UInt8)
  | a :: b :: rest =>
    let (v, taken) := strtoul16 [a, b]
    if v < 0 ∨ 0xFF < v ∨ taken ≠ 2 then none
    else (parseHexPairs rest).map (UInt8.ofNat v.toNat :: ·)
  | _ => some []

def parseHexstrToBinbuff (s : List UInt8) : Option (List UInt8) :=
  if s.length % 2 = 1 then none else parseHexPairs s

/-! ### Blanks -/

theorem dropWhile_isSpace {s : List UInt8} (h : ∀ b ∈ s.head?, isSpace b = false) :
    s.dropWhile isSpace = s := by
  cases s with
  | nil => rfl
  | cons b s => rw [List.dropWhile_cons_of_neg (by simp [h b (by simp)])]

theorem trim_eq_self {s : List UInt8} (hfirst : ∀ b ∈ s.head?, isSpace b = false)
    (hlast : ∀ b ∈ s.getLast?, isSpace b = false) : trim s = s := by
  rw [trim, dropWhile_isSpace hfirst, dropWhile_isSpace, List.reverse_reverse]
  rwa [List.head?_reverse]

theorem trim_of_no_space {s : List UInt8} (h : ∀ b ∈ s, isSpace b = false) : trim s = s :=
  trim_eq_self (fun b hb => h b (List.mem_of_mem_head? hb)) fun b hb =>
    h b (List.mem_of_mem_getLast? hb)

/-! ### Separators -/

theorem intercalate_cons {α : Type} (x : α) (a : List α) (l : List (List α)) :
    [x].intercalate (a :: l) = a ++ l.flatMap (x :: ·) := by
  induction l generalizing a with
  | nil => simp
  | cons b l ih => rw [List.intercalate_cons_cons, ih, List.flatMap_cons]; simp

theorem intercalate_concat {α : Type} (x : α) (l : List (List α)) (last : List α) :
    [x].intercalate (l ++ [last]) = (l.flatMap fun a => a ++ [x]) ++ last := by
  induction l with
  | nil => simp
  | cons a l ih =>
    obtain ⟨b, l', hl⟩ := List.exists_cons_of_ne_nil (List.append_ne_nil_of_right_ne_nil l
      (List.cons_ne_nil last []))
    rw [List.cons_append, hl, List.intercalate_cons_cons, ← hl, ih, List.flatMap_cons]
    simp

/-! ### What the reader takes -/

theorem hexValue_eq_zero {b : UInt8} (h : hexValue b = some 0) : b = charCode '0' := by
  have hall : ∀ n < 256, hexValue (UInt8.ofNat n) = some 0 → UInt8.ofNat n = charCode '0' := by
    decide +kernel
  have := hall b.toNat b.toNat_lt
  rw [UInt8.ofNat_toNat] at this
  exact this h

theorem foldl_eq_zero {digits : List Nat} {v : Nat}
    (h : digits.foldl (fun v d => 16 * v + d) v = 0) : v = 0 ∧ ∀ d ∈ digits, d = 0 := by
  induction digits generalizing v with
  | nil => exact ⟨h, by simp⟩
  | cons d digits ih =>
    obtain ⟨hsum, hds⟩ := ih (v := 16 * v + d) h
    refine ⟨by omega, fun x hx => ?_⟩
    rcases List.mem_cons.mp hx with rfl | hx
    · omega
    · exact hds x hx

/-- A zero is written with the digit `0`. -/
theorem zero_mem_of_strtoul16 {s : List UInt8} {taken : Nat} (h : strtoul16 s = (0, taken))
    (htaken : taken ≠ 0) : charCode '0' ∈ s := by
  unfold strtoul16 at h
  dsimp only at h
  split at h
  · exact absurd (Prod.mk.inj h).2.symm htaken
  rename_i hne
  have hfold : (hexDigits (s.dropWhile isSpace)).foldl (fun v d => 16 * v + d) 0 = 0 := by
    have := (Prod.mk.inj h).1
    split at this <;> omega
  have hzero := (foldl_eq_zero hfold).2
  obtain ⟨d, hd⟩ := List.exists_mem_of_ne_nil _ hne
  obtain ⟨b, hb, hvalue⟩ := List.mem_filterMap.mp hd
  rw [hzero d hd] at hvalue
  rw [← hexValue_eq_zero hvalue]
  have hdrop := List.mem_of_mem_drop ((List.takeWhile_prefix _).subset hb)
  exact (List.dropWhile_suffix _).subset hdrop

theorem zero_mem_of_parseHexPairs {s buff : List UInt8} (hs : 2 ≤ s.length)
    (h : parseHexPairs s = some buff) (hzero : buff.getD 0 0 = 0) : charCode '0' ∈ s := by
  match s, hs with
  | a :: b :: rest, _ =>
    unfold parseHexPairs at h
    cases hrun : strtoul16 [a, b] with
    | mk v taken =>
      rw [hrun] at h
      dsimp only at h
      split at h
      · cases h
      rename_i hok
      obtain ⟨tail, -, rfl⟩ := Option.map_eq_some_iff.mp h
      have hv : v = 0 := by
        have := congrArg UInt8.toNat hzero
        rw [List.getD_cons_zero, UInt8.toNat_ofNat_of_lt' (show v.toNat < 256 by omega),
          UInt8.toNat_zero] at this
        omega
      rw [hv] at hrun
      rcases List.mem_cons.mp (zero_mem_of_strtoul16 hrun (by omega)) with hmem | hmem
      · exact List.mem_cons.mpr (.inl hmem)
      · exact List.mem_cons.mpr (.inr (List.mem_cons.mpr (.inl (List.mem_singleton.mp hmem))))

end Lethean
