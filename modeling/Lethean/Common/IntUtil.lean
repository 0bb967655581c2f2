import Mathlib

/-!
# Lethean.Common.IntUtil

Unsigned 64-bit arithmetic as the source uses it (`int-util.h`, and the median
of `misc_language.h`). Values are natural numbers below `2 ^ 64`; every
operation that can leave that range reduces its result.
-/

namespace Lethean

/-- The value a `uint64_t` holds after an operation with exact result `n`. -/
def u64 (n : Nat) : Nat := n % 2 ^ 64

/-- `a - b` on `uint64_t`. -/
def subU64 (a b : Nat) : Nat := (a + 2 ^ 64 - b) % 2 ^ 64

theorem u64_of_lt {n : Nat} (h : n < 2 ^ 64) : u64 n = n := Nat.mod_eq_of_lt h

theorem u64_lt (n : Nat) : u64 n < 2 ^ 64 := Nat.mod_lt _ (by decide)

theorem subU64_lt (a b : Nat) : subU64 a b < 2 ^ 64 := Nat.mod_lt _ (by decide)

theorem subU64_of_le {a b : Nat} (h : b ≤ a) (ha : a < 2 ^ 64) : subU64 a b = a - b := by
  rw [subU64, show a + 2 ^ 64 - b = a - b + 2 ^ 64 by omega, Nat.add_mod_right,
    Nat.mod_eq_of_lt (by omega)]

/-- The low `k` bytes of a number. -/
def littleEndian : Nat → Nat → List UInt8
  | 0, _ => []
  | k + 1, n => UInt8.ofNat n :: littleEndian k (n / 256)

def ofLittleEndian : List UInt8 → Nat
  | [] => 0
  | b :: s => b.toNat + 256 * ofLittleEndian s

theorem length_littleEndian (k n : Nat) : (littleEndian k n).length = k := by
  induction k generalizing n with
  | zero => rfl
  | succ k ih => rw [littleEndian, List.length_cons, ih]

theorem ofLittleEndian_littleEndian {k n : Nat} (h : n < 256 ^ k) :
    ofLittleEndian (littleEndian k n) = n := by
  induction k generalizing n with
  | zero =>
    have hzero : n = 0 := by simpa using h
    rw [hzero]
    rfl
  | succ k ih =>
    have hdiv : n / 256 < 256 ^ k := Nat.div_lt_of_lt_mul (by rwa [← Nat.pow_succ'])
    have hmod : (UInt8.ofNat n).toNat = n % 256 := UInt8.toNat_ofNat'
    rw [littleEndian, ofLittleEndian, ih hdiv, hmod]
    omega

theorem littleEndian_ofLittleEndian (s : List UInt8) :
    littleEndian s.length (ofLittleEndian s) = s := by
  induction s with
  | nil => rfl
  | cons b s ih =>
    have hb := b.toNat_lt
    have hdiv : (b.toNat + 256 * ofLittleEndian s) / 256 = ofLittleEndian s := by omega
    have hlow : UInt8.ofNat (b.toNat + 256 * ofLittleEndian s) = b := by
      rw [← UInt8.toNat_inj, UInt8.toNat_ofNat']
      omega
    rw [List.length_cons, ofLittleEndian, littleEndian, hdiv, ih, hlow]

/-- `mul128`: the low and the high word of a product. -/
def mul128 (a b : Nat) : Nat × Nat := (a * b % 2 ^ 64, a * b / 2 ^ 64)

/-- `std::sort` on integers. -/
def sortU64 (v : List Nat) : List Nat := v.insertionSort (· ≤ ·)

/-- `epee::misc_utils::median`. The source sorts its argument in place; a
caller that reads the vector afterwards reads `sortU64 v`. -/
def median (v : List Nat) : Nat :=
  match v with
  | [] => 0
  | [x] => x
  | _ =>
    let n := v.length / 2
    let s := sortU64 v
    if v.length % 2 = 1 then s.getD n 0 else u64 (s.getD (n - 1) 0 + s.getD n 0) / 2

@[simp] theorem length_sortU64 (v : List Nat) : (sortU64 v).length = v.length :=
  List.length_insertionSort _ _

theorem sortU64_perm {v w : List Nat} (h : v.Perm w) : sortU64 v = sortU64 w :=
  ((v.perm_insertionSort _).trans (h.trans (w.perm_insertionSort _).symm)).eq_of_pairwise'
    (v.pairwise_insertionSort _) (w.pairwise_insertionSort _)

theorem median_perm {v w : List Nat} (h : v.Perm w) : median v = median w := by
  have hsort := sortU64_perm h
  match v, w, h with
  | [], w, h => rw [h.nil_eq]
  | [x], w, h => rw [List.perm_singleton.mp h.symm]
  | x :: y :: v, w, h =>
    obtain ⟨a, b, w', rfl⟩ : ∃ a b w', w = a :: b :: w' := by
      match w, h.length_eq with
      | a :: b :: w', _ => exact ⟨a, b, w', rfl⟩
    simp only [median, h.length_eq, hsort]

theorem sortU64_getD_mem {v : List Nat} {n : Nat} (hn : n < v.length) :
    (sortU64 v).getD n 0 ∈ v := by
  have hlen : n < (sortU64 v).length := by rwa [sortU64, List.length_insertionSort]
  rw [List.getD_eq_getElem _ _ hlen]
  exact (v.perm_insertionSort _).mem_iff.mp (List.getElem_mem hlen)

theorem le_median {v : List Nat} {m : Nat} (hne : v ≠ []) (hm : ∀ x ∈ v, m ≤ x)
    (hlt : ∀ x ∈ v, x < 2 ^ 63) : m ≤ median v := by
  unfold median
  split
  · exact absurd rfl hne
  · exact hm _ (by simp)
  · have hlen := List.length_pos_iff.mpr hne
    dsimp only
    split
    · exact hm _ (sortU64_getD_mem (by omega))
    have h1 := sortU64_getD_mem (v := v) (n := v.length / 2 - 1) (by omega)
    have h2 := sortU64_getD_mem (v := v) (n := v.length / 2) (by omega)
    have := hm _ h1
    have := hm _ h2
    have := hlt _ h1
    have := hlt _ h2
    rw [u64_of_lt (by omega)]
    omega

theorem median_le {v : List Nat} {m : Nat} (hm : ∀ x ∈ v, x ≤ m) : median v ≤ m := by
  unfold median
  split
  · exact Nat.zero_le _
  · exact hm _ (by simp)
  · rename_i hne hne'
    have hlen : 2 ≤ v.length := by
      rcases v with _ | ⟨x, _ | ⟨y, v⟩⟩
      · exact absurd rfl hne
      · exact absurd rfl (hne' x)
      · simp
    dsimp only
    split
    · exact hm _ (sortU64_getD_mem (by omega))
    have h1 := hm _ (sortU64_getD_mem (v := v) (n := v.length / 2 - 1) (by omega))
    have h2 := hm _ (sortU64_getD_mem (v := v) (n := v.length / 2) (by omega))
    have := Nat.mod_le ((sortU64 v).getD (v.length / 2 - 1) 0 + (sortU64 v).getD (v.length / 2) 0)
      (2 ^ 64)
    unfold u64
    omega

/-! ### Reading a sorted vector -/

theorem getD_le_getD {l : List Nat} (h : l.Pairwise (· ≤ ·)) {i j : Nat} (hij : i ≤ j)
    (hj : j < l.length) : l.getD i 0 ≤ l.getD j 0 := by
  rw [List.getD_eq_getElem _ _ hj, List.getD_eq_getElem _ _ (by omega)]
  rcases hij.lt_or_eq with hij | rfl
  · exact List.pairwise_iff_getElem.mp h i j _ hj hij
  · exact le_rfl

theorem getD_lt {l : List Nat} {b : Nat} (h : ∀ x ∈ l, x < b) (hb : 0 < b) (i : Nat) :
    l.getD i 0 < b := by
  rcases Nat.lt_or_ge i l.length with hi | hi
  · rw [List.getD_eq_getElem _ _ hi]
    exact h _ (List.getElem_mem hi)
  · rwa [List.getD_eq_default _ _ hi]

theorem forall_mem_concat {α : Type} {P : α → Prop} {l : List α} {a : α} :
    (∀ x ∈ l ++ [a], P x) ↔ (∀ x ∈ l, P x) ∧ P a := by
  rw [List.forall_mem_append, List.forall_mem_singleton]

theorem mapM_eq_some {α β : Type} {f : α → Option β} {g : α → β} {l : List α}
    (h : ∀ a ∈ l, f a = some (g a)) : l.mapM f = some (l.map g) := by
  induction l with
  | nil => rfl
  | cons a l ih =>
    rw [List.mapM_cons, h a (by simp), ih fun b hb => h b (by simp [hb])]
    rfl

end Lethean
