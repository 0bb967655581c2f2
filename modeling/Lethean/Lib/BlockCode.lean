import Mathlib

/-!
# Block codes by change of radix

A code that writes the bytes of a block as a number in another radix gives each
block size its own width, so that the blocks need no separators. Two things make
such a code invertible: digits of a fixed width and numbers below a power of the
radix determine each other, which Mathlib has for digits with the lowest first
(`Nat.setInvOn_digitsAppend_ofDigits`; here the highest stands first), and a code
that is inverted block by block is inverted on whole strings (`mapBlocks_inverse`),
provided that only the last block is short and stays shorter than a full one.
-/

namespace BlockCode

/-! ### Positional notation of a fixed width -/

section Digits

variable {b k x : Nat} {ds : List Nat}

/-- The `k` digits of a number, the highest first. -/
def digits (b k x : Nat) : List Nat := (Nat.digitsAppend b k x).reverse

/-- The number that digits stand for, the highest first. -/
def value (b : Nat) (ds : List Nat) : Nat := Nat.ofDigits b ds.reverse

theorem digits_zero (b k : Nat) : digits b k 0 = List.replicate k 0 := by
  simp [digits, Nat.digitsAppend]

theorem digits_succ (hb : 1 < b) (k x : Nat) :
    digits b (k + 1) x = digits b k (x / b) ++ [x % b] := by
  rcases Nat.eq_zero_or_pos x with rfl | hx
  · rw [Nat.zero_div, Nat.zero_mod, digits_zero, digits_zero, List.replicate_succ']
  · rw [digits, digits, Nat.digitsAppend, Nat.digitsAppend, Nat.digits_def' hb hx]
    simp

@[simp] theorem value_nil (b : Nat) : value b [] = 0 := rfl

theorem value_concat (b : Nat) (ds : List Nat) (d : Nat) :
    value b (ds ++ [d]) = d + b * value b ds := by
  rw [value, value, List.reverse_append, List.reverse_singleton, List.singleton_append,
    Nat.ofDigits_cons]

theorem length_digits (hb : 1 < b) (hx : x < b ^ k) : (digits b k x).length = k := by
  rw [digits, List.length_reverse, Nat.length_digitsAppend hb k hx]

theorem lt_of_mem_digits (hb : 1 < b) {d : Nat} (hd : d ∈ digits b k x) : d < b :=
  Nat.lt_of_mem_digitsAppend hb k d (List.mem_reverse.mp hd)

theorem value_lt (hb : 1 < b) (hds : ∀ d ∈ ds, d < b) : value b ds < b ^ ds.length := by
  rw [← List.length_reverse]
  exact Nat.ofDigits_lt_base_pow_length hb fun d hd => hds d (List.mem_reverse.mp hd)

theorem value_digits (hb : 1 < b) (hx : x < b ^ k) : value b (digits b k x) = x := by
  rw [value, digits, List.reverse_reverse]
  exact (Nat.setInvOn_digitsAppend_ofDigits hb k).2 hx

theorem digits_value (hb : 1 < b) (hds : ∀ d ∈ ds, d < b) :
    digits b ds.length (value b ds) = ds := by
  have hmem : ds.reverse ∈ {L : List Nat | L.length = ds.length ∧ ∀ d ∈ L, d < b} :=
    ⟨List.length_reverse, fun d hd => hds d (List.mem_reverse.mp hd)⟩
  rw [digits, value, (Nat.setInvOn_digitsAppend_ofDigits hb ds.length).1 hmem,
    List.reverse_reverse]

end Digits

/-! ### Codes on blocks -/

section Blocks

variable {α β : Type*}

/-- `f` on `k` blocks of `n` values and on what is left, if anything is. -/
def mapBlocks (n : Nat) (f : List α → Option (List β)) : Nat → List α → Option (List β)
  | 0, [] => some []
  | 0, rest => f rest
  | k + 1, data => do
    let block ← f (data.take n)
    let rest ← mapBlocks n f k (data.drop n)
    some (block ++ rest)

variable {n m : Nat} {f : List α → Option (List β)} {g : List β → Option (List α)}

theorem mapBlocks_zero {rest : List α} (h : rest ≠ []) : mapBlocks n f 0 rest = f rest := by
  cases rest with
  | nil => exact absurd rfl h
  | cons a rest => rfl

variable {k : Nat} {s : List β} {l : List α}

theorem mapBlocks_succ_eq_some {data : List α} (h : mapBlocks n f (k + 1) data = some s) :
    ∃ block rest, f (data.take n) = some block ∧ mapBlocks n f k (data.drop n) = some rest ∧
      s = block ++ rest := by
  rw [mapBlocks] at h
  obtain ⟨block, hblock, h⟩ := Option.bind_eq_some_iff.mp h
  obtain ⟨rest, hrest, h⟩ := Option.bind_eq_some_iff.mp h
  exact ⟨block, rest, hblock, hrest, (Option.some.inj h).symm⟩

/-- What holds of the values of all blocks holds of those of the string. -/
theorem forall_mem_mapBlocks {P : β → Prop} (hf : ∀ {l s}, f l = some s → ∀ x ∈ s, P x)
    (h : mapBlocks n f k l = some s) : ∀ x ∈ s, P x := by
  induction k generalizing l s with
  | zero =>
    cases l with
    | nil =>
      obtain rfl := Option.some.inj h
      simp
    | cons a l => exact hf h
  | succ k ih =>
    obtain ⟨block, rest, hblock, hrest, rfl⟩ := mapBlocks_succ_eq_some h
    exact List.forall_mem_append.mpr ⟨hf hblock, ih hrest⟩

theorem mapBlocks_last (hl : l.drop (n * k) ≠ []) (h : mapBlocks n f k l = some s) :
    ∃ t, f (l.drop (n * k)) = some t := by
  induction k generalizing l s with
  | zero =>
    rw [Nat.mul_zero, List.drop_zero] at hl ⊢
    exact ⟨s, (mapBlocks_zero hl).symm.trans h⟩
  | succ k ih =>
    obtain ⟨block, rest, -, hrest, -⟩ := mapBlocks_succ_eq_some h
    rw [Nat.mul_succ, Nat.add_comm, ← List.drop_drop] at hl ⊢
    exact ih hl hrest

/-- The inverse on `k` full blocks and a short one. -/
theorem mapBlocks_inverse_of_length (hm : 0 < m)
    (hfull : ∀ {l s}, l.length = n → f l = some s → s.length = m ∧ g s = some l)
    (hlast : ∀ {l s}, 0 < l.length → l.length < n → f l = some s →
      0 < s.length ∧ s.length < m ∧ g s = some l) {r : Nat} (hl : l.length = n * k + r) (hr : r < n)
    (h : mapBlocks n f k l = some s) :
    ∃ r', s.length = m * k + r' ∧ r' < m ∧ mapBlocks m g k s = some l := by
  induction k generalizing l s with
  | zero =>
    rw [Nat.mul_zero, Nat.zero_add] at hl
    cases l with
    | nil =>
      obtain rfl := Option.some.inj h
      exact ⟨0, by simp, hm, rfl⟩
    | cons a l =>
      rw [mapBlocks_zero (List.cons_ne_nil a l)] at h
      obtain ⟨hpos, hlt, hback⟩ := hlast (by simp) (by omega) h
      refine ⟨s.length, by simp, hlt, ?_⟩
      rw [mapBlocks_zero (List.length_pos_iff.mp hpos), hback]
  | succ k ih =>
    obtain ⟨block, rest, hblock, hrest, rfl⟩ := mapBlocks_succ_eq_some h
    rw [Nat.mul_succ] at hl
    obtain ⟨hlen, hback⟩ := hfull (by rw [List.length_take]; omega) hblock
    obtain ⟨r', hr', hlt, hih⟩ := ih (by rw [List.length_drop]; omega) hrest
    refine ⟨r', by rw [List.length_append, hr', hlen, Nat.mul_succ]; omega, hlt, ?_⟩
    rw [mapBlocks, List.take_left' hlen, List.drop_left' hlen, hback, hih, Option.bind_eq_bind,
      Option.bind_some, Option.bind_some, List.take_append_drop]

/-- **Codes on blocks.** If `g` inverts `f` on full blocks and on short ones, and
both keep full blocks full and short ones short, then it does on whole strings. -/
theorem mapBlocks_inverse (hn : 0 < n) (hm : 0 < m)
    (hfull : ∀ {l s}, l.length = n → f l = some s → s.length = m ∧ g s = some l)
    (hlast : ∀ {l s}, 0 < l.length → l.length < n → f l = some s →
      0 < s.length ∧ s.length < m ∧ g s = some l) (h : mapBlocks n f (l.length / n) l = some s) :
    mapBlocks m g (s.length / m) s = some l := by
  obtain ⟨r', hs, hr', hback⟩ := mapBlocks_inverse_of_length hm hfull hlast
    (Nat.div_add_mod l.length n).symm (Nat.mod_lt _ hn) h
  rwa [hs, Nat.mul_add_div hm, Nat.div_eq_of_lt hr', Nat.add_zero]

theorem exists_mapBlocks (hn : 0 < n)
    (hf : ∀ l, 0 < l.length → l.length ≤ n → ∃ s, f l = some s) (l : List α) :
    ∃ s, mapBlocks n f (l.length / n) l = some s := by
  obtain ⟨k, hk⟩ : ∃ k, l.length / n = k := ⟨_, rfl⟩
  have hlen : l.length = n * k + l.length % n := by rw [← hk, Nat.div_add_mod]
  have hmod := Nat.mod_lt l.length hn
  rw [hk]
  generalize l.length % n = r at hlen hmod
  clear hk
  induction k generalizing l with
  | zero =>
    cases l with
    | nil => exact ⟨[], rfl⟩
    | cons a l => exact hf (a :: l) (by simp) (by omega)
  | succ k ih =>
    rw [Nat.mul_succ] at hlen
    obtain ⟨block, hblock⟩ :=
      hf (l.take n) (by rw [List.length_take]; omega) (by rw [List.length_take]; omega)
    obtain ⟨rest, hrest⟩ := ih (l.drop n) (by rw [List.length_drop]; omega)
    exact ⟨block ++ rest, by rw [mapBlocks, hblock, hrest]; rfl⟩

end Blocks

end BlockCode
