import Lethean.Lib.Codec

/-!
# Lethean.Common.Varint

`tools::write_varint` and `tools::read_varint` of `varint.h`. The reader has
four ways to end, of which its return value tells three apart: an overflow, a
useless zero byte, and the end of the input, which looks like a proper end
unless no byte was read. In each of them it keeps the bits it has and the bytes
it has consumed.
-/

namespace Lethean

open Codec

def writeVarint (i : Nat) : List UInt8 :=
  if i < 0x80 then [UInt8.ofNat i]
  else UInt8.ofNat ((i &&& 0x7f) ||| 0x80) :: writeVarint (i >>> 7)
  termination_by i
  decreasing_by
    rw [Nat.shiftRight_eq_div_pow]
    exact Nat.div_lt_self (by omega) (by decide)

/-- How `tools::read_varint` ends: at a byte without continuation bit, at the
end of the input, with `EVARINT_OVERFLOW` or with `EVARINT_REPRESENT`. -/
inductive VarintEnd
  | done | eof | overflow | represent
  deriving DecidableEq, Repr

/-- The loop of `tools::read_varint<bits>`: how it ends, the value it has
written, and the bytes it has not consumed. -/
def readVarintLoop (bits : Nat) : Nat → Nat → List UInt8 → VarintEnd × Nat × List UInt8
  | _, write, [] => (.eof, write, [])
  | shift, write, byte :: rest =>
    if bits ≤ shift + 7 ∧ 1 <<< (bits - shift) ≤ byte.toNat then (.overflow, write, rest)
    else if byte = 0 ∧ shift ≠ 0 then (.represent, write, rest)
    else
      let write := write ||| (byte.toNat &&& 0x7f) <<< shift
      if byte.toNat &&& 0x80 = 0 then (.done, write, rest)
      else readVarintLoop bits (shift + 7) write rest

/-- `tools::read_varint<bits>`. -/
def readVarint (bits : Nat) (s : List UInt8) : VarintEnd × Nat × List UInt8 :=
  readVarintLoop bits 0 0 s

/-! ### Seven bits at a time -/

theorem writeVarint_ne_nil (i : Nat) : writeVarint i ≠ [] := by
  rw [writeVarint]
  split <;> simp

theorem writeVarint_of_lt {b : UInt8} (h : b.toNat < 0x80) : writeVarint b.toNat = [b] := by
  rw [writeVarint, if_pos h, UInt8.ofNat_toNat]

theorem writeVarint_cons {b : UInt8} (h : 0x80 ≤ b.toNat) {u : Nat} (hu : u ≠ 0) :
    writeVarint (b.toNat % 128 + u * 128) = b :: writeVarint u := by
  have hlt : b.toNat < 256 := b.toNat_lt
  have hlow : (b.toNat % 128 + u * 128) &&& 0x7f = b.toNat % 128 := by
    rw [show (0x7f : Nat) = 2 ^ 7 - 1 from rfl, Nat.and_two_pow_sub_one_eq_mod]
    omega
  have hor : b.toNat % 128 ||| 0x80 = b.toNat := by
    have hadd : 128 + b.toNat % 128 = 128 ||| b.toNat % 128 :=
      Nat.two_pow_add_eq_or_of_lt (show b.toNat % 128 < 2 ^ 7 by omega) 1
    rw [Nat.or_comm]
    omega
  rw [writeVarint, if_neg (by omega), hlow, hor, UInt8.ofNat_toNat, Nat.shiftRight_eq_div_pow]
  congr 2
  omega

theorem write_or_eq {write shift : Nat} (h : write < 2 ^ shift) (b : Nat) :
    write ||| (b &&& 0x7f) <<< shift = write + b % 128 * 2 ^ shift := by
  have hmask : b &&& 0x7f = b % 128 := by
    rw [show (0x7f : Nat) = 2 ^ 7 - 1 from rfl, Nat.and_two_pow_sub_one_eq_mod]
  rw [hmask, Nat.or_comm, ← Nat.shiftLeft_add_eq_or_of_lt h, Nat.shiftLeft_eq, Nat.add_comm]

theorem add_digit_lt {write shift : Nat} (h : write < 2 ^ shift) (b : Nat) :
    write + b % 128 * 2 ^ shift < 2 ^ (shift + 7) := by
  have hdigit : b % 128 < 128 := Nat.mod_lt _ (by decide)
  rw [Nat.pow_add]
  nlinarith

theorem continuation_iff (b : UInt8) : b.toNat &&& 0x80 = 0 ↔ b.toNat < 0x80 := by
  have hlt : b.toNat < 256 := b.toNat_lt
  have hbit : b.toNat &&& 0x80 = (b.toNat.testBit 7).toNat * 2 ^ 7 := Nat.and_two_pow b.toNat 7
  have htest : b.toNat.testBit 7 = decide (b.toNat / 2 ^ 7 % 2 = 1) :=
    Nat.testBit_eq_decide_div_mod_eq
  rw [hbit, htest]
  by_cases h : b.toNat < 0x80
  · simp [h, Nat.div_eq_of_lt h]
  · have hdiv : b.toNat / 128 = 1 := by omega
    simp [h, hdiv]

/-! ### What the reader reads -/

/-- What a run of the loop says about the digits it saw. On a proper end, they
are the encoding of the number it added. On any other end the input does not
start with that encoding; past the first byte the number may also be 0. -/
structure LoopSpec (shift write : Nat) (s : List UInt8) (result : VarintEnd × Nat × List UInt8)
    (u : Nat) : Prop where
  value : result.2.1 = write + u * 2 ^ shift
  done : result.1 = .done → s = writeVarint u ++ result.2.2 ∧ (shift ≠ 0 → u ≠ 0)
  other : result.1 ≠ .done → (u = 0 ∧ shift ≠ 0) ∨ ¬ writeVarint u <+: s

theorem LoopSpec.cons {shift write : Nat} {b : UInt8} {s : List UInt8}
    {result : VarintEnd × Nat × List UInt8} {u : Nat} (hb : 0x80 ≤ b.toNat)
    (h : LoopSpec (shift + 7) (write + b.toNat % 128 * 2 ^ shift) s result u) :
    LoopSpec shift write (b :: s) result (b.toNat % 128 + u * 128) where
  value := by
    rw [h.value, Nat.pow_add]
    ring
  done := by
    intro hdone
    obtain ⟨hs, hu⟩ := h.done hdone
    have hu0 : u ≠ 0 := hu (by omega)
    exact ⟨by rw [writeVarint_cons hb hu0, List.cons_append, ← hs], fun _ => by omega⟩
  other := by
    intro hother
    refine .inr fun hpre => ?_
    by_cases hu0 : u = 0
    · -- a single digit is written without continuation bit
      have hlt : b.toNat % 128 < 0x80 := Nat.mod_lt _ (by decide)
      rw [hu0, Nat.zero_mul, Nat.add_zero, writeVarint, if_pos hlt] at hpre
      have heq := congrArg UInt8.toNat (List.cons_prefix_cons.mp hpre).1
      have hlt' : b.toNat < 256 := b.toNat_lt
      rw [UInt8.toNat_ofNat_of_lt' (show b.toNat % 128 < 256 by omega)] at heq
      omega
    · rw [writeVarint_cons hb hu0] at hpre
      rcases h.other hother with ⟨h0, -⟩ | hnot
      · exact hu0 h0
      · exact hnot (List.cons_prefix_cons.mp hpre).2

variable {bits shift write : Nat} {s rest : List UInt8}

theorem readVarintLoop_spec (s : List UInt8) (hwrite : write < 2 ^ shift) :
    ∃ u, LoopSpec shift write s (readVarintLoop bits shift write s) u := by
  induction s generalizing shift write with
  | nil =>
    refine ⟨0, by simp [readVarintLoop], by simp [readVarintLoop], fun _ => ?_⟩
    exact .inr fun hpre => writeVarint_ne_nil 0 (List.prefix_nil.mp hpre)
  | cons b rest ih =>
    rw [readVarintLoop]
    split
    · rename_i hover
      refine ⟨0, by simp, by simp, fun _ => .inr fun hpre => ?_⟩
      rw [writeVarint, if_pos (by decide)] at hpre
      have hpos := Nat.two_pow_pos (bits - shift)
      rw [← (List.cons_prefix_cons.mp hpre).1, Nat.one_shiftLeft] at hover
      exact absurd hover.2 (Nat.not_le.mpr hpos)
    split
    · rename_i hzero
      exact ⟨0, by simp, by simp, fun _ => .inl ⟨rfl, hzero.2⟩⟩
    rename_i hzero
    rw [write_or_eq hwrite]
    by_cases hlast : b.toNat < 0x80
    · rw [if_pos ((continuation_iff b).mpr hlast)]
      refine ⟨b.toNat, ?_, fun _ => ⟨by simp [writeVarint_of_lt hlast], ?_⟩, by simp⟩
      · rw [Nat.mod_eq_of_lt hlast]
      · intro hshift hb0
        exact hzero ⟨UInt8.toNat_inj.mp hb0, hshift⟩
    · rw [if_neg (mt (continuation_iff b).mp hlast)]
      obtain ⟨u, hu⟩ := ih (add_digit_lt hwrite b.toNat)
      exact ⟨_, hu.cons (Nat.le_of_not_lt hlast)⟩

/-- A proper end is behind the encoding of the value. Other ends are in front of it. -/
theorem readVarint_spec {v : Nat} {ending : VarintEnd} (h : readVarint bits s = (ending, v, rest)) :
    (ending = .done → s = writeVarint v ++ rest) ∧ (ending ≠ .done → ¬ writeVarint v <+: s) := by
  obtain ⟨u, hu⟩ := @readVarintLoop_spec bits 0 0 s (by decide)
  rw [show readVarintLoop bits 0 0 s = (ending, v, rest) from h] at hu
  obtain rfl : v = u := by simpa using hu.value
  exact ⟨fun hdone => (hu.done hdone).1, fun hother => (hu.other hother).resolve_left (by simp)⟩

theorem readVarintLoop_lt (s : List UInt8) (hwrite : write < 2 ^ shift) (hbits : write < 2 ^ bits) :
    (readVarintLoop bits shift write s).2.1 < 2 ^ bits := by
  induction s generalizing shift write with
  | nil => exact hbits
  | cons b rest ih =>
    rw [readVarintLoop]
    split
    · exact hbits
    rename_i hover
    split
    · exact hbits
    rename_i hzero
    rw [write_or_eq hwrite]
    have hnext := add_digit_lt hwrite b.toNat
    have hfits : write + b.toNat % 128 * 2 ^ shift < 2 ^ bits := by
      by_cases hlast : bits ≤ shift + 7
      · rw [Nat.one_shiftLeft] at hover
        have hb : b.toNat < 2 ^ (bits - shift) := by omega
        by_cases hshift : shift ≤ bits
        · have hpow : 2 ^ bits = 2 ^ (bits - shift) * 2 ^ shift := by
            rw [← Nat.pow_add, Nat.sub_add_cancel hshift]
          have hmod : b.toNat % 128 ≤ b.toNat := Nat.mod_le _ _
          rw [hpow]
          nlinarith
        · -- past the last bit only a zero does not overflow
          rw [show bits - shift = 0 by omega] at hb
          exact absurd ⟨UInt8.toNat_inj.mp (by simpa using hb), by omega⟩ hzero
      · exact lt_of_lt_of_le hnext (Nat.pow_le_pow_right (by decide) (by omega))
    split
    · exact hfits
    · exact ih hnext hfits

theorem readVarint_lt (bits : Nat) (s : List UInt8) : (readVarint bits s).2.1 < 2 ^ bits :=
  readVarintLoop_lt s (by decide) (Nat.two_pow_pos bits)

theorem readVarintLoop_eof {v : Nat} (h : readVarintLoop bits shift write s = (.eof, v, rest)) :
    rest = [] := by
  induction s generalizing shift write with
  | nil => exact (Prod.mk.inj (Prod.mk.inj h).2).2.symm
  | cons b s ih =>
    rw [readVarintLoop] at h
    split at h
    · cases h
    split at h
    · cases h
    split at h
    · cases h
    · exact ih h

/-- It is met where every byte so far has the continuation bit and there are bits left. -/
theorem readVarintLoop_eof_iff (s : List UInt8) :
    (readVarintLoop bits shift write s).1 = .eof ↔
      s = [] ∨ (∀ b ∈ s, 0x80 ≤ b.toNat) ∧ shift + 7 * s.length < bits := by
  induction s generalizing shift write with
  | nil => simp [readVarintLoop]
  | cons b rest ih =>
    rw [readVarintLoop, List.forall_mem_cons, List.length_cons]
    by_cases hover : bits ≤ shift + 7 ∧ 1 <<< (bits - shift) ≤ b.toNat
    · simp only [if_pos hover, reduceCtorEq, false_or, false_iff]
      omega
    rw [if_neg hover]
    by_cases hzero : b = 0 ∧ shift ≠ 0
    · simp [hzero]
    rw [if_neg hzero]
    by_cases hlast : b.toNat < 0x80
    · simp [(continuation_iff b).mpr hlast, hlast]
    rw [if_neg (mt (continuation_iff b).mp hlast), ih]
    have hbits : shift + 7 < bits := by
      by_contra hle
      have hpow : 2 ^ (bits - shift) ≤ 2 ^ 7 := Nat.pow_le_pow_right (by omega) (by omega)
      rw [Nat.one_shiftLeft] at hover
      omega
    rw [show shift + 7 * (rest.length + 1) = shift + 7 + 7 * rest.length by ring]
    rcases rest with _ | ⟨c, rest⟩
    · simp [Nat.le_of_not_lt hlast, hbits]
    · simp [Nat.le_of_not_lt hlast]

theorem length_varintLoop_le (s : List UInt8) :
    (readVarintLoop bits shift write s).2.2.length ≤ s.length - 1 := by
  induction s generalizing shift write with
  | nil => exact le_rfl
  | cons b rest ih =>
    rw [readVarintLoop, List.length_cons, Nat.add_sub_cancel]
    split
    · exact le_rfl
    split
    · exact le_rfl
    split
    · exact le_rfl
    · exact ih.trans (Nat.sub_le _ _)

/-! ### Reading back -/

/-- The loop reads the digits of a number that fits into the bits left. -/
theorem varintLoop_writeVarint (rest : List UInt8) (u : Nat) (hwrite : write < 2 ^ shift)
    (hu : u < 2 ^ (bits - shift)) (hnonzero : shift ≠ 0 → u ≠ 0) :
    readVarintLoop bits shift write (writeVarint u ++ rest) =
      (.done, write + u * 2 ^ shift, rest) := by
  induction u using Nat.strongRecOn generalizing shift write with
  | ind u ih =>
    by_cases hlast : u < 0x80
    · have hb : (UInt8.ofNat u).toNat = u :=
        UInt8.toNat_ofNat_of_lt' (show u < 256 by omega)
      have hover : ¬ (bits ≤ shift + 7 ∧ 1 <<< (bits - shift) ≤ (UInt8.ofNat u).toNat) := by
        rw [hb, Nat.one_shiftLeft]
        omega
      have hzero : ¬ (UInt8.ofNat u = 0 ∧ shift ≠ 0) := by
        rintro ⟨hzero, hshift⟩
        exact hnonzero hshift (by rw [← hb, hzero]; rfl)
      rw [writeVarint, if_pos hlast, List.singleton_append, readVarintLoop, if_neg hover,
        if_neg hzero]
      rw [if_pos ((continuation_iff _).mpr (by omega)), write_or_eq hwrite, hb,
        Nat.mod_eq_of_lt hlast]
    · have hb : (UInt8.ofNat (u % 128 + 128)).toNat = u % 128 + 128 :=
        UInt8.toNat_ofNat_of_lt' (show u % 128 + 128 < 256 by omega)
      have hcons : writeVarint u = UInt8.ofNat (u % 128 + 128) :: writeVarint (u / 128) := by
        have h := writeVarint_cons (b := UInt8.ofNat (u % 128 + 128)) (by omega)
          (by omega : u / 128 ≠ 0)
        rwa [hb, show (u % 128 + 128) % 128 + u / 128 * 128 = u by omega] at h
      -- with more digits to come there are more than seven bits left
      have hbits : shift + 7 < bits := by
        by_contra hle
        have hpow : 2 ^ (bits - shift) ≤ 2 ^ 7 := Nat.pow_le_pow_right (by omega) (by omega)
        omega
      have hzero : ¬ (UInt8.ofNat (u % 128 + 128) = 0 ∧ shift ≠ 0) := by
        rintro ⟨hzero, -⟩
        rw [hzero] at hb
        simp at hb
      have hrest : u / 128 < 2 ^ (bits - (shift + 7)) := by
        have hpow : 2 ^ (bits - shift) = 2 ^ (bits - (shift + 7)) * 128 := by
          rw [show bits - shift = bits - (shift + 7) + 7 by omega, Nat.pow_add]
        exact Nat.div_lt_of_lt_mul (by omega)
      rw [hcons, List.cons_append, readVarintLoop, if_neg (by omega), if_neg hzero]
      rw [if_neg (mt (continuation_iff _).mp (by omega)), write_or_eq hwrite, hb,
        show (u % 128 + 128) % 128 = u % 128 by omega,
        ih (u / 128) (by omega) (add_digit_lt hwrite u) hrest (by omega)]
      have hvalue : write + u % 128 * 2 ^ shift + u / 128 * 2 ^ (shift + 7) =
          write + u * 2 ^ shift := by
        conv => rhs; rw [← Nat.mod_add_div u 128]
        rw [Nat.pow_add]
        ring
      rw [hvalue]

theorem readVarint_writeVarint {u : Nat} (h : u < 2 ^ bits) (rest : List UInt8) :
    readVarint bits (writeVarint u ++ rest) = (.done, u, rest) := by
  have hread := varintLoop_writeVarint rest u (show 0 < 2 ^ 0 by decide)
    (by simpa using h : u < 2 ^ (bits - 0)) (by simp)
  simpa [readVarint] using hread

/-! ### What the reader returns -/

/-- What `tools::read_varint<bits>` returns, and what it leaves in `write`. -/
def readVarintResult (bits : Nat) (s : List UInt8) : Int × Nat :=
  match readVarint bits s with
  | (.overflow, write, _) => (-1, write)
  | (.represent, write, _) => (-2, write)
  | (_, write, rest) => (s.length - rest.length, write)

/-- A positive result is the length of the encoding of the value, unless the input ends
inside an encoding: then it is the number of bytes there were. -/
theorem readVarint_inverse_iff (bits : Nat) :
    (∀ v < 2 ^ bits, ∀ rest,
      readVarintResult bits (writeVarint v ++ rest) = (((writeVarint v).length : Int), v)) ∧
    ∀ s, (0 < (readVarintResult bits s).1 →
        s.take (readVarintResult bits s).1.toNat = writeVarint (readVarintResult bits s).2) ↔
      s = [] ∨ (∃ b ∈ s, b.toNat < 0x80) ∨ bits ≤ 7 * s.length := by
  refine ⟨fun v hv rest => ?_, fun s => ?_⟩
  · simp [readVarintResult, readVarint_writeVarint hv]
  have heof := @readVarintLoop_eof_iff bits 0 0 s
  rcases hread : readVarint bits s with ⟨ending, v, rest⟩
  obtain ⟨hdone, hother⟩ := readVarint_spec hread
  rw [show readVarintLoop bits 0 0 s = _ from hread, Nat.zero_add] at heof
  have hcut : (s = [] ∨ (∃ b ∈ s, b.toNat < 0x80) ∨ bits ≤ 7 * s.length) ↔
      (ending = .eof → s = []) := by
    rw [heof]
    grind
  rw [hcut, readVarintResult, hread]
  cases ending with
  | done => simp [hdone rfl]
  | eof =>
    obtain rfl := readVarintLoop_eof hread
    constructor
    · intro h _
      by_contra hne
      have htake := h (by simpa using List.length_pos_iff.mpr hne)
      exact hother (by decide) ⟨[], by simpa using htake.symm⟩
    · intro h
      simp [h rfl]
  | overflow => simp
  | represent => simp

/-- A byte that announces another one, which is not there: the result is 1, the value 0. -/
theorem readVarint_truncated : readVarintResult 64 [0x80] = (1, 0) ∧
    [0x80].take 1 ≠ writeVarint 0 := by
  decide +kernel

end Lethean
