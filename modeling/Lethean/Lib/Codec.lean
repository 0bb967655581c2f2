import Mathlib

/-!
# Binary readers and the bytes they stand for

A *reader* consumes a byte string from the front. It runs in one of two modes:
a strict reader gives up at an encoding error that a lax one ignores. The
predicate `Decodes` says how the two modes and a set of encodings belong
together: whatever the lax reader returns has an encoding, and either the strict
reader returns the same after reading exactly that encoding, or the strict
reader fails and the input does not even start with that encoding. It composes
along `bind`, so a format is verified field by field. The predicate `Reads` goes
the other way: from some bytes, with anything behind them, both modes return a
value. `Agree` compares two readers: they take the same bytes and return related
values.
-/

namespace Codec

variable {α β : Type}

/-- A reader, in strict mode when the flag is set. -/
def Reader (α : Type) := Bool → List UInt8 → Option (α × List UInt8)

instance : Monad Reader where
  pure a := fun _ s => some (a, s)
  bind r f := fun strict s =>
    match r strict s with
    | none => none
    | some (a, rest) => f a strict rest

namespace Reader

def fail : Reader α := fun _ _ => none

def guard (c : Prop) [Decidable c] : Reader Unit := if c then pure () else fail

/-- Give up unless at least `n` bytes are left. -/
def need (n : Nat) : Reader Unit := fun _ s => if s.length < n then none else some ((), s)

def byte : Reader UInt8 := fun _ s =>
  match s with
  | [] => none
  | b :: rest => some (b, rest)

/-- The same reader `n` times. -/
def times (r : Reader α) : Nat → Reader (List α)
  | 0 => pure []
  | n + 1 => do
    let a ← r
    let l ← times r n
    pure (a :: l)

theorem bind_some {r : Reader α} {f : α → Reader β} {strict : Bool} {s rest : List UInt8} {b : β}
    (h : (r >>= f) strict s = some (b, rest)) :
    ∃ a mid, r strict s = some (a, mid) ∧ f a strict mid = some (b, rest) := by
  change (match r strict s with
    | none => none
    | some (a, mid) => f a strict mid) = some (b, rest) at h
  cases hr : r strict s with
  | none => simp [hr] at h
  | some p => exact ⟨p.1, p.2, rfl, by simpa [hr] using h⟩

theorem bind_of_some {r : Reader α} (f : α → Reader β) {strict : Bool} {s mid : List UInt8} {a : α}
    (h : r strict s = some (a, mid)) : (r >>= f) strict s = f a strict mid := by
  change (match r strict s with
    | none => none
    | some (a, mid) => f a strict mid) = _
  rw [h]

theorem bind_of_none {r : Reader α} (f : α → Reader β) {strict : Bool} {s : List UInt8}
    (h : r strict s = none) : (r >>= f) strict s = none := by
  change (match r strict s with
    | none => none
    | some (a, mid) => f a strict mid) = _
  rw [h]

theorem length_of_times {r : Reader α} {strict : Bool} {n : Nat} {s rest : List UInt8}
    {l : List α} (h : r.times n strict s = some (l, rest)) : l.length = n := by
  induction n generalizing s rest l with
  | zero =>
    cases h
    rfl
  | succ n ih =>
    obtain ⟨a, s1, -, h⟩ := bind_some h
    obtain ⟨l', s2, hl', h⟩ := bind_some h
    cases h
    rw [List.length_cons, ih hl']

instance : LawfulMonad Reader :=
  LawfulMonad.mk' Reader
    (fun r => by
      funext strict s
      change (match r strict s with
        | none => none
        | some (a, rest) => some (a, rest)) = _
      cases r strict s <;> rfl)
    (fun _ _ => rfl)
    (fun r f g => by
      funext strict s
      change (match (match r strict s with
          | none => none
          | some (a, rest) => f a strict rest) with
        | none => none
        | some (b, rest) => g b strict rest) = match r strict s with
          | none => none
          | some (a, rest) => (match f a strict rest with
            | none => none
            | some (b, rest) => g b strict rest)
      cases r strict s <;> rfl)

end Reader

/-! ### Readers that decode -/

/-- Whatever the lax reader returns stands for some bytes `o` with `W v o`.
Either the strict reader agrees and has read exactly these bytes, or it gives up
and the input does not start with them. -/
def Decodes (r : Reader α) (W : α → List UInt8 → Prop) : Prop :=
  ∀ s v rest, r false s = some (v, rest) → ∃ o, W v o ∧
    ((r true s = some (v, rest) ∧ s = o ++ rest) ∨ (r true s = none ∧ ¬ o <+: s))

namespace Decodes

open Reader

variable {r : Reader α} {f : α → Reader β} {W V : α → List UInt8 → Prop}
  {U : β → List UInt8 → Prop}

theorem mono (h : Decodes r W) (hW : ∀ v o, W v o → V v o) : Decodes r V := by
  intro s v rest hs
  obtain ⟨o, ho, hcases⟩ := h s v rest hs
  exact ⟨o, hW v o ho, hcases⟩

theorem and (h : Decodes r W) {P : α → Prop}
    (hP : ∀ s v rest, r false s = some (v, rest) → P v) : Decodes r fun v o => W v o ∧ P v := by
  intro s v rest hs
  obtain ⟨o, ho, hcases⟩ := h s v rest hs
  exact ⟨o, ⟨ho, hP s v rest hs⟩, hcases⟩

theorem pure {a : α} (h : W a []) : Decodes (Pure.pure a) W := by
  intro s v rest hs
  cases hs
  exact ⟨[], h, .inl ⟨rfl, rfl⟩⟩

/-- **Sequencing.** The bytes of a sequence are the bytes of its parts. -/
theorem bind (hr : Decodes r W) (hf : ∀ a o, W a o → Decodes (f a) fun b o' => U b (o ++ o')) :
    Decodes (r >>= f) U := by
  intro s b rest hs
  obtain ⟨a, mid, ha, hb⟩ := bind_some hs
  obtain ⟨o, ho, hfirst⟩ := hr s a mid ha
  obtain ⟨o', ho', hsecond⟩ := hf a o ho mid b rest hb
  refine ⟨o ++ o', ho', ?_⟩
  rcases hfirst with ⟨hstrict, rfl⟩ | ⟨hstrict, hnot⟩
  · rcases hsecond with ⟨hstrict', rfl⟩ | ⟨hstrict', hnot⟩
    · exact .inl ⟨by rw [bind_of_some f hstrict, hstrict'], by rw [List.append_assoc]⟩
    · refine .inr ⟨by rw [bind_of_some f hstrict, hstrict'], fun hpre => hnot ?_⟩
      exact (List.prefix_append_right_inj o).mp hpre
  · -- what the first part should have read is not there, so the whole is not either
    exact .inr ⟨bind_of_none f hstrict, fun hpre => hnot ((List.prefix_append o o').trans hpre)⟩

theorem fail : Decodes (Reader.fail : Reader α) W := by
  intro s v rest hs
  cases hs

theorem guard {c : Prop} [Decidable c] :
    Decodes (Reader.guard c) fun _ o => c ∧ o = [] := by
  unfold Reader.guard
  split
  · rename_i hc
    exact Decodes.pure ⟨hc, rfl⟩
  · exact Decodes.fail

theorem need (n : Nat) : Decodes (Reader.need n) fun _ o => o = [] := by
  intro s v rest hs
  unfold Reader.need at hs ⊢
  by_cases hlen : s.length < n
  · rw [if_pos hlen] at hs
    cases hs
  · rw [if_neg hlen] at hs ⊢
    cases hs
    exact ⟨[], rfl, .inl ⟨rfl, rfl⟩⟩

theorem byte : Decodes Reader.byte fun b o => o = [b] := by
  intro s v rest hs
  cases s with
  | nil => cases hs
  | cons b tail =>
    cases hs
    exact ⟨[v], rfl, .inl ⟨rfl, rfl⟩⟩

/-- A repeated reader decodes the concatenation, and returns as many values as
it was asked for. -/
theorem times {w : α → List UInt8} {P : α → Prop} (h : Decodes r fun a o => P a ∧ o = w a) :
    ∀ n, Decodes (r.times n) fun l o => l.length = n ∧ (∀ a ∈ l, P a) ∧ o = l.flatMap w := by
  intro n
  induction n with
  | zero => exact Decodes.pure ⟨rfl, by simp, rfl⟩
  | succ n ih =>
    refine Decodes.bind h fun a o ⟨hPa, ho⟩ => ?_
    refine Decodes.bind ih fun l o' ⟨hlen, hP, ho'⟩ => ?_
    refine Decodes.pure ⟨by simp [hlen], ?_, by simp [ho, ho']⟩
    exact List.forall_mem_cons.mpr ⟨hPa, hP⟩

/-- An input read to its end is the encoding of the value exactly if the strict
reader reads it too. -/
theorem eq_iff_isSome (h : Decodes r W) {s w : List UInt8} {v : α}
    (hs : r false s = some (v, [])) (hw : ∀ o, W v o → w = o) : w = s ↔ (r true s).isSome := by
  obtain ⟨o, ho, hcases⟩ := h s v [] hs
  rw [hw o ho]
  rcases hcases with ⟨hstrict, hread⟩ | ⟨hstrict, hnot⟩
  · rw [hstrict]
    simp [hread]
  rw [hstrict]
  constructor
  · intro heq
    rw [heq] at hnot
    exact absurd List.prefix_rfl hnot
  · intro hsome
    cases hsome

end Decodes

/-! ### Readers that read back -/

/-- From the bytes `o` the reader returns `a` in both modes, whatever follows. -/
def Reads (r : Reader α) (o : List UInt8) (a : α) : Prop :=
  ∀ strict rest, r strict (o ++ rest) = some (a, rest)

namespace Reads

open Reader

variable {r : Reader α} {f : α → Reader β} {o o' : List UInt8} {a : α} {b : β}

theorem pure (a : α) : Reads (Pure.pure a) [] a := fun _ _ => rfl

theorem bind (hr : Reads r o a) (hf : Reads (f a) o' b) : Reads (r >>= f) (o ++ o') b := by
  intro strict rest
  rw [List.append_assoc, bind_of_some f (hr strict (o' ++ rest)), hf strict rest]

theorem last (hr : Reads r o a) (hf : Reads (f a) [] b) : Reads (r >>= f) o b := by
  have hbind := hr.bind hf
  rwa [List.append_nil] at hbind

theorem guard {c : Prop} [Decidable c] (hc : c) : Reads (Reader.guard c) [] () := by
  intro strict rest
  rw [Reader.guard, if_pos hc]
  rfl

theorem need_bind {n : Nat} (hn : n ≤ o.length) (hr : Reads r o a) :
    Reads (Reader.need n >>= fun _ => r) o a := by
  intro strict rest
  have hneed : Reader.need n strict (o ++ rest) = some ((), o ++ rest) := by
    rw [Reader.need, if_neg (by rw [List.length_append]; omega)]
  rw [bind_of_some _ hneed, hr strict rest]

theorem byte (b : UInt8) : Reads Reader.byte [b] b := fun _ _ => rfl

theorem byte_bind {c : UInt8} {f : UInt8 → Reader β} (hf : Reads (f c) o b) :
    Reads (Reader.byte >>= f) (c :: o) b := (byte c).bind hf

theorem times {w : α → List UInt8} {l : List α} (h : ∀ a ∈ l, Reads r (w a) a) :
    Reads (r.times l.length) (l.flatMap w) l := by
  induction l with
  | nil => exact Reads.pure []
  | cons a l ih =>
    have htail : Reads (r.times l.length) (l.flatMap w) l := ih fun x hx => h x (by simp [hx])
    exact (h a (by simp)).bind (htail.last (Reads.pure (a :: l)))

end Reads

/-! ### Readers that look at no byte they leave -/

/-- Where bytes are left, the lax reader has looked at those in front of them only. -/
def Local (r : Reader α) : Prop :=
  ∀ s a b rest, r false s = some (a, b :: rest) →
    ∃ o, s = o ++ b :: rest ∧ ∀ t, r false (o ++ t) = some (a, t)

namespace Local

theorem pure (a : α) : Local (Pure.pure a : Reader α) := by
  intro s a' b rest h
  cases h
  exact ⟨[], rfl, fun t => rfl⟩

theorem byte : Local Reader.byte := by
  intro s a b rest h
  match s, h with
  | _ :: _, rfl => exact ⟨[a], rfl, fun t => rfl⟩

theorem bind {r : Reader α} {f : α → Reader β} (hr : Local r) (hf : ∀ a, Local (f a)) :
    Local (r >>= f) := by
  intro s v b rest h
  obtain ⟨a, mid, hs, hmid⟩ := Reader.bind_some h
  obtain ⟨o', rfl, ho'⟩ := hf a _ _ _ _ hmid
  obtain ⟨c, mid, hc⟩ := List.exists_cons_of_ne_nil
    (List.append_ne_nil_of_right_ne_nil o' (List.cons_ne_nil b rest))
  rw [hc] at hs
  obtain ⟨o, rfl, ho⟩ := hr _ _ _ _ hs
  refine ⟨o ++ o', by rw [List.append_assoc, hc], fun t => ?_⟩
  rw [List.append_assoc, Reader.bind_of_some f (ho _), ho']

theorem ite {c : Prop} [Decidable c] {r r' : Reader α} (hr : Local r) (hr' : Local r') :
    Local (if c then r else r') := by
  split
  · exact hr
  · exact hr'

theorem fail : Local (Reader.fail : Reader α) := by
  intro s a b rest h
  cases h

end Local

/-! ### Readers that agree -/

/-- Both give up, or both leave the same bytes and return related values. -/
def Agree (R : α → β → Prop) (r : Reader α) (r' : Reader β) : Prop :=
  ∀ strict s, (r strict s = none ∧ r' strict s = none) ∨
    ∃ a b rest, r strict s = some (a, rest) ∧ r' strict s = some (b, rest) ∧ R a b

namespace Agree

variable {γ δ : Type} {R : α → β → Prop} {Q : γ → δ → Prop} {r : Reader α} {r' : Reader β}

theorem refl (r : Reader α) : Agree Eq r r := by
  intro strict s
  cases h : r strict s with
  | none => exact .inl ⟨rfl, rfl⟩
  | some result => exact .inr ⟨result.1, result.1, result.2, rfl, rfl, rfl⟩

theorem mono {R' : α → β → Prop} (h : Agree R r r') (hR : ∀ a b, R a b → R' a b) :
    Agree R' r r' := by
  intro strict s
  rcases h strict s with hnone | ⟨a, b, rest, hr, hr', hab⟩
  · exact .inl hnone
  · exact .inr ⟨a, b, rest, hr, hr', hR a b hab⟩

theorem pure {a : α} {b : β} (h : R a b) : Agree R (Pure.pure a) (Pure.pure b) :=
  fun _ s => .inr ⟨a, b, s, rfl, rfl, h⟩

theorem bind {f : α → Reader γ} {f' : β → Reader δ} (h : Agree R r r')
    (hf : ∀ a b, R a b → Agree Q (f a) (f' b)) : Agree Q (r >>= f) (r' >>= f') := by
  intro strict s
  rcases h strict s with ⟨hr, hr'⟩ | ⟨a, b, rest, hr, hr', hR⟩
  · exact .inl ⟨Reader.bind_of_none f hr, Reader.bind_of_none f' hr'⟩
  · rw [Reader.bind_of_some f hr, Reader.bind_of_some f' hr']
    exact hf a b hR strict rest

theorem bind_same {f : α → Reader γ} {f' : α → Reader δ}
    (hf : ∀ a, Agree Q (f a) (f' a)) : Agree Q (r >>= f) (r >>= f') :=
  (refl r).bind fun a _ hab => hab ▸ hf a

theorem ite {c : Prop} [Decidable c] {r1 r2 : Reader α} {r1' r2' : Reader β}
    (h1 : Agree R r1 r1') (h2 : Agree R r2 r2') :
    Agree R (if c then r1 else r2) (if c then r1' else r2') := by
  split
  · exact h1
  · exact h2

theorem some_of_some (h : Agree R r r') {strict : Bool} {s rest : List UInt8} {a : α}
    (hr : r strict s = some (a, rest)) : ∃ b, r' strict s = some (b, rest) ∧ R a b := by
  rcases h strict s with ⟨hnone, -⟩ | ⟨a', b, rest', ha, hb, hR⟩
  · rw [hr] at hnone
    cases hnone
  · rw [hr] at ha
    cases ha
    exact ⟨b, hb, hR⟩

end Agree

end Codec
