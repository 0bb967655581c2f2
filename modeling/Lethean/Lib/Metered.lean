import Lethean.Lib.Codec

/-!
# Readers that keep account of their containers

A *metered* reader also says which sizes it gives to its containers while it
reads an input, whether it succeeds in the end or not. Forgetting the sizes
leaves a plain reader. `Keeps` is the triple for it: on inputs of at most `n`
bytes every size is allowed, and whatever is returned satisfies a predicate.
-/

namespace Codec

variable {κ α β : Type}

/-- A reader, and the sizes it gives to containers of each kind on an input. -/
structure Metered (κ α : Type) where
  reader : Reader α
  sizes : List UInt8 → List (κ × Nat)

instance : Monad (Metered κ) where
  pure a := ⟨pure a, fun _ => []⟩
  bind m f :=
    { reader := m.reader >>= fun a => (f a).reader
      sizes := fun s => m.sizes s ++
        match m.reader false s with
        | none => []
        | some (a, rest) => (f a).sizes rest }

namespace Metered

def lift (r : Reader α) : Metered κ α := ⟨r, fun _ => []⟩

/-- A container of the kind is resized or reserved to `n` elements. -/
def grow (kind : κ) (n : Nat) : Metered κ Unit := ⟨pure (), fun _ => [(kind, n)]⟩

/-- The same reader `n` times. -/
def times (m : Metered κ α) : Nat → Metered κ (List α)
  | 0 => pure []
  | n + 1 => do
    let a ← m
    let l ← times m n
    pure (a :: l)

/-- A container with `i` elements gets `n` more, one by one. -/
def fill (kind : κ) (m : Metered κ α) : Nat → Nat → Metered κ (List α)
  | _, 0 => pure []
  | i, n + 1 => do
    grow kind (i + 1)
    let a ← m
    let l ← fill kind m (i + 1) n
    pure (a :: l)

/-! ### Forgetting the sizes -/

@[simp] theorem reader_pure (a : α) : (pure a : Metered κ α).reader = pure a := rfl

@[simp] theorem reader_bind (m : Metered κ α) (f : α → Metered κ β) :
    (m >>= f).reader = m.reader >>= fun a => (f a).reader := rfl

@[simp] theorem reader_lift (r : Reader α) : (lift r : Metered κ α).reader = r := rfl

@[simp] theorem reader_grow (kind : κ) (n : Nat) : (grow kind n).reader = pure () := rfl

@[simp] theorem reader_ite (c : Prop) [Decidable c] (m m' : Metered κ α) :
    (if c then m else m').reader = if c then m.reader else m'.reader := apply_ite reader c m m'

@[simp] theorem reader_times (m : Metered κ α) (n : Nat) :
    (m.times n).reader = m.reader.times n := by
  induction n with
  | zero => rfl
  | succ n ih =>
    rw [times, reader_bind, Reader.times]
    simp only [reader_bind, ih, reader_pure]

@[simp] theorem reader_fill (kind : κ) (m : Metered κ α) (n : Nat) :
    ∀ i, (fill kind m i n).reader = m.reader.times n := by
  induction n with
  | zero => exact fun _ => rfl
  | succ n ih =>
    intro i
    rw [fill, reader_bind, reader_grow, pure_bind, Reader.times]
    simp only [reader_bind, ih, reader_pure]

/-! ### Sizes of a sequence -/

theorem mem_sizes_bind {m : Metered κ α} {f : α → Metered κ β} {s : List UInt8} {e : κ × Nat} :
    e ∈ (m >>= f).sizes s ↔
      e ∈ m.sizes s ∨ ∃ a rest, m.reader false s = some (a, rest) ∧ e ∈ (f a).sizes rest := by
  refine List.mem_append.trans (or_congr_right ?_)
  cases hm : m.reader false s with
  | none => simp
  | some result =>
    refine ⟨fun he => ⟨result.1, result.2, rfl, he⟩, ?_⟩
    intro ⟨a, rest, hresult, he⟩
    obtain rfl := Option.some.inj hresult
    exact he

theorem sizes_times_lift (r : Reader α) (k : Nat) (s : List UInt8) :
    ((lift r : Metered κ α).times k).sizes s = [] := by
  induction k generalizing s with
  | zero => rfl
  | succ k ih =>
    refine List.eq_nil_iff_forall_not_mem.mpr fun e he => ?_
    rcases mem_sizes_bind.mp he with he | ⟨a, rest, -, he⟩
    · exact absurd he List.not_mem_nil
    rcases mem_sizes_bind.mp he with he | ⟨l, rest', -, he⟩
    · rw [ih] at he
      exact absurd he List.not_mem_nil
    · exact absurd he List.not_mem_nil

/-! ### Reading forward -/

/-- There are never more bytes left than there were. -/
def Forward (r : Reader α) : Prop :=
  ∀ s a rest, r false s = some (a, rest) → rest.length ≤ s.length

namespace Forward

variable {r : Reader α} {f : α → Reader β}

theorem pure (a : α) : Forward (Pure.pure a) := by
  intro s b rest h
  cases h
  exact le_rfl

theorem bind (hr : Forward r) (hf : ∀ a, Forward (f a)) : Forward (r >>= f) := by
  intro s b rest h
  obtain ⟨a, mid, ha, hb⟩ := Reader.bind_some h
  exact (hf a mid b rest hb).trans (hr s a mid ha)

theorem guard (c : Prop) [Decidable c] : Forward (Reader.guard c) := by
  unfold Reader.guard
  split
  · exact pure ()
  · intro s a rest h
    cases h

theorem byte : Forward Reader.byte := by
  intro s b rest h
  cases s with
  | nil => cases h
  | cons c tail =>
    cases h
    exact Nat.le_succ _

theorem times (hr : Forward r) (k : Nat) : Forward (r.times k) := by
  induction k with
  | zero => exact pure []
  | succ k ih => exact hr.bind fun a => ih.bind fun l => pure (a :: l)

end Forward

/-! ### Allowed sizes -/

/-- On at most `n` bytes all sizes are allowed; what is returned satisfies `P`,
with no more bytes left than there were. -/
def Keeps (allowed : κ → Nat → Prop) (n : Nat) (m : Metered κ α) (P : α → Prop) : Prop :=
  ∀ s, s.length ≤ n → (∀ e ∈ m.sizes s, allowed e.1 e.2) ∧
    ∀ a rest, m.reader false s = some (a, rest) → rest.length ≤ s.length ∧ P a

namespace Keeps

variable {allowed : κ → Nat → Prop} {n : Nat} {m : Metered κ α} {f : α → Metered κ β}
  {P P' : α → Prop} {Q : β → Prop}

theorem mono (h : Keeps allowed n m P) (hP : ∀ a, P a → P' a) : Keeps allowed n m P' :=
  fun s hs => ⟨(h s hs).1, fun a rest ha => ((h s hs).2 a rest ha).imp_right (hP a)⟩

theorem pure {a : α} (h : P a) : Keeps allowed n (Pure.pure a) P := by
  intro s _
  refine ⟨fun _ he => absurd he List.not_mem_nil, fun b rest hb => ?_⟩
  cases hb
  exact ⟨le_rfl, h⟩

theorem bind (h : Keeps allowed n m P) (hf : ∀ a, P a → Keeps allowed n (f a) Q) :
    Keeps allowed n (m >>= f) Q := by
  intro s hs
  obtain ⟨hsizes, hreads⟩ := h s hs
  refine ⟨fun e he => ?_, fun b rest hb => ?_⟩
  · rcases mem_sizes_bind.mp he with he | ⟨a, rest, ha, he⟩
    · exact hsizes e he
    · obtain ⟨hlength, hP⟩ := hreads a rest ha
      exact (hf a hP rest (hlength.trans hs)).1 e he
  · obtain ⟨a, mid, hm, hb⟩ := Reader.bind_some hb
    obtain ⟨hlength, hP⟩ := hreads a mid hm
    obtain ⟨hlength', hQ⟩ := (hf a hP mid (hlength.trans hs)).2 b rest hb
    exact ⟨hlength'.trans hlength, hQ⟩

theorem lift {r : Reader α}
    (h : ∀ s a rest, s.length ≤ n → r false s = some (a, rest) → rest.length ≤ s.length ∧ P a) :
    Keeps allowed n (Metered.lift r : Metered κ α) P :=
  fun s hs => ⟨fun _ he => absurd he List.not_mem_nil, fun a rest => h s a rest hs⟩

theorem forward {r : Reader α} (h : Forward r) :
    Keeps allowed n (Metered.lift r : Metered κ α) fun _ => True :=
  lift fun s a rest _ hr => ⟨h s a rest hr, trivial⟩

theorem grow {kind : κ} {size : Nat} (h : allowed kind size) :
    Keeps allowed n (Metered.grow kind size) fun _ => True := by
  intro s _
  refine ⟨fun e he => ?_, fun a rest ha => ?_⟩
  · obtain rfl := List.mem_singleton.mp he
    exact h
  · cases ha
    exact ⟨le_rfl, trivial⟩

theorem times (h : Keeps allowed n m P) (k : Nat) :
    Keeps allowed n (m.times k) fun l => l.length = k ∧ ∀ a ∈ l, P a := by
  induction k with
  | zero => exact pure ⟨rfl, by simp⟩
  | succ k ih =>
    refine h.bind fun a ha => ih.bind fun l hl => ?_
    exact pure ⟨by simp [hl.1], List.forall_mem_cons.mpr ⟨ha, hl.2⟩⟩

theorem fill {kind : κ} (h : Keeps allowed n m P) (k i : Nat)
    (hallowed : ∀ size, size ≤ i + k → allowed kind size) :
    Keeps allowed n (Metered.fill kind m i k) fun l => l.length = k ∧ ∀ a ∈ l, P a := by
  induction k generalizing i with
  | zero => exact pure ⟨rfl, by simp⟩
  | succ k ih =>
    refine (grow (hallowed (i + 1) (by omega))).bind fun _ _ => ?_
    refine h.bind fun a ha => ?_
    refine (ih (i + 1) fun size hsize => hallowed size (by omega)).bind fun l hl => ?_
    exact pure ⟨by simp [hl.1], List.forall_mem_cons.mpr ⟨ha, hl.2⟩⟩

end Keeps

end Metered

end Codec
