import Mathlib

/-!
# Fork choice in a tree of linked blocks

Blocks carry an identifier and name that of their parent. A *path* is the list of
blocks above the root, each naming the one before it; where identifiers do not
collide, the identifier of the last block determines the whole path.

A node that follows the heaviest chain keeps one path as its main chain and a
set of others beside it. `Step` says what such a node may do: extend the main
chain, keep a path that is not heavier, switch to one that is, and forget paths
at any time. `Heaviest` is the invariant, and `Step.heaviest` proves that every
step keeps it and that the weight of the main chain never falls.
-/

namespace ForkChoice

/-! ### Paths -/

section Paths

variable {B I : Type*} (id prev : B → I) (root : B)

def tip (p : List B) : B := p.getLastD root

@[simp] theorem tip_nil : tip root ([] : List B) = root := rfl

@[simp] theorem tip_concat (p : List B) (b : B) : tip root (p ++ [b]) = b := by
  simp [tip]

/-- Every block names its predecessor, and the root does not occur again. -/
def IsPath (p : List B) : Prop :=
  ∀ r b, r ++ [b] <+: p → prev b = id (tip root r) ∧ id b ≠ id root

variable {id prev root}

theorem IsPath.of_prefix {p q : List B} (h : IsPath id prev root p) (hq : q <+: p) :
    IsPath id prev root q :=
  fun r b hr => h r b (hr.trans hq)

theorem isPath_nil : IsPath id prev root [] := fun r b h => absurd (List.prefix_nil.mp h) (by simp)

/-- What holds at every block of a path, when one more is put on it. -/
theorem forall_prefix_concat_iff {Q : List B → B → Prop} {p : List B} {b : B} :
    (∀ r c, r ++ [c] <+: p ++ [b] → Q r c) ↔ (∀ r c, r ++ [c] <+: p → Q r c) ∧ Q p b := by
  constructor
  · intro h
    exact ⟨fun r c hr => h r c (hr.trans (List.prefix_append _ _)), h p b (List.prefix_refl _)⟩
  · rintro ⟨hp, hb⟩ r c hr
    rcases List.prefix_concat_iff.mp hr with heq | hr
    · obtain ⟨rfl, hc⟩ := List.append_inj' heq rfl
      obtain rfl := List.singleton_inj.mp hc
      exact hb
    · exact hp r c hr

theorem isPath_concat_iff {p : List B} {b : B} : IsPath id prev root (p ++ [b]) ↔
    IsPath id prev root p ∧ prev b = id (tip root p) ∧ id b ≠ id root :=
  forall_prefix_concat_iff

/-- **A path is determined by the identifier of its last block.** -/
theorem IsPath.unique {D : Set B} (hinj : Set.InjOn id D) {p q : List B}
    (hp : IsPath id prev root p) (hq : IsPath id prev root q) (hpD : ∀ b ∈ p, b ∈ D)
    (hqD : ∀ b ∈ q, b ∈ D) (htip : id (tip root p) = id (tip root q)) : p = q := by
  induction p using List.reverseRecOn generalizing q with
  | nil =>
    rcases List.eq_nil_or_concat' q with rfl | ⟨q, b, rfl⟩
    · rfl
    · rw [tip_nil, tip_concat] at htip
      exact absurd htip.symm (hq q b (List.prefix_refl _)).2
  | append_singleton p a ih =>
    rcases List.eq_nil_or_concat' q with rfl | ⟨q, b, rfl⟩
    · rw [tip_nil, tip_concat] at htip
      exact absurd htip (hp p a (List.prefix_refl _)).2
    rw [tip_concat, tip_concat] at htip
    obtain rfl := hinj (hpD a (by simp)) (hqD b (by simp)) htip
    -- the common last block names one parent
    have hparent : id (tip root p) = id (tip root q) :=
      (hp p a (List.prefix_refl _)).1.symm.trans (hq q a (List.prefix_refl _)).1
    have hpq : p = q := ih (hp.of_prefix (List.prefix_append _ _))
      (hq.of_prefix (List.prefix_append _ _)) (fun b hb => hpD b (by simp [hb]))
      (fun b hb => hqD b (by simp [hb])) hparent
    rw [hpq]

theorem IsPath.nodup {D : Set B} (hinj : Set.InjOn id D) {p : List B}
    (hp : IsPath id prev root p) (hpD : ∀ b ∈ p, b ∈ D) : ((root :: p).map id).Nodup := by
  induction p using List.reverseRecOn with
  | nil => simp
  | append_singleton p a ih =>
    have hp' : IsPath id prev root p := hp.of_prefix (List.prefix_append _ _)
    have hpD' : ∀ b ∈ p, b ∈ D := fun b hb => hpD b (by simp [hb])
    rw [← List.cons_append, List.map_append, List.map_singleton]
    refine (ih hp' hpD').append (List.nodup_singleton _) ?_
    rw [List.disjoint_singleton, List.map_cons, List.mem_cons, not_or]
    refine ⟨(hp p a (List.prefix_refl _)).2, ?_⟩
    intro hmem
    obtain ⟨b, hb, hid⟩ := List.mem_map.mp hmem
    -- the path up to `b` ends in the same identifier, but it is shorter
    obtain ⟨r, s, rfl⟩ := List.append_of_mem hb
    have hr : r ++ [b] <+: (r ++ b :: s) ++ [a] := ⟨s ++ [a], by simp⟩
    have heq : r ++ [b] = (r ++ b :: s) ++ [a] :=
      IsPath.unique hinj (hp.of_prefix hr) hp
        (fun c hc => hpD c (hr.subset hc)) hpD (by rw [tip_concat, tip_concat, hid])
    have hlen := congrArg List.length heq
    simp at hlen

end Paths

/-! ### Following the heaviest path -/

/-- The main chain and the paths kept beside it. -/
structure State (B : Type*) where
  main : List B
  alts : Set (List B)

variable {B : Type*}

inductive Step (weight : List B → ℕ) : State B → State B → Prop
  | forget {main : List B} {alts alts' : Set (List B)} (hsub : alts' ⊆ alts) :
      Step weight ⟨main, alts⟩ ⟨main, alts'⟩
  | extend {main : List B} {alts alts' : Set (List B)} (b : B)
      (hnew : main ++ [b] ∉ alts) (hheavier : weight main < weight (main ++ [b]))
      (hsub : alts' ⊆ alts) : Step weight ⟨main, alts⟩ ⟨main ++ [b], alts'⟩
  /-- Keep a path that is not heavier. -/
  | keep {main : List B} {alts alts' : Set (List B)} (q : List B) (hq : ¬ q <+: main)
      (hlighter : weight q ≤ weight main) (hsub : alts' ⊆ insert q alts) :
      Step weight ⟨main, alts⟩ ⟨main, alts'⟩
  /-- Switch to a path that is heavier, and keep what was disconnected. -/
  | switch {main : List B} {alts alts' : Set (List B)} (q : List B)
      (hheavier : weight main < weight q)
      (hsub : ∀ r ∈ alts', (r ∈ alts ∨ r <+: main) ∧ ¬ r <+: q) :
      Step weight ⟨main, alts⟩ ⟨q, alts'⟩

/-- No path beside the main chain is heavier than it, and none is part of it. -/
structure Heaviest (weight : List B → ℕ) (s : State B) : Prop where
  best : ∀ q ∈ s.alts, weight q ≤ weight s.main
  apart : ∀ q ∈ s.alts, ¬ q <+: s.main

/-- **Fork choice.** If blocks on the main chain only add weight, a step keeps the
invariant, and the weight of the main chain does not fall. -/
theorem Step.heaviest {weight : List B → ℕ} {s s' : State B} (h : Step weight s s')
    (hmono : ∀ r, r <+: s.main → weight r ≤ weight s.main) (hs : Heaviest weight s) :
    Heaviest weight s' ∧ weight s.main ≤ weight s'.main := by
  cases h with
  | forget hsub =>
    exact ⟨⟨fun q hq => hs.best q (hsub hq), fun q hq => hs.apart q (hsub hq)⟩, le_rfl⟩
  | extend b hnew hheavier hsub =>
    refine ⟨⟨fun q hq => (hs.best q (hsub hq)).trans hheavier.le, fun q hq hpre => ?_⟩,
      hheavier.le⟩
    rcases List.prefix_concat_iff.mp hpre with rfl | hpre
    · exact hnew (hsub hq)
    · exact hs.apart q (hsub hq) hpre
  | keep q hq hlighter hsub =>
    refine ⟨⟨fun r hr => ?_, fun r hr => ?_⟩, le_rfl⟩
    · rcases hsub hr with rfl | hr
      · exact hlighter
      · exact hs.best r hr
    · rcases hsub hr with rfl | hr
      · exact hq
      · exact hs.apart r hr
  | switch q hheavier hsub =>
    refine ⟨⟨fun r hr => ?_, fun r hr => (hsub r hr).2⟩, hheavier.le⟩
    rcases (hsub r hr).1 with hr | hr
    · exact (hs.best r hr).trans hheavier.le
    · exact (hmono r hr).trans hheavier.le

end ForkChoice
