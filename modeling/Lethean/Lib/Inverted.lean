import Mathlib

/-!
# Inverted indexes

A table has rows by id, and every row uses some keys. An inverted index leads
back from a key to the ids of the rows that use it. It is kept beside the table
and changed key by key: `add` files an id under a key, `remove` takes it out and
drops the entry when it was the last one.

`Inverts` says that the index is the one of the table, without empty entries.
It is kept when a row comes or goes together with all its keys, and when a row
is replaced by one that uses the same keys.
-/

namespace Inverted

variable {κ ι ρ : Type*} [DecidableEq κ] [DecidableEq ι]

/-! ### Filing -/

def ids (m : Finmap fun _ : κ => Finset ι) (k : κ) : Finset ι := (m.lookup k).getD ∅

def add (m : Finmap fun _ : κ => Finset ι) (k : κ) (i : ι) : Finmap fun _ : κ => Finset ι :=
  m.insert k (insert i (ids m k))

def remove (m : Finmap fun _ : κ => Finset ι) (k : κ) (i : ι) : Finmap fun _ : κ => Finset ι :=
  if (ids m k).erase i = ∅ then m.erase k else m.insert k ((ids m k).erase i)

variable {m : Finmap fun _ : κ => Finset ι} {k k' : κ} {i : ι}

@[simp] theorem ids_add : ids (add m k i) k = insert i (ids m k) := by
  simp [ids, add]

theorem ids_add_of_ne (h : k' ≠ k) : ids (add m k i) k' = ids m k' := by
  simp [ids, add, Finmap.lookup_insert_of_ne _ h]

theorem forall_lookup_insert {P : ι → ρ → Prop} {t : Finmap fun _ : ι => ρ} {row : ρ}
    (h : ∀ j old, t.lookup j = some old → P j old) (hnew : P i row) :
    ∀ j old, (t.insert i row).lookup j = some old → P j old := by
  intro j old hj
  by_cases heq : j = i
  · subst heq
    rw [Finmap.lookup_insert] at hj
    cases hj
    exact hnew
  · rw [Finmap.lookup_insert_of_ne _ heq] at hj
    exact h j old hj

theorem ids_remove_of_ne (h : k' ≠ k) : ids (remove m k i) k' = ids m k' := by
  unfold ids remove
  split_ifs
  · rw [Finmap.lookup_erase_ne h]
  · rw [Finmap.lookup_insert_of_ne _ h]

/-- The index files what `owners` says, and has no other entries. -/
def Files (m : Finmap fun _ : κ => Finset ι) (owners : κ → Finset ι) : Prop :=
  ∀ k, m.lookup k = if owners k = ∅ then none else some (owners k)

namespace Files

variable {owners : κ → Finset ι}

theorem ids_eq (h : Files m owners) (k : κ) : ids m k = owners k := by
  rw [ids, h k]
  split_ifs with hk
  · exact hk.symm
  · rfl

theorem empty : Files (∅ : Finmap fun _ : κ => Finset ι) fun _ => ∅ := by
  intro k
  simp

theorem add (h : Files m owners) (k : κ) (i : ι) :
    Files (Inverted.add m k i) (Function.update owners k (insert i (owners k))) := by
  intro k'
  by_cases hk : k' = k
  · subst hk
    simp [Inverted.add, h.ids_eq]
  · rw [Inverted.add, Finmap.lookup_insert_of_ne _ hk, h k', Function.update_of_ne hk]

theorem remove (h : Files m owners) (k : κ) (i : ι) :
    Files (Inverted.remove m k i) (Function.update owners k ((owners k).erase i)) := by
  intro k'
  rw [Inverted.remove, h.ids_eq]
  by_cases hk : k' = k
  · subst hk
    rw [Function.update_self]
    split_ifs <;> simp
  · rw [Function.update_of_ne hk, ← h k']
    split_ifs
    · exact Finmap.lookup_erase_ne hk
    · exact Finmap.lookup_insert_of_ne _ hk

theorem unique {m' : Finmap fun _ : κ => Finset ι} (h : Files m owners) (h' : Files m' owners) :
    m = m' :=
  Finmap.ext_lookup fun k => (h k).trans (h' k).symm

end Files

/-! ### The keys of one row -/

def addAll (m : Finmap fun _ : κ => Finset ι) (ks : List κ) (i : ι) :
    Finmap fun _ : κ => Finset ι :=
  ks.foldl (fun m k => add m k i) m

def removeAll (m : Finmap fun _ : κ => Finset ι) (ks : List κ) (i : ι) :
    Finmap fun _ : κ => Finset ι :=
  ks.foldl (fun m k => remove m k i) m

/-- Each key sees what the keys in front of it did, which changes nothing the second time. -/
theorem Files.foldl {owners : κ → Finset ι} {f : Finset ι → Finset ι} (hf : ∀ s, f (f s) = f s)
    {op : Finmap (fun _ : κ => Finset ι) → κ → Finmap fun _ : κ => Finset ι}
    (hop : ∀ {m owners}, Files m owners → ∀ k,
      Files (op m k) (Function.update owners k (f (owners k)))) (h : Files m owners) (ks : List κ) :
    Files (ks.foldl op m) fun k => if k ∈ ks then f (owners k) else owners k := by
  induction ks generalizing m owners with
  | nil => simpa using h
  | cons k ks ih =>
    have hrest := ih (hop h k)
    have howners : (fun k' => if k' ∈ ks then f (Function.update owners k (f (owners k)) k')
        else Function.update owners k (f (owners k)) k') =
        fun k' => if k' ∈ k :: ks then f (owners k') else owners k' := by
      funext k'
      by_cases hk : k' = k
      · subst hk
        simp [hf]
      · simp [hk]
    rwa [howners] at hrest

theorem Files.addAll {owners : κ → Finset ι} (h : Files m owners) (ks : List κ) (i : ι) :
    Files (Inverted.addAll m ks i) fun k => if k ∈ ks then insert i (owners k) else owners k :=
  Files.foldl (f := (insert i ·)) (by simp) (fun h k => h.add k i) h ks

theorem Files.removeAll {owners : κ → Finset ι} (h : Files m owners) (ks : List κ) (i : ι) :
    Files (Inverted.removeAll m ks i) fun k => if k ∈ ks then (owners k).erase i else owners k :=
  Files.foldl (f := (·.erase i)) (by simp) (fun h k => h.remove k i) h ks

/-! ### The index of a table -/

def owners (keysOf : ρ → List κ) (t : Finmap fun _ : ι => ρ) (k : κ) : Finset ι :=
  t.keys.filter fun i => (t.lookup i).any fun row => k ∈ keysOf row

variable {keysOf : ρ → List κ} {t : Finmap fun _ : ι => ρ} {row row' : ρ}

theorem mem_owners : i ∈ owners keysOf t k ↔ ∃ row, t.lookup i = some row ∧ k ∈ keysOf row := by
  rw [owners, Finset.mem_filter, Finmap.mem_keys, Finmap.mem_iff]
  cases t.lookup i <;> simp

def Inverts (m : Finmap fun _ : κ => Finset ι) (keysOf : ρ → List κ) (t : Finmap fun _ : ι => ρ) :
    Prop :=
  Files m (owners keysOf t)

namespace Inverts

theorem empty : Inverts (∅ : Finmap fun _ : κ => Finset ι) keysOf ∅ := by
  intro k
  have hnone : owners keysOf (∅ : Finmap fun _ : ι => ρ) k = ∅ := by
    ext i
    simp [mem_owners]
  simp [hnone]

section

variable (h : Inverts m keysOf t)
include h

theorem mem_ids_iff : i ∈ ids m k ↔ ∃ row, t.lookup i = some row ∧ k ∈ keysOf row := by
  rw [h.ids_eq, mem_owners]

theorem insert (hnew : t.lookup i = none) (row : ρ) :
    Inverts (addAll m (keysOf row) i) keysOf (t.insert i row) := by
  have howners : owners keysOf (t.insert i row) = fun k =>
      if k ∈ keysOf row then Insert.insert i (owners keysOf t k) else owners keysOf t k := by
    funext k
    ext j
    by_cases hj : j = i
    · subst hj
      split_ifs with hk <;> simp [mem_owners, hk, hnew]
    · split_ifs <;> simp [mem_owners, Finmap.lookup_insert_of_ne _ hj, hj]
  rw [Inverts, howners]
  exact Files.addAll h _ _

theorem replace (hrow : t.lookup i = some row) (hkeys : keysOf row' = keysOf row) :
    Inverts m keysOf (t.insert i row') := by
  have howners : owners keysOf (t.insert i row') = owners keysOf t := by
    funext k
    ext j
    by_cases hj : j = i
    · subst hj
      simp [mem_owners, hrow, hkeys]
    · simp [mem_owners, Finmap.lookup_insert_of_ne _ hj]
  rwa [Inverts, howners]

theorem erase (hrow : t.lookup i = some row) :
    Inverts (removeAll m (keysOf row) i) keysOf (t.erase i) := by
  have howners : owners keysOf (t.erase i) = fun k =>
      if k ∈ keysOf row then (owners keysOf t k).erase i else owners keysOf t k := by
    funext k
    ext j
    by_cases hj : j = i
    · subst hj
      split_ifs with hk <;> simp [mem_owners, hk, hrow]
    · split_ifs <;> simp [mem_owners, Finmap.lookup_erase_ne hj, hj]
  rw [Inverts, howners]
  exact Files.removeAll h _ _

end

end Inverts

end Inverted
