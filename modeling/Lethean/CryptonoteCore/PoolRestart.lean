import Lethean.CryptonoteCore.PoolIndex

/-!
# Lethean.CryptonoteCore.PoolRestart

`tx_memory_pool::init` rebuilds the containers from the rows in the database, in
the order of their ids. At run time two transactions that spend the same key
image can be in the pool together, if the later one came with `kept_by_block`.
The rows do not say which one was later. When the one without the flag is met
second, `insert_key_images` refuses it and the node does not start.
-/

namespace Lethean

namespace TxPool

variable {env : Env} {P : Transaction → Prop} {pool loaded : TxPool} {unkept : Finset Hash}
  {id : Hash} {ptx : PoolTx} {order done : List Hash}

/-! ### The loop -/

/-- The containers after the rows `done`. -/
structure Loaded (pool : TxPool) (done : List Hash) (loaded : TxPool) : Prop where
  spent : Inverted.Files loaded.spentKeyImages
    fun k => (Inverted.owners rowImages pool.table k).filter (· ∈ done)
  sorted_iff : ∀ id, id ∈ loaded.sortedIds ↔ id ∈ done

theorem loaded_nil (pool : TxPool) :
    Loaded pool [] { pool with sorted := [], spentKeyImages := ∅ } where
  spent := by simpa using Inverted.Files.empty
  sorted_iff := by simp [sortedIds]

/-- `init` takes this row in after the rows `done`. -/
structure Takes (pool : TxPool) (done : List Hash) (ptx : PoolTx) : Prop where
  supported : ptx.tx.checkInputsTypesSupported = true
  nodup : (rowImages ptx).Nodup
  apart : ptx.keptByBlock = false → ∀ j ∈ done, ∀ row, pool.table.lookup j = some row →
    ∀ k ∈ rowImages ptx, k ∉ rowImages row

theorem Loaded.mem_idsOf (h : Loaded pool done loaded) {k : KeyImage} {j : Hash} :
    j ∈ loaded.idsOf k ↔
      (∃ row, pool.table.lookup j = some row ∧ k ∈ rowImages row) ∧ j ∈ done := by
  rw [idsOf, h.spent.ids_eq, Finset.mem_filter, Inverted.mem_owners]

theorem Loaded.insertable_iff (h : Loaded pool done loaded) (ptx : PoolTx) (hid : id ∉ done) :
    Insertable ptx.keptByBlock id ptx.tx.vin loaded ↔ Takes pool done ptx := by
  constructor
  · intro hins
    refine ⟨?_, hins.nodup, ?_⟩
    · simpa [Transaction.checkInputsTypesSupported] using hins.supported
    · intro hkept j hj row hrow k hk hmem
      have hids : j ∈ loaded.idsOf k := h.mem_idsOf.mpr ⟨⟨row, hrow, hmem⟩, hj⟩
      rw [hins.unspent hkept k hk] at hids
      exact absurd hids (Finset.notMem_empty j)
  · intro htakes
    refine ⟨?_, htakes.nodup, ?_, ?_⟩
    · simpa [Transaction.checkInputsTypesSupported] using htakes.supported
    · exact fun k _ hmem => hid (h.mem_idsOf.mp hmem).2
    · intro hkept k hk
      refine Finset.eq_empty_of_forall_notMem fun j hmem => ?_
      obtain ⟨⟨row, hrow, hkrow⟩, hj⟩ := h.mem_idsOf.mp hmem
      exact htakes.apart hkept j hj row hrow k hk hkrow

theorem Loaded.add (h : Loaded pool done loaded) (hrow : pool.table.lookup id = some ptx)
    (entry : SortedEntry) (hentry : entry.id = id) :
    Loaded pool (id :: done)
      { loaded with
        sorted := loaded.sorted.insert entry
        spentKeyImages := Inverted.addAll loaded.spentKeyImages (rowImages ptx) id } := by
  constructor
  · have howners : (fun k => (Inverted.owners rowImages pool.table k).filter (· ∈ id :: done)) =
        fun k => if k ∈ rowImages ptx then
          insert id ((Inverted.owners rowImages pool.table k).filter (· ∈ done))
        else (Inverted.owners rowImages pool.table k).filter (· ∈ done) := by
      funext k
      ext j
      by_cases hj : j = id
      · subst hj
        split_ifs with hk <;> simp [Inverted.mem_owners, hrow, hk]
      · split_ifs <;> simp [hj]
    rw [howners]
    exact h.spent.addAll _ _
  · intro i
    rw [List.mem_cons, ← h.sorted_iff i]
    simp only [sortedIds, List.mem_map, List.mem_insert_iff]
    constructor
    · rintro ⟨e, rfl | he, rfl⟩
      · exact .inl hentry
      · exact .inr ⟨e, he, rfl⟩
    · rintro (rfl | ⟨e, he, rfl⟩)
      · exact ⟨entry, .inl rfl, hentry⟩
      · exact ⟨e, .inr he, rfl⟩

def TakesAll (pool : TxPool) : List Hash → List Hash → Prop
  | _, [] => True
  | done, id :: rest =>
    (∀ ptx, pool.table.lookup id = some ptx → Takes pool done ptx) ∧
      TakesAll pool (id :: done) rest

/-- The loop runs to the end exactly when every row is taken in, and then all of
them are in the containers. -/
theorem Loaded.initLoop (hfiled : Filed env pool) (h : Loaded pool done loaded)
    (hnodup : order.Nodup) (hfresh : ∀ id ∈ order, id ∉ done)
    (hrows : ∀ id ∈ order, id ∈ pool.table) :
    ((TxPool.initLoop env pool order loaded).1 = true ↔ TakesAll pool done order) ∧
      ((TxPool.initLoop env pool order loaded).1 = true →
        Loaded pool (order.reverse ++ done) (TxPool.initLoop env pool order loaded).2) := by
  induction order generalizing done loaded with
  | nil => exact ⟨iff_of_true rfl trivial, fun _ => h⟩
  | cons id rest ih =>
    obtain ⟨hhead, htail⟩ := List.nodup_cons.mp hnodup
    obtain ⟨ptx, hrow⟩ := Finmap.mem_iff.mp (hrows id List.mem_cons_self)
    have hid : id ∉ done := hfresh id List.mem_cons_self
    have hiff := h.insertable_iff ptx hid
    by_cases htakes : Takes pool done ptx
    · -- the row goes in, and the rest of the loop starts from there
      have hins := insertKeyImages_of_insertable (hiff.mpr htakes)
      have hstep : TxPool.initLoop env pool (id :: rest) loaded =
          TxPool.initLoop env pool rest
            { loaded with
              sorted := loaded.sorted.insert ⟨ptx.fee, ptx.blobSize, ptx.receiveTime, id⟩
              spentKeyImages := Inverted.addAll loaded.spentKeyImages (rowImages ptx) id } := by
        rw [TxPool.initLoop, hrow]
        dsimp only
        rw [hfiled id ptx hrow, hins]
        rfl
      have hfresh' : ∀ i ∈ rest, i ∉ id :: done := by
        intro i hi hmem
        rcases List.mem_cons.mp hmem with rfl | hmem
        · exact hhead hi
        · exact hfresh i (List.mem_cons_of_mem _ hi) hmem
      obtain ⟨hret, hend⟩ := ih (h.add hrow ⟨ptx.fee, ptx.blobSize, ptx.receiveTime, id⟩ rfl)
        htail hfresh' fun i hi => hrows i (List.mem_cons_of_mem _ hi)
      rw [hstep, List.reverse_cons, List.append_assoc]
      refine ⟨hret.trans ⟨fun hall => ⟨?_, hall⟩, fun hall => hall.2⟩, hend⟩
      intro row hrow'
      rw [hrow] at hrow'
      cases hrow'
      exact htakes
    · -- `insert_key_images` fails, and the loop with it
      have hstep : (TxPool.initLoop env pool (id :: rest) loaded).1 = false := by
        rw [TxPool.initLoop, hrow]
        dsimp only
        rw [hfiled id ptx hrow]
        cases hres : insertKeyImages ptx.keptByBlock id ptx.tx.vin loaded with
        | mk ret loaded' =>
          cases ret with
          | false => rfl
          | true =>
            refine absurd (hiff.mp (insertable_of_insertKeyImages ?_)) htakes
            rw [hres]
      rw [hstep]
      refine ⟨iff_of_false Bool.false_ne_true fun hall => htakes (hall.1 ptx hrow), ?_⟩
      rintro ⟨⟩

/-! ### The whole table -/

theorem Loaded.spent_all (h : Loaded pool done loaded) (hall : ∀ id ∈ pool.table, id ∈ done) :
    Inverted.Inverts loaded.spentKeyImages rowImages pool.table := by
  have howners : (fun k => (Inverted.owners rowImages pool.table k).filter (· ∈ done)) =
      Inverted.owners rowImages pool.table := by
    funext k
    refine Finset.filter_true_of_mem fun j hj => ?_
    obtain ⟨row, hrow, -⟩ := Inverted.mem_owners.mp hj
    exact hall j (Finmap.mem_of_lookup_eq_some hrow)
  have := h.spent
  rwa [howners] at this

/-- `init` returns true and rebuilds the containers. -/
structure Rebuilds (env : Env) (order : List Hash) (pool : TxPool) : Prop where
  returns : (pool.init env order).1 = true
  sorted_iff : ∀ id, id ∈ (pool.init env order).2.sortedIds ↔ id ∈ pool.sortedIds
  spent : (pool.init env order).2.spentKeyImages = pool.spentKeyImages

/-- The containers have the transactions of the table. -/
structure Agrees (pool : TxPool) : Prop extends Registered pool where
  sorted_iff : ∀ id, id ∈ pool.sortedIds ↔ id ∈ pool.table

/-- A row without `kept_by_block` shares no key image with another one. -/
def Separated (pool : TxPool) : Prop :=
  ∀ a b rowA rowB, a ≠ b → pool.table.lookup a = some rowA → pool.table.lookup b = some rowB →
    rowA.keptByBlock = false → ∀ k ∈ rowImages rowA, k ∉ rowImages rowB

/-- What `init` does with the rows in a given order. -/
theorem init_spec (hfiled : Filed env pool) (horder : Enumerates order pool) :
    ((pool.init env order).1 = true ↔ TakesAll pool [] order) ∧
      ((pool.init env order).1 = true →
        Inverted.Inverts (pool.init env order).2.spentKeyImages rowImages pool.table ∧
          ∀ id, id ∈ (pool.init env order).2.sortedIds ↔ id ∈ pool.table) := by
  obtain ⟨hret, hend⟩ := (loaded_nil pool).initLoop hfiled horder.nodup (by simp)
    fun id hid => (horder.mem_iff id).mp hid
  refine ⟨hret, fun htrue => ?_⟩
  have hloaded := hend htrue
  rw [List.append_nil] at hloaded
  refine ⟨hloaded.spent_all fun id hid => ?_, fun id => ?_⟩
  · exact List.mem_reverse.mpr ((horder.mem_iff id).mpr hid)
  · refine (hloaded.sorted_iff id).trans ?_
    rw [List.mem_reverse, horder.mem_iff]

theorem takesAll_of_separated (h : pool.Agrees) (hsep : pool.Separated) (hnodup : order.Nodup)
    (hfresh : ∀ id ∈ order, id ∉ done) : TakesAll pool done order := by
  induction order generalizing done with
  | nil => trivial
  | cons id rest ih =>
    obtain ⟨hhead, htail⟩ := List.nodup_cons.mp hnodup
    constructor
    · intro ptx hrow
      refine ⟨h.supported id ptx hrow, h.nodup id ptx hrow, fun hkept j hj row hj' => ?_⟩
      have hne : id ≠ j := fun heq => hfresh id List.mem_cons_self (heq ▸ hj)
      exact hsep id j ptx row hne hrow hj' hkept
    · apply ih htail
      intro i hi hmem
      rcases List.mem_cons.mp hmem with rfl | hmem
      · exact hhead hi
      · exact hfresh i (List.mem_cons_of_mem _ hi) hmem

theorem TakesAll.takes (h : TakesAll pool done order) (hid : id ∈ order)
    (hrow : pool.table.lookup id = some ptx) : Takes pool done ptx := by
  induction order generalizing done with
  | nil => cases hid
  | cons i rest ih =>
    rcases List.mem_cons.mp hid with rfl | hid
    · exact h.1 ptx hrow
    · -- what comes later is also apart from what came earlier
      obtain ⟨hsupported, hnodup, hapart⟩ := ih h.2 hid
      exact ⟨hsupported, hnodup, fun hkept j hj => hapart hkept j (List.mem_cons_of_mem _ hj)⟩

theorem enumerates_keys (pool : TxPool) : Enumerates pool.table.keys.toList pool :=
  ⟨Finset.nodup_toList _, fun id => by rw [Finset.mem_toList, Finmap.mem_keys]⟩

theorem enumerates_first (h : id ∈ pool.table) :
    Enumerates (id :: (pool.table.keys.erase id).toList) pool := by
  constructor
  · refine List.nodup_cons.mpr ⟨?_, Finset.nodup_toList _⟩
    rw [Finset.mem_toList]
    exact Finset.notMem_erase _ _
  · intro i
    rw [List.mem_cons, Finset.mem_toList, Finset.mem_erase, Finmap.mem_keys]
    refine ⟨?_, fun hi => ?_⟩
    · rintro (rfl | hi)
      · exact h
      · exact hi.2
    · by_cases heq : i = id
      · exact .inl heq
      · exact .inr ⟨heq, hi⟩

theorem agrees_of_rebuilds (hfiled : Filed env pool) (horder : Enumerates order pool)
    (h : Rebuilds env order pool) : pool.Agrees := by
  obtain ⟨hret, hend⟩ := init_spec hfiled horder
  obtain ⟨hspent, hsorted⟩ := hend h.returns
  have htakes : ∀ id ptx, pool.table.lookup id = some ptx → Takes pool [] ptx := by
    intro id ptx hrow
    have hid : id ∈ order := (horder.mem_iff id).mpr (Finmap.mem_of_lookup_eq_some hrow)
    exact (hret.mp h.returns).takes hid hrow
  refine ⟨⟨fun id ptx hrow => (htakes id ptx hrow).supported,
    fun id ptx hrow => (htakes id ptx hrow).nodup, ?_⟩, fun id => ?_⟩
  · rwa [← h.spent]
  · rw [← h.sorted_iff, hsorted]

theorem separated_of_rebuilds (hfiled : Filed env pool)
    (h : ∀ order, Enumerates order pool → Rebuilds env order pool) : pool.Separated := by
  intro a b rowA rowB hne hA hB hkept
  -- the restart that meets `b` first has to take `a` in after it
  have hb : b ∈ pool.table := Finmap.mem_of_lookup_eq_some hB
  have horder := enumerates_first hb
  have hall := (init_spec hfiled horder).1.mp (h _ horder).returns
  have ha : a ∈ b :: (pool.table.keys.erase b).toList :=
    (horder.mem_iff a).mpr (Finmap.mem_of_lookup_eq_some hA)
  have hrest := (List.mem_cons.mp ha).resolve_left hne
  exact (hall.2.takes hrest hA).apart hkept b List.mem_cons_self rowB hB

/-- **A restart rebuilds the pool** in whatever order the rows are met, exactly
when the containers agree with the table and no row without `kept_by_block`
shares a key image with another one. The containers agree in every state that
transactions with inputs and without repeated key images lead to. -/
theorem restart_rebuilds_iff {env : Env} {P : Transaction → Prop} {pool : TxPool}
    {unkept : Finset Hash} (h : Reachable env P pool unkept) :
    ((∀ order, Enumerates order pool → Rebuilds env order pool) ↔
      pool.Agrees ∧ pool.Separated) ∧
      ((∀ tx, P tx → Spendable tx) → pool.Agrees) := by
  refine ⟨⟨fun hall => ?_, ?_⟩, fun hP => ?_⟩
  · exact ⟨agrees_of_rebuilds h.filed (enumerates_keys pool) (hall _ (enumerates_keys pool)),
      separated_of_rebuilds h.filed hall⟩
  · rintro ⟨hagrees, hsep⟩ order horder
    obtain ⟨hret, hend⟩ := init_spec h.filed horder
    have htrue := hret.mpr (takesAll_of_separated hagrees hsep horder.nodup (by simp))
    obtain ⟨hspent, hsorted⟩ := hend htrue
    refine ⟨htrue, fun id => ?_, hspent.unique hagrees.spent⟩
    rw [hsorted, hagrees.sorted_iff]
  · obtain ⟨hindexed, -⟩ := (h.mono hP).indexed
    exact ⟨hindexed.toRegistered, hindexed.sorted_iff⟩

theorem enumerates_sharedPool (keptByBlock : Bool) :
    Enumerates [numberedHash 2, numberedHash 1] (sharedPool keptByBlock) := by
  refine ⟨by decide +kernel, fun id => ?_⟩
  rw [← Finmap.mem_keys, ← List.mem_toFinset]
  revert id
  rw [← Finset.ext_iff]
  cases keptByBlock <;> decide +kernel

/-- Two transactions from blocks survive, though they spend the same key image. -/
theorem restart_rebuilds_shared :
    Rebuilds sampleEnv [numberedHash 2, numberedHash 1] (sharedPool true) := by
  obtain ⟨hiff, hagrees⟩ := restart_rebuilds_iff (reachable_sharedPool true)
  refine hiff.mpr ⟨hagrees fun _ htx => htx, ?_⟩ _ (enumerates_sharedPool true)
  have hkept : ∀ row ∈ (sharedPool true).table.entries, row.2.keptByBlock = true := by
    decide +kernel
  intro a b rowA rowB hne hA hB hnot
  have hrow := hkept ⟨a, rowA⟩ (Finmap.lookup_eq_some_iff.mp hA)
  rw [hnot] at hrow
  cases hrow

/-- Of two transactions that spend the same key image the second is from a block. When it is met
first, `init` fails. -/
theorem conflicting_pool_not_reloaded : ∃ pool unkept order,
    Reachable sampleEnv Spendable pool unkept ∧ Enumerates order pool ∧
      (pool.init sampleEnv order).1 = false :=
  ⟨_, _, _, reachable_sharedPool false, enumerates_sharedPool false, by decide +kernel⟩

end TxPool

end Lethean
