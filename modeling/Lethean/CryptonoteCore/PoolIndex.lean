import Lethean.CryptonoteCore.TxPool

/-!
# Lethean.CryptonoteCore.PoolIndex

The three containers of the pool hold the same transactions, in every state that
calls of `add_tx`, `take_tx`, `remove_stuck_transactions` and `validate` lead to.

The map of key images is an inverted index of the table, and each operation is
one of the library's rules: a new row, a row replaced, a row erased. What has to
be shown is that no early return leaves an operation half done. An `add_tx` of a
transaction that is in the pool overwrites its row and then fails on its first
key image. A transaction without inputs has none, and goes into the sorted
container a second time: `check_tx_semantic`, which the callers run first, keeps
such transactions out.
-/

namespace Lethean

open Inverted (forall_lookup_insert)

namespace TxPool

variable {env : Env} {pool pool' : TxPool} {keptByBlock : Bool} {id : Hash} {vin : List TxIn}
  {ptx : PoolTx}

/-! ### Key images -/

theorem insertKeyImages_frame (keptByBlock : Bool) (id : Hash) (vin : List TxIn) (pool : TxPool) :
    ∃ m, (insertKeyImages keptByBlock id vin pool).2 = { pool with spentKeyImages := m } := by
  induction vin generalizing pool with
  | nil => exact ⟨_, rfl⟩
  | cons i rest ih =>
    unfold insertKeyImages
    split
    · exact ⟨_, rfl⟩
    split
    · exact ⟨_, rfl⟩
    split
    · exact ⟨_, rfl⟩
    · exact ih _

theorem insertKeyImages_table (keptByBlock : Bool) (id : Hash) (vin : List TxIn)
    (pool : TxPool) : (insertKeyImages keptByBlock id vin pool).2.table = pool.table := by
  obtain ⟨m, hm⟩ := insertKeyImages_frame keptByBlock id vin pool
  rw [hm]

theorem removeImages_frame (id : Hash) (vin : List TxIn) (pool : TxPool) :
    ∃ m, (removeTransactionKeyimages id vin pool).2 = { pool with spentKeyImages := m } := by
  induction vin generalizing pool with
  | nil => exact ⟨_, rfl⟩
  | cons i rest ih =>
    unfold removeTransactionKeyimages
    split
    · exact ⟨_, rfl⟩
    split
    · exact ih _
    · exact ⟨_, rfl⟩

/-- The inputs that `insert_key_images` registers to the end. -/
structure Insertable (keptByBlock : Bool) (id : Hash) (vin : List TxIn) (pool : TxPool) :
    Prop where
  supported : ∀ i ∈ vin, i.keyImage?.isSome
  nodup : (vin.filterMap TxIn.keyImage?).Nodup
  unregistered : ∀ k ∈ vin.filterMap TxIn.keyImage?, id ∉ pool.idsOf k
  unspent : keptByBlock = false → ∀ k ∈ vin.filterMap TxIn.keyImage?, pool.idsOf k = ∅

theorem insertKeyImages_of_insertable (h : Insertable keptByBlock id vin pool) :
    insertKeyImages keptByBlock id vin pool =
      (true, { pool with
        spentKeyImages :=
          Inverted.addAll pool.spentKeyImages (vin.filterMap TxIn.keyImage?) id }) := by
  induction vin generalizing pool with
  | nil => rfl
  | cons i rest ih =>
    obtain ⟨k, hk⟩ := Option.isSome_iff_exists.mp (h.supported i List.mem_cons_self)
    have himages : (i :: rest).filterMap TxIn.keyImage? = k :: rest.filterMap TxIn.keyImage? :=
      List.filterMap_cons_some hk
    obtain ⟨hsupported, hnodup, hunreg, hunspent⟩ := h
    rw [himages] at hnodup hunreg hunspent
    obtain ⟨hhead, htail⟩ := List.nodup_cons.mp hnodup
    have hne : ∀ k' ∈ rest.filterMap TxIn.keyImage?, k' ≠ k :=
      fun k' hk' heq => hhead (heq ▸ hk')
    -- the images that follow do not see what was registered under `k`
    have hrest : Insertable keptByBlock id rest
        { pool with spentKeyImages := Inverted.add pool.spentKeyImages k id } := by
      refine ⟨fun j hj => hsupported j (List.mem_cons_of_mem _ hj), htail, ?_, ?_⟩
      · intro k' hk'
        rw [idsOf, Inverted.ids_add_of_ne (hne k' hk')]
        exact hunreg k' (List.mem_cons_of_mem _ hk')
      · intro hkept k' hk'
        rw [idsOf, Inverted.ids_add_of_ne (hne k' hk')]
        exact hunspent hkept k' (List.mem_cons_of_mem _ hk')
    have hfree : ¬(keptByBlock = false ∧ pool.idsOf k ≠ ∅) :=
      fun hc => hc.2 (hunspent hc.1 k List.mem_cons_self)
    rw [insertKeyImages, hk]
    dsimp only
    rw [if_neg hfree, if_neg (hunreg k List.mem_cons_self), ih hrest, himages]
    rfl

theorem insertable_of_insertKeyImages (h : (insertKeyImages keptByBlock id vin pool).1 = true) :
    Insertable keptByBlock id vin pool := by
  induction vin generalizing pool with
  | nil => exact ⟨by simp, by simp, by simp, by simp⟩
  | cons i rest ih =>
    rw [insertKeyImages] at h
    split at h
    · cases h
    rename_i k hk
    by_cases hspent : keptByBlock = false ∧ pool.idsOf k ≠ ∅
    · rw [if_pos hspent] at h
      cases h
    by_cases hreg : id ∈ pool.idsOf k
    · rw [if_neg hspent, if_pos hreg] at h
      cases h
    rw [if_neg hspent, if_neg hreg] at h
    obtain ⟨hsupported, hnodup, hunreg, hunspent⟩ := ih h
    have himages : (i :: rest).filterMap TxIn.keyImage? =
        k :: rest.filterMap TxIn.keyImage? := List.filterMap_cons_some hk
    -- a second occurrence of `k` would have met the id
    have hhead : k ∉ rest.filterMap TxIn.keyImage? := by
      intro hmem
      apply hunreg k hmem
      simp [idsOf]
    have hne : ∀ k' ∈ rest.filterMap TxIn.keyImage?, k' ≠ k :=
      fun k' hk' heq => hhead (heq ▸ hk')
    refine ⟨?_, by rw [himages]; exact List.nodup_cons.mpr ⟨hhead, hnodup⟩, ?_, ?_⟩
    · rw [List.forall_mem_cons]
      exact ⟨by simp [hk], hsupported⟩
    · rw [himages, List.forall_mem_cons]
      refine ⟨hreg, fun k' hk' => ?_⟩
      have := hunreg k' hk'
      rwa [idsOf, Inverted.ids_add_of_ne (hne k' hk')] at this
    · intro hkept
      rw [himages, List.forall_mem_cons]
      refine ⟨not_not.mp fun hc => hspent ⟨hkept, hc⟩, fun k' hk' => ?_⟩
      have := hunspent hkept k' hk'
      rwa [idsOf, Inverted.ids_add_of_ne (hne k' hk')] at this

theorem removeImages_of_registered (hsupported : ∀ i ∈ vin, i.keyImage?.isSome)
    (hnodup : (vin.filterMap TxIn.keyImage?).Nodup)
    (hreg : ∀ k ∈ vin.filterMap TxIn.keyImage?, id ∈ pool.idsOf k) :
    (removeTransactionKeyimages id vin pool).2 =
      { pool with
        spentKeyImages :=
          Inverted.removeAll pool.spentKeyImages (vin.filterMap TxIn.keyImage?) id } := by
  induction vin generalizing pool with
  | nil => rfl
  | cons i rest ih =>
    obtain ⟨k, hk⟩ := Option.isSome_iff_exists.mp (hsupported i List.mem_cons_self)
    have himages : (i :: rest).filterMap TxIn.keyImage? = k :: rest.filterMap TxIn.keyImage? :=
      List.filterMap_cons_some hk
    rw [himages] at hnodup hreg
    obtain ⟨hhead, htail⟩ := List.nodup_cons.mp hnodup
    have hrest : ∀ k' ∈ rest.filterMap TxIn.keyImage?,
        id ∈ ({ pool with
          spentKeyImages := Inverted.remove pool.spentKeyImages k id } : TxPool).idsOf k' := by
      intro k' hk'
      have hne : k' ≠ k := fun heq => hhead (heq ▸ hk')
      rw [idsOf, Inverted.ids_remove_of_ne hne]
      exact hreg k' (List.mem_cons_of_mem _ hk')
    rw [removeTransactionKeyimages, hk]
    dsimp only
    have hsupported' : ∀ j ∈ rest, j.keyImage?.isSome :=
      fun j hj => hsupported j (List.mem_cons_of_mem _ hj)
    rw [if_pos (hreg k List.mem_cons_self), ih hsupported' htail hrest, himages]
    rfl

/-! ### One operation -/

/-- What `add_tx` has checked when it comes to the containers. -/
structure Admitted (env : Env) (version : Nat) (args : AddTxArgs) (pool : TxPool)
    (tx : Transaction) (fee : Nat) : Prop where
  version_ne : tx.version ≠ 0
  supported : tx.checkInputsTypesSupported = true
  fee : feeOf tx = some fee
  unspent : args.keptByBlock = false → pool.haveTxKeyimgesAsSpent tx = false
  outputs : env.checkTxOutputs version tx = true

theorem insert_erase_table (t : Finmap fun _ : Hash => PoolTx) (id : Hash) (ptx : PoolTx) :
    (t.erase id).insert id ptx = t.insert id ptx := by
  apply Finmap.ext_lookup
  intro i
  by_cases h : i = id
  · rw [h, Finmap.lookup_insert, Finmap.lookup_insert]
  · rw [Finmap.lookup_insert_of_ne _ h, Finmap.lookup_insert_of_ne _ h, Finmap.lookup_erase_ne h]

/-- `add_tx` either changes nothing or goes on to the containers. -/
theorem addTxWith_cases (env : Env) (db : BlockchainDb) (version now : Nat) (args : AddTxArgs)
    (pool : TxPool) (tx : Transaction) :
    pool.addTxWith env db version now args tx = (false, pool) ∨
    ∃ fee, Admitted env version args pool tx fee ∧
      pool.addTxWith env db version now args tx =
        pool.insertTx (env.transactionHash tx)
          ⟨tx, args.blobSize, fee, args.keptByBlock, args.relayed, args.doNotRelay, now⟩ := by
  generalize hr : pool.addTxWith env db version now args tx = r
  unfold addTxWith at hr
  dsimp only at hr
  split at hr
  · exact .inl hr.symm
  rename_i hversion
  split at hr
  · exact .inl hr.symm
  split at hr
  · exact .inl hr.symm
  rename_i hsupported
  split at hr
  · exact .inl hr.symm
  rename_i fee hfee
  split at hr
  · exact .inl hr.symm
  split at hr
  · exact .inl hr.symm
  split at hr
  · exact .inl hr.symm
  rename_i hspent
  split at hr
  · exact .inl hr.symm
  rename_i houtputs
  have hadmitted : Admitted env version args pool tx fee :=
    ⟨hversion, Bool.eq_true_of_not_eq_false hsupported, hfee,
      fun hkept => Bool.eq_false_of_not_eq_true fun hc => hspent ⟨hkept, hc⟩,
      Bool.eq_true_of_not_eq_false houtputs⟩
  split at hr
  · refine .inr ⟨fee, hadmitted, hr.symm.trans ?_⟩
    rw [insertTx, insertTx, insert_erase_table]
  split at hr
  · exact .inr ⟨fee, hadmitted, hr.symm⟩
  · exact .inl hr.symm

theorem insertTx_table (pool : TxPool) (id : Hash) (ptx : PoolTx) :
    (insertTx pool id ptx).2.table = pool.table.insert id ptx := by
  have h := insertKeyImages_table ptx.keptByBlock id ptx.tx.vin
    { pool with table := pool.table.insert id ptx }
  unfold insertTx
  split
  · rename_i heq
    rwa [heq] at h
  · rename_i heq
    rwa [heq] at h

theorem removeRow_frame (pool : TxPool) (id : Hash) (ptx : PoolTx) :
    ∃ m, pool.removeRow id ptx =
      { pool with table := pool.table.erase id, spentKeyImages := m } := by
  obtain ⟨m, hm⟩ := removeImages_frame id ptx.tx.vin
    { pool with table := pool.table.erase id }
  exact ⟨m, hm⟩

theorem takeTx_eq (h : pool.takeTx id = some (ptx, pool')) :
    pool.table.lookup id = some ptx ∧ pool' = (pool.removeRow id ptx).eraseSorted id := by
  unfold takeTx at h
  split at h
  · split at h
    · cases h
    · rename_i hrow
      cases h
      exact ⟨hrow, rfl⟩
  · cases h

/-- `take_tx` hands out a row and removes it. -/
theorem takeTx_table (h : pool.takeTx id = some (ptx, pool')) :
    pool.table.lookup id = some ptx ∧ pool'.table = pool.table.erase id := by
  obtain ⟨hrow, rfl⟩ := takeTx_eq h
  obtain ⟨m, hm⟩ := removeRow_frame pool id ptx
  exact ⟨hrow, by rw [hm]; rfl⟩

theorem removeId_frame (pool : TxPool) (id : Hash) :
    ∃ m, pool.removeId id = { pool with table := pool.table.erase id, spentKeyImages := m } := by
  unfold removeId
  split
  · rename_i hnone
    refine ⟨pool.spentKeyImages, ?_⟩
    have herase : pool.table.erase id = pool.table := by
      apply Finmap.ext_lookup
      intro i
      by_cases h : i = id
      · rw [h, Finmap.lookup_erase, hnone]
      · rw [Finmap.lookup_erase_ne h]
    rw [herase]
  · exact removeRow_frame ..

/-! ### The sorted container -/

/-- The ids in `m_txs_by_fee_and_receive_time`. -/
def sortedIds (pool : TxPool) : List Hash := pool.sorted.map (·.id)

theorem sortedIds_eraseSorted (pool : TxPool) (id : Hash) :
    (pool.eraseSorted id).sortedIds = pool.sortedIds.erase id := by
  have hp : (fun e : SortedEntry => decide (e.id = id)) = (fun i => id == i) ∘ (·.id) := by
    funext e
    rw [Bool.eq_iff_iff, decide_eq_true_iff]
    exact eq_comm.trans beq_iff_eq.symm
  rw [sortedIds, sortedIds, List.erase_eq_eraseP, List.eraseP_map, ← hp]
  rfl

/-! ### The index of key images -/

def rowImages (ptx : PoolTx) : List KeyImage := ptx.tx.keyImages

/-- The inputs of the rows are outputs of keys, with distinct images, and
`m_spent_key_images` is the index of the table. -/
structure Registered (pool : TxPool) : Prop where
  supported : ∀ id ptx, pool.table.lookup id = some ptx → ptx.tx.checkInputsTypesSupported = true
  nodup : ∀ id ptx, pool.table.lookup id = some ptx → (rowImages ptx).Nodup
  spent : Inverted.Inverts pool.spentKeyImages rowImages pool.table

theorem Registered.removeRow_eq (h : pool.Registered) (hrow : pool.table.lookup id = some ptx) :
    pool.removeRow id ptx =
      { pool with
        table := pool.table.erase id
        spentKeyImages := Inverted.removeAll pool.spentKeyImages (rowImages ptx) id } := by
  apply removeImages_of_registered
  · simpa [Transaction.checkInputsTypesSupported] using h.supported id ptx hrow
  · exact h.nodup id ptx hrow
  · intro k hk
    exact h.spent.mem_ids_iff.mpr ⟨ptx, hrow, hk⟩

variable {t : Finmap fun _ : Hash => PoolTx} {walk : List Hash → List Hash} {tx : Transaction}
  {unkept : Finset Hash} {P : Transaction → Prop}

theorem lookup_of_lookup_erase {i : Hash} (h : (t.erase id).lookup i = some ptx) :
    i ≠ id ∧ t.lookup i = some ptx := by
  by_cases heq : i = id
  · rw [heq, Finmap.lookup_erase] at h
    cases h
  · exact ⟨heq, by rwa [Finmap.lookup_erase_ne heq] at h⟩

theorem Registered.removeId (h : pool.Registered) (id : Hash) : (pool.removeId id).Registered := by
  unfold TxPool.removeId
  split
  · exact h
  rename_i ptx hrow
  rw [h.removeRow_eq hrow]
  exact ⟨fun i row hi => h.supported i row (lookup_of_lookup_erase hi).2,
    fun i row hi => h.nodup i row (lookup_of_lookup_erase hi).2, h.spent.erase hrow⟩

/-! ### All containers -/

/-- The rows stand under the ids of their transactions. -/
def Filed (env : Env) (pool : TxPool) : Prop :=
  ∀ id ptx, pool.table.lookup id = some ptx → env.transactionHash ptx.tx = id

structure Indexed (env : Env) (pool : TxPool) : Prop extends Registered pool where
  filed : Filed env pool
  inputs : ∀ id ptx, pool.table.lookup id = some ptx → ptx.tx.vin ≠ []
  sorted_iff : ∀ id, id ∈ pool.sortedIds ↔ id ∈ pool.table
  sorted_nodup : pool.sortedIds.Nodup

theorem indexed_empty : Indexed env empty where
  supported := by simp [empty]
  nodup := by simp [empty]
  spent := .empty
  filed := by simp [Filed, empty]
  inputs := by simp [empty]
  sorted_iff id := by simp [empty, sortedIds, Finmap.notMem_empty]
  sorted_nodup := by simp [empty, sortedIds]

theorem Indexed.remove (h : Indexed env pool) (id : Hash) :
    Indexed env ((pool.removeId id).eraseSorted id) := by
  have hreg := h.toRegistered.removeId id
  obtain ⟨m, hm⟩ := removeId_frame pool id
  rw [hm] at hreg ⊢
  refine ⟨⟨hreg.supported, hreg.nodup, hreg.spent⟩, ?_, ?_, ?_, ?_⟩
  · intro i row hi
    exact h.filed i row (lookup_of_lookup_erase hi).2
  · intro i row hi
    exact h.inputs i row (lookup_of_lookup_erase hi).2
  · intro i
    rw [sortedIds_eraseSorted]
    refine h.sorted_nodup.mem_erase_iff.trans ?_
    exact (and_congr_right' (h.sorted_iff i)).trans Finmap.mem_erase.symm
  · rw [sortedIds_eraseSorted]
    exact h.sorted_nodup.erase id

theorem Indexed.takeTx (h : Indexed env pool) (htake : pool.takeTx id = some (ptx, pool')) :
    Indexed env pool' := by
  obtain ⟨hrow, rfl⟩ := takeTx_eq htake
  have := h.remove id
  rwa [removeId, hrow] at this

/-- The loop of `validate` keeps an invariant of the single removals. -/
theorem validate_induction {P : TxPool → Prop} (hstep : ∀ pool id, P pool →
    P ((pool.removeId id).eraseSorted id)) (h : P pool) (db : BlockchainDb) (version : Nat)
    (order : List Hash) (walk : List Hash → List Hash) :
    P (pool.validate env db version order walk).2 := by
  unfold validate
  generalize walk (pool.select order (invalid env db version)) = l
  suffices ∀ s : Nat × TxPool, P s.2 → P (l.foldl (fun s id =>
      if id ∈ s.2.table then (s.1 + 1, (s.2.removeId id).eraseSorted id) else s) s).2 from this _ h
  induction l with
  | nil => exact fun _ hs => hs
  | cons id l ih =>
    intro s hs
    apply ih
    dsimp only
    split
    · exact hstep _ _ hs
    · exact hs

/-! ### Stuck transactions -/

/-- The first loop erases ids from the sorted container and touches nothing
else. -/
theorem forget_foldl (l : List Hash) (hnodup : pool.sortedIds.Nodup) :
    let forgotten := l.foldl
      (fun pool id => { pool.eraseSorted id with timedOut := insert id pool.timedOut }) pool
    forgotten.table = pool.table ∧ forgotten.spentKeyImages = pool.spentKeyImages ∧
      forgotten.sortedIds.Nodup ∧
      ∀ id, id ∈ forgotten.sortedIds ↔ id ∈ pool.sortedIds ∧ id ∉ l := by
  induction l generalizing pool with
  | nil => simpa using hnodup
  | cons i l ih =>
    have hone : (pool.eraseSorted i).sortedIds.Nodup := by
      rw [sortedIds_eraseSorted]
      exact hnodup.erase i
    obtain ⟨htable, hspent, hnodup', hmem⟩ :=
      @ih { pool.eraseSorted i with timedOut := insert i pool.timedOut } hone
    refine ⟨htable, hspent, hnodup', fun id => ?_⟩
    have herase : id ∈ (pool.eraseSorted i).sortedIds ↔ id ≠ i ∧ id ∈ pool.sortedIds := by
      rw [sortedIds_eraseSorted, hnodup.mem_erase_iff]
    rw [List.foldl_cons, hmem id]
    refine (and_congr_left' herase).trans ?_
    rw [List.mem_cons]
    tauto

theorem lookup_removeStuck {now : Nat} {order : List Hash}
    (h : (pool.removeStuckTransactions now order walk).table.lookup id = some ptx) :
    pool.table.lookup id = some ptx := by
  have hforget : ∀ (l : List Hash) (pool : TxPool), (l.foldl
      (fun pool id => { pool.eraseSorted id with timedOut := insert id pool.timedOut })
      pool).table = pool.table := by
    intro l
    induction l with
    | nil => exact fun _ => rfl
    | cons i l ih => exact fun pool => ih _
  have hremove : ∀ (l : List Hash) (pool : TxPool), (l.foldl removeId pool).table.lookup id =
      some ptx → pool.table.lookup id = some ptx := by
    intro l
    induction l with
    | nil => exact fun _ hrow => hrow
    | cons i l ih =>
      intro pool hrow
      have hone := ih _ hrow
      obtain ⟨m, hm⟩ := removeId_frame pool i
      rw [hm] at hone
      exact (lookup_of_lookup_erase hone).2
  have hrow := hremove _ _ h
  rwa [hforget] at hrow

theorem Registered.removeId_foldl (h : pool.Registered) (l : List Hash) :
    (l.foldl TxPool.removeId pool).Registered ∧
      (l.foldl TxPool.removeId pool).sorted = pool.sorted ∧
      ∀ id ptx, (l.foldl TxPool.removeId pool).table.lookup id = some ptx ↔
        pool.table.lookup id = some ptx ∧ id ∉ l := by
  induction l generalizing pool with
  | nil => simpa using h
  | cons i l ih =>
    obtain ⟨m, hm⟩ := removeId_frame pool i
    obtain ⟨hreg, hsorted, hlookup⟩ := ih (h.removeId i)
    refine ⟨hreg, by rw [List.foldl_cons, hsorted, hm], fun id ptx => ?_⟩
    rw [List.foldl_cons, hlookup, hm, List.mem_cons]
    constructor
    · rintro ⟨hrow, hl⟩
      obtain ⟨hne, hrow⟩ := lookup_of_lookup_erase hrow
      exact ⟨hrow, fun hc => hc.elim hne hl⟩
    · rintro ⟨hrow, hl⟩
      obtain ⟨hne, hl⟩ := not_or.mp hl
      exact ⟨by rw [Finmap.lookup_erase_ne hne, hrow], hl⟩

theorem Indexed.removeStuckTransactions (h : Indexed env pool) (now : Nat) (order : List Hash)
    (hwalk : ∀ l, (walk l).Perm l) : Indexed env (pool.removeStuckTransactions now order walk) := by
  unfold TxPool.removeStuckTransactions
  dsimp only
  generalize pool.select order (fun _ => stuck now) = remove
  obtain ⟨htable, hspent, hnodup, hsorted⟩ := forget_foldl remove h.sorted_nodup
  generalize remove.foldl _ pool = forgotten at htable hspent hnodup hsorted ⊢
  have hreg : forgotten.Registered := by
    refine ⟨?_, ?_, ?_⟩
    · rw [htable]
      exact h.supported
    · rw [htable]
      exact h.nodup
    · rw [htable, hspent]
      exact h.spent
  obtain ⟨hreg, hsame, hlookup⟩ := hreg.removeId_foldl (walk remove)
  rw [htable] at hlookup
  have hsub : ∀ id ptx, ((walk remove).foldl removeId forgotten).table.lookup id = some ptx →
      pool.table.lookup id = some ptx := fun id ptx hrow => ((hlookup id ptx).mp hrow).1
  refine ⟨hreg, fun i row hi => h.filed i row (hsub i row hi),
    fun i row hi => h.inputs i row (hsub i row hi), fun i => ?_, ?_⟩
  · -- an id left both loops or neither
    have hmem : i ∈ ((walk remove).foldl removeId forgotten).table ↔
        i ∈ pool.table ∧ i ∉ remove := by
      simp only [Finmap.mem_iff, hlookup, (hwalk remove).mem_iff]
      exact exists_and_right
    rw [hmem, ← h.sorted_iff, ← hsorted, sortedIds, sortedIds, hsame]
  · rwa [sortedIds, hsame]

/-! ### Adding -/

/-- What `check_tx_semantic` ensures about the inputs: there are some, and their
key images are distinct. -/
structure Spendable (tx : Transaction) : Prop where
  inputs : tx.vin ≠ []
  images : tx.keyImages.Nodup

/-- An id names one transaction: `add_tx` is not called for another one of the
same id. -/
def SameInputs (env : Env) (pool : TxPool) (tx : Transaction) : Prop :=
  ∀ ptx, pool.table.lookup (env.transactionHash tx) = some ptx → ptx.tx.vin = tx.vin

/-- The first key image of a transaction in the pool stops `insert_key_images`. -/
theorem insertTx_again (h : Indexed env pool) {old : PoolTx}
    (hrow : pool.table.lookup id = some old) (hvin : old.tx.vin = ptx.tx.vin) :
    pool.insertTx id ptx = (false, { pool with table := pool.table.insert id ptx }) := by
  have hsupported := h.supported id old hrow
  have himages : ∀ k ∈ ptx.tx.vin.filterMap TxIn.keyImage?, id ∈ pool.idsOf k := by
    intro k hk
    refine h.spent.mem_ids_iff.mpr ⟨old, hrow, ?_⟩
    rwa [rowImages, Transaction.keyImages, hvin]
  rw [Transaction.checkInputsTypesSupported, hvin] at hsupported
  have hinputs := h.inputs id old hrow
  rw [hvin] at hinputs
  cases hcases : ptx.tx.vin with
  | nil => exact absurd hcases hinputs
  | cons i rest =>
    rw [hcases] at hsupported himages
    obtain ⟨k, hk⟩ := Option.isSome_iff_exists.mp (List.all_eq_true.mp hsupported i (by simp))
    have hmem : id ∈ ({ pool with table := pool.table.insert id ptx } : TxPool).idsOf k :=
      himages k (by simp [hk])
    rw [insertTx, hcases, insertKeyImages, hk]
    simp only [hmem, if_true, ite_self]

theorem idsOf_of_unspent (h : pool.haveTxKeyimgesAsSpent tx = false) {k : KeyImage}
    (hk : k ∈ tx.keyImages) : pool.idsOf k = ∅ := by
  obtain ⟨i, hi, hik⟩ := List.mem_filterMap.mp hk
  have hfree := List.any_eq_false.mp h i hi
  rw [hik] at hfree
  have hnone : pool.spentKeyImages.lookup k = none :=
    Finmap.lookup_eq_none.mpr (by simpa using hfree)
  rw [idsOf, Inverted.ids, hnone]
  rfl

theorem insertTx_new (ptx : PoolTx) (h : Indexed env pool) (hnew : pool.table.lookup id = none)
    (hsupported : ptx.tx.checkInputsTypesSupported = true) (hnodup : (rowImages ptx).Nodup)
    (hunspent : ptx.keptByBlock = false → ∀ k ∈ rowImages ptx, pool.idsOf k = ∅) :
    pool.insertTx id ptx =
      (true,
        { table := pool.table.insert id ptx
          sorted := ⟨ptx.fee, ptx.blobSize, ptx.receiveTime, id⟩ :: pool.sorted
          spentKeyImages := Inverted.addAll pool.spentKeyImages (rowImages ptx) id
          timedOut := pool.timedOut }) := by
  have hinsertable : Insertable ptx.keptByBlock id ptx.tx.vin
      { pool with table := pool.table.insert id ptx } := by
    refine ⟨?_, hnodup, ?_, hunspent⟩
    · simpa [Transaction.checkInputsTypesSupported] using hsupported
    · intro k _ hmem
      obtain ⟨row, hrow, -⟩ := h.spent.mem_ids_iff.mp hmem
      rw [hnew] at hrow
      cases hrow
  have hentry : (⟨ptx.fee, ptx.blobSize, ptx.receiveTime, id⟩ : SortedEntry) ∉ pool.sorted := by
    intro hmem
    have hid : id ∈ pool.sortedIds := List.mem_map.mpr ⟨_, hmem, rfl⟩
    exact Finmap.lookup_eq_none.mp hnew ((h.sorted_iff id).mp hid)
  rw [insertTx, insertKeyImages_of_insertable hinsertable]
  simp only [List.insert_of_not_mem hentry]
  rfl

/-- What a call of `add_tx` does: nothing, or it overwrites the row of a
transaction that is there, or it adds a new one. -/
inductive AddEffect (env : Env) (pool : TxPool) (keptByBlock : Bool) (tx : Transaction) :
    Bool × TxPool → Prop
  | rejected : AddEffect env pool keptByBlock tx (false, pool)
  | again (old ptx : PoolTx) (hrow : pool.table.lookup (env.transactionHash tx) = some old)
      (htx : ptx.tx = tx) (hvin : old.tx.vin = tx.vin) :
      AddEffect env pool keptByBlock tx
        (false, { pool with table := pool.table.insert (env.transactionHash tx) ptx })
  | added (ptx : PoolTx) (hnew : pool.table.lookup (env.transactionHash tx) = none)
      (htx : ptx.tx = tx) (hsupported : tx.checkInputsTypesSupported = true)
      (hunspent : keptByBlock = false → ∀ k ∈ tx.keyImages, pool.idsOf k = ∅) :
      AddEffect env pool keptByBlock tx
        (true,
          { table := pool.table.insert (env.transactionHash tx) ptx
            sorted :=
              ⟨ptx.fee, ptx.blobSize, ptx.receiveTime, env.transactionHash tx⟩ :: pool.sorted
            spentKeyImages :=
              Inverted.addAll pool.spentKeyImages tx.keyImages (env.transactionHash tx)
            timedOut := pool.timedOut })

theorem Indexed.addTxWith_effect (h : Indexed env pool) (htx : Spendable tx)
    (hsame : SameInputs env pool tx) (db : BlockchainDb) (version now : Nat) (args : AddTxArgs) :
    AddEffect env pool args.keptByBlock tx (pool.addTxWith env db version now args tx) := by
  rcases addTxWith_cases env db version now args pool tx with hno | ⟨fee, hadmitted, heq⟩
  · rw [hno]
    exact .rejected
  rw [heq]
  cases hrow : pool.table.lookup (env.transactionHash tx) with
  | some old =>
    rw [insertTx_again h hrow (hsame old hrow)]
    exact .again old _ hrow rfl (hsame old hrow)
  | none =>
    have hunspent : args.keptByBlock = false → ∀ k ∈ tx.keyImages, pool.idsOf k = ∅ :=
      fun hkept k hk => idsOf_of_unspent (hadmitted.unspent hkept) hk
    rw [insertTx_new ⟨tx, args.blobSize, fee, args.keptByBlock, args.relayed, args.doNotRelay,
      now⟩ h hrow hadmitted.supported htx.images hunspent]
    exact .added _ hrow rfl hadmitted.supported hunspent

theorem Indexed.addEffect (h : Indexed env pool) (htx : Spendable tx) {r : Bool × TxPool}
    (heffect : AddEffect env pool keptByBlock tx r) : Indexed env r.2 := by
  cases heffect with
  | rejected => exact h
  | again old ptx hrow hptx hvin =>
    subst hptx
    have hsupported : ptx.tx.checkInputsTypesSupported = true := by
      have := h.supported _ old hrow
      rwa [Transaction.checkInputsTypesSupported, hvin] at this
    have himages : rowImages ptx = rowImages old := by
      rw [rowImages, rowImages, Transaction.keyImages, Transaction.keyImages, hvin]
    refine ⟨⟨forall_lookup_insert h.supported hsupported,
      forall_lookup_insert h.nodup htx.images, h.spent.replace hrow himages⟩,
      forall_lookup_insert h.filed rfl, forall_lookup_insert h.inputs htx.inputs,
      fun i => ?_, h.sorted_nodup⟩
    rw [Finmap.mem_insert]
    refine (h.sorted_iff i).trans ⟨.inr, ?_⟩
    rintro (rfl | hi)
    · exact Finmap.mem_of_lookup_eq_some hrow
    · exact hi
  | added ptx hnew hptx hsupported hunspent =>
    subst hptx
    have hfresh : env.transactionHash ptx.tx ∉ pool.sortedIds := fun hmem =>
      Finmap.lookup_eq_none.mp hnew ((h.sorted_iff _).mp hmem)
    refine ⟨⟨forall_lookup_insert h.supported hsupported,
      forall_lookup_insert h.nodup htx.images, h.spent.insert hnew ptx⟩,
      forall_lookup_insert h.filed rfl, forall_lookup_insert h.inputs htx.inputs,
      fun i => ?_, List.nodup_cons.mpr ⟨hfresh, h.sorted_nodup⟩⟩
    rw [Finmap.mem_insert, sortedIds, List.map_cons, List.mem_cons]
    exact or_congr_right (h.sorted_iff i)

/-! ### Transactions that did not come from a block -/

/-- The ids in `unkept` share no key images. -/
def Apart (unkept : Finset Hash) (pool : TxPool) : Prop :=
  ∀ a ∈ unkept, ∀ b ∈ unkept, a ≠ b → ∀ rowA rowB,
    pool.table.lookup a = some rowA → pool.table.lookup b = some rowB →
    ∀ k ∈ rowImages rowA, k ∉ rowImages rowB

theorem Apart.mono (h : Apart unkept pool)
    (hsub : ∀ id ptx, pool'.table.lookup id = some ptx → pool.table.lookup id = some ptx) :
    Apart unkept pool' :=
  fun a ha b hb hne rowA rowB hA hB => h a ha b hb hne rowA rowB (hsub a rowA hA) (hsub b rowB hB)

/-- The ids last added without `kept_by_block`, after a call of `add_tx`. -/
def unkeptAfter (unkept : Finset Hash) (id : Hash) (keptByBlock added : Bool) : Finset Hash :=
  if added then if keptByBlock then unkept.erase id else insert id unkept else unkept

theorem Apart.addEffect (h : Apart unkept pool) (hpool : Indexed env pool) {r : Bool × TxPool}
    (heffect : AddEffect env pool keptByBlock tx r) :
    Apart (unkeptAfter unkept (env.transactionHash tx) keptByBlock r.1) r.2 := by
  cases heffect with
  | rejected => exact h
  | again old ptx hrow hptx hvin =>
    subst hptx
    have himages : rowImages ptx = rowImages old := by
      rw [rowImages, rowImages, Transaction.keyImages, Transaction.keyImages, hvin]
    -- every row has the images of a row that was there before
    have hold : ∀ i row, (pool.table.insert (env.transactionHash ptx.tx) ptx).lookup i =
        some row → ∃ row', pool.table.lookup i = some row' ∧ rowImages row' = rowImages row :=
      forall_lookup_insert (fun i row hi => ⟨row, hi, rfl⟩) ⟨old, hrow, himages.symm⟩
    intro a ha b hb hne rowA rowB hA hB k
    obtain ⟨rowA', hA', hiA⟩ := hold a rowA hA
    obtain ⟨rowB', hB', hiB⟩ := hold b rowB hB
    rw [← hiA, ← hiB]
    exact h a ha b hb hne rowA' rowB' hA' hB' k
  | added ptx hnew hptx hsupported hunspent =>
    subst hptx
    cases keptByBlock with
    | true =>
      intro a ha b hb hne rowA rowB hA hB
      obtain ⟨hane, ha⟩ := Finset.mem_erase.mp ha
      obtain ⟨hbne, hb⟩ := Finset.mem_erase.mp hb
      rw [Finmap.lookup_insert_of_ne _ hane] at hA
      rw [Finmap.lookup_insert_of_ne _ hbne] at hB
      exact h a ha b hb hne rowA rowB hA hB
    | false =>
      -- the images of the new transaction are in no row
      have hfree : ∀ i row, pool.table.lookup i = some row → ∀ k ∈ ptx.tx.keyImages,
          k ∉ rowImages row := by
        intro i row hi k hk hmem
        have hids : i ∈ pool.idsOf k := hpool.spent.mem_ids_iff.mpr ⟨row, hi, hmem⟩
        rw [hunspent rfl k hk] at hids
        exact absurd hids (Finset.notMem_empty i)
      intro a ha b hb hne rowA rowB hA hB k hk
      by_cases hane : a = env.transactionHash ptx.tx
      · subst hane
        rw [Finmap.lookup_insert] at hA
        cases hA
        rw [Finmap.lookup_insert_of_ne _ hne.symm] at hB
        exact hfree b rowB hB k hk
      rw [Finmap.lookup_insert_of_ne _ hane] at hA
      by_cases hbne : b = env.transactionHash ptx.tx
      · subst hbne
        rw [Finmap.lookup_insert] at hB
        cases hB
        exact fun hkB => hfree a rowA hA k hkB hk
      rw [Finmap.lookup_insert_of_ne _ hbne] at hB
      have ha : a ∈ unkept := (Finset.mem_insert.mp ha).resolve_left hane
      have hb : b ∈ unkept := (Finset.mem_insert.mp hb).resolve_left hbne
      exact h a ha b hb hne rowA rowB hA hB k hk

/-! ### Runs -/

/-- An order in which `for_all_txpool_txes` can meet the rows. -/
structure Enumerates (order : List Hash) (pool : TxPool) : Prop where
  nodup : order.Nodup
  mem_iff : ∀ id, id ∈ order ↔ id ∈ pool.table

/-- The pools that calls from the empty one lead to, when `add_tx` is called for
transactions with the property `P` only. Beside the pool stand the ids that were
last added without `kept_by_block`. -/
inductive Reachable (env : Env) (P : Transaction → Prop) : TxPool → Finset Hash → Prop
  | empty : Reachable env P .empty ∅
  | addTx {pool : TxPool} {unkept : Finset Hash} (db : BlockchainDb) (version now : Nat)
      (args : AddTxArgs) (tx : Transaction) (h : Reachable env P pool unkept) (htx : P tx)
      (hsame : SameInputs env pool tx) :
      Reachable env P (pool.addTxWith env db version now args tx).2
        (unkeptAfter unkept (env.transactionHash tx) args.keptByBlock
          (pool.addTxWith env db version now args tx).1)
  | takeTx {pool pool' : TxPool} {unkept : Finset Hash} {ptx : PoolTx} (id : Hash)
      (h : Reachable env P pool unkept) (htake : pool.takeTx id = some (ptx, pool')) :
      Reachable env P pool' unkept
  | removeStuckTransactions {pool : TxPool} {unkept : Finset Hash} (now : Nat)
      (order : List Hash) (walk : List Hash → List Hash) (h : Reachable env P pool unkept)
      (horder : Enumerates order pool) (hwalk : ∀ l, (walk l).Perm l) :
      Reachable env P (pool.removeStuckTransactions now order walk) unkept
  | validate {pool : TxPool} {unkept : Finset Hash} (db : BlockchainDb) (version : Nat)
      (order : List Hash) (walk : List Hash → List Hash) (h : Reachable env P pool unkept)
      (horder : Enumerates order pool) (hwalk : ∀ l, (walk l).Perm l) :
      Reachable env P (pool.validate env db version order walk).2 unkept

theorem lookup_remove {id i : Hash} (hi : ((pool.removeId id).eraseSorted id).table.lookup i =
    some ptx) : pool.table.lookup i = some ptx := by
  obtain ⟨m, hm⟩ := removeId_frame pool id
  rw [hm] at hi
  exact (lookup_of_lookup_erase hi).2

theorem Reachable.mono {Q : Transaction → Prop} (h : Reachable env P pool unkept)
    (hPQ : ∀ tx, P tx → Q tx) : Reachable env Q pool unkept := by
  induction h with
  | empty => exact .empty
  | addTx db version now args tx _ htx hsame ih =>
    exact .addTx db version now args tx ih (hPQ tx htx) hsame
  | takeTx id _ htake ih => exact .takeTx id ih htake
  | removeStuckTransactions now order walk _ horder hwalk ih =>
    exact .removeStuckTransactions now order walk ih horder hwalk
  | validate db version order walk _ horder hwalk ih =>
    exact .validate db version order walk ih horder hwalk

theorem Reachable.filed (h : Reachable env P pool unkept) : Filed env pool := by
  induction h with
  | empty =>
    intro id ptx hrow
    simp [TxPool.empty] at hrow
  | @addTx pool _ db version now args tx _ _ _ ih =>
    rcases addTxWith_cases env db version now args pool tx with hno | ⟨fee, -, heq⟩
    · rwa [hno]
    · rw [heq, Filed, insertTx_table]
      exact forall_lookup_insert ih rfl
  | takeTx id _ htake ih =>
    intro i row hi
    rw [(takeTx_table htake).2] at hi
    exact ih i row (lookup_of_lookup_erase hi).2
  | removeStuckTransactions now order walk _ _ _ ih =>
    exact fun i row hi => ih i row (lookup_removeStuck hi)
  | validate db version order walk _ _ _ ih =>
    exact validate_induction (P := Filed env)
      (fun _ _ hp i row hi => hp i row (lookup_remove hi)) ih db version order walk

theorem Reachable.indexed (h : Reachable env Spendable pool unkept) :
    Indexed env pool ∧ Apart unkept pool := by
  induction h with
  | empty =>
    refine ⟨indexed_empty, ?_⟩
    intro a ha
    simp at ha
  | addTx db version now args tx _ htx hsame ih =>
    have heffect := ih.1.addTxWith_effect htx hsame db version now args
    exact ⟨ih.1.addEffect htx heffect, ih.2.addEffect ih.1 heffect⟩
  | takeTx id _ htake ih =>
    obtain ⟨hrow, htable⟩ := takeTx_table htake
    refine ⟨ih.1.takeTx htake, ih.2.mono fun i row hi => ?_⟩
    rw [htable] at hi
    exact (lookup_of_lookup_erase hi).2
  | removeStuckTransactions now order walk _ _ hwalk ih =>
    exact ⟨ih.1.removeStuckTransactions now order hwalk,
      ih.2.mono fun _ _ => lookup_removeStuck⟩
  | @validate _ unkept db version order walk _ _ _ ih =>
    exact validate_induction (P := fun pool => Indexed env pool ∧ Apart unkept pool)
      (fun pool id hp => ⟨hp.1.remove id, hp.2.mono fun _ _ => lookup_remove⟩) ih ..

/-- What the containers of a pool have to do with each other. -/
structure Consistent (unkept : Finset Hash) (pool : TxPool) : Prop where
  same_ids : ∀ id, id ∈ pool.table ↔ id ∈ pool.sortedIds
  once : pool.sortedIds.Nodup
  /-- A key image leads to the ids of the rows that spend it, if there are any. -/
  spent_iff : ∀ k ids, pool.spentKeyImages.lookup k = some ids ↔
    ids.Nonempty ∧ ∀ id, id ∈ ids ↔ ∃ ptx, pool.table.lookup id = some ptx ∧ k ∈ ptx.tx.keyImages
  /-- Transactions added without `kept_by_block` share no key image. -/
  apart : ∀ a ∈ unkept, ∀ b ∈ unkept, a ≠ b → ∀ rowA rowB,
    pool.table.lookup a = some rowA → pool.table.lookup b = some rowB →
    ∀ k ∈ rowA.tx.keyImages, k ∉ rowB.tx.keyImages

theorem Registered.spent_iff (h : pool.Registered) (k : KeyImage) (ids : Finset Hash) :
    pool.spentKeyImages.lookup k = some ids ↔
      ids.Nonempty ∧
        ∀ id, id ∈ ids ↔ ∃ ptx, pool.table.lookup id = some ptx ∧ k ∈ rowImages ptx := by
  rw [h.spent k]
  simp only [← Inverted.mem_owners, ← Finset.ext_iff]
  split_ifs with hk
  · rw [hk]
    refine ⟨by rintro ⟨⟩, ?_⟩
    rintro ⟨hne, rfl⟩
    exact absurd rfl hne.ne_empty
  · rw [Option.some_inj]
    refine ⟨?_, fun h => h.2.symm⟩
    rintro rfl
    exact ⟨Finset.nonempty_iff_ne_empty.mpr hk, rfl⟩

/-- **The containers of the pool agree.** In every state reached by adding
transactions with inputs, none of which spends a key image twice, and by taking
transactions out, the table, the sorted container and the map of key images hold
the same transactions. -/
theorem pool_consistent {env : Env} {pool : TxPool} {unkept : Finset Hash}
    (h : Reachable env Spendable pool unkept) : pool.Consistent unkept := by
  obtain ⟨hindexed, hapart⟩ := h.indexed
  exact ⟨fun id => (hindexed.sorted_iff id).symm, hindexed.sorted_nodup,
    hindexed.toRegistered.spent_iff, hapart⟩

/-- Transactions for examples are known by their unlock time. -/
def sampleEnv : Env :=
  { Env.permissive with transactionHash := fun tx => numberedHash tx.unlockTime }

def sampleTx (number : Nat) (images : List KeyImage) : Transaction :=
  { Transaction.null with
    version := 2, unlockTime := number, vin := images.map fun k => .toKey 0 [] k }

/-- A call of `add_tx` for such a transaction. -/
def sampleAdd (now : Nat) (keptByBlock : Bool) (tx : Transaction) (pool : TxPool) :
    Bool × TxPool :=
  pool.addTxWith sampleEnv .empty 1 now ⟨0, keptByBlock, true, false⟩ tx

theorem Reachable.sampleAdd (h : Reachable sampleEnv P pool unkept) (now : Nat) (keptByBlock : Bool)
    (tx : Transaction) (htx : P tx) (hsame : SameInputs sampleEnv pool tx) :
    Reachable sampleEnv P (sampleAdd now keptByBlock tx pool).2
      (unkeptAfter unkept (numberedHash tx.unlockTime) keptByBlock
        (TxPool.sampleAdd now keptByBlock tx pool).1) :=
  .addTx .empty 1 now ⟨0, keptByBlock, true, false⟩ tx h htx hsame

theorem sameInputs_empty (tx : Transaction) : SameInputs sampleEnv empty tx := by
  intro ptx hrow
  simp [empty] at hrow

/-- Two transactions that spend one key image, the second from a block. -/
def sharedPool (keptByBlock : Bool) : TxPool :=
  (sampleAdd 6 true (sampleTx 2 [nullBlob 32])
    (sampleAdd 5 keptByBlock (sampleTx 1 [nullBlob 32]) empty).2).2

theorem reachable_sharedPool (keptByBlock : Bool) : Reachable sampleEnv Spendable
    (sharedPool keptByBlock) (if keptByBlock then ∅ else {numberedHash 1}) := by
  have hfirst := (Reachable.empty (P := Spendable)).sampleAdd 5 keptByBlock
    (sampleTx 1 [nullBlob 32]) ⟨List.cons_ne_nil _ _, List.nodup_singleton _⟩ (sameInputs_empty _)
  have hsecond := hfirst.sampleAdd 6 true (sampleTx 2 [nullBlob 32])
    ⟨List.cons_ne_nil _ _, List.nodup_singleton _⟩
    (fun ptx hrow => by cases keptByBlock <;> cases hrow)
  have hadded : (sampleAdd 5 keptByBlock (sampleTx 1 [nullBlob 32]) empty).1 = true ∧
      (sampleAdd 6 true (sampleTx 2 [nullBlob 32])
        (sampleAdd 5 keptByBlock (sampleTx 1 [nullBlob 32]) empty).2).1 = true := by
    cases keptByBlock <;> decide +kernel
  have hunkept : unkeptAfter (unkeptAfter ∅ (numberedHash 1) keptByBlock true) (numberedHash 2)
      true true = if keptByBlock then ∅ else {numberedHash 1} := by
    cases keptByBlock <;> decide +kernel
  rw [hadded.1, hadded.2] at hsecond
  exact hunkept ▸ hsecond

theorem pool_consistent_shared :
    numberedHash 1 ∈ (sharedPool false).table ∧ numberedHash 2 ∈ (sharedPool false).table ∧
      (sharedPool false).Consistent {numberedHash 1} :=
  ⟨by decide +kernel, by decide +kernel, pool_consistent (reachable_sharedPool false)⟩

/-- A transaction without inputs, added again a second later, is in the sorted
container twice. -/
theorem inputless_tx_sorted_twice : ∃ pool unkept,
    Reachable sampleEnv (fun tx => tx.keyImages.Nodup) pool unkept ∧
      ¬pool.Consistent unkept := by
  have hfirst := (Reachable.empty (P := fun tx => tx.keyImages.Nodup)).sampleAdd 5 true
    (sampleTx 1 []) List.nodup_nil (sameInputs_empty _)
  have hsame : SameInputs sampleEnv (sampleAdd 5 true (sampleTx 1 []) empty).2 (sampleTx 1 []) := by
    intro ptx hrow
    cases hrow
    rfl
  exact ⟨_, _, hfirst.sampleAdd 6 true (sampleTx 1 []) List.nodup_nil hsame,
    fun h => absurd h.once (by decide +kernel)⟩

end TxPool

end Lethean
