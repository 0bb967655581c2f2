import Lethean.Lib.Frame
import Lethean.BlockchainDb.Lmdb

/-!
# Lethean.BlockchainDb.LmdbAtomic

What a failed `add_block` leaves in the tables. Outside of a batch the write
transaction is dropped. In a batch the rows written before the exception stay,
so the tables are unchanged only if the exception comes before the first row:
`Untouched` says for which tables and blocks it does.

The argument follows the rows of `tx_indices`. Nothing in `add_block` removes
one, so once the first transaction has its row, no exception is harmless.
-/

namespace Lethean

namespace Tables

/-! ### Rows of `tx_indices` are never taken back -/

def KeepsIndices (t t' : Tables) : Prop := ∀ txHash ∈ t.txIndices, txHash ∈ t'.txIndices

instance : Std.Refl KeepsIndices := ⟨fun _ _ h => h⟩

instance : IsTrans Tables KeepsIndices := ⟨fun _ _ _ h h' txHash hm => h' txHash (h txHash hm)⟩

variable {t : Tables} {front vin : List TxIn} {spent : Finset KeyImage} {b : NewBlock}

theorem orDbError_frame {α : Type} (rows : Option α) : Frame KeepsIndices (orDbError rows) := by
  cases rows with
  | none => exact Frame.throw _
  | some rows => exact Frame.pure rows

theorem addOutput_frame (txHash : Hash) (output : TxOut) (localIndex unlockTime : Nat)
    (commitment : Option RctKey) :
    Frame KeepsIndices (addOutput txHash output localIndex unlockTime commitment) := by
  refine Frame.getBind fun t => ?_
  cases output.target with
  | toKey key =>
    refine Frame.guard (Frame.bind (orDbError_frame _) fun _ => Frame.bind (Frame.modify ?_) fun _ =>
      Frame.bind (orDbError_frame _) fun _ => Frame.bind (Frame.modify ?_) fun _ => Frame.pure _)
    · exact fun _ _ h => h
    · exact fun _ _ h => h
  | toScript | toScripthash => exact Frame.throw _

theorem addOutputs_frame (zeroCommit : Nat → RctKey) (tx : Transaction) (txHash : Hash)
    (minerTx : Bool) (outs : List (TxOut × Nat)) :
    Frame KeepsIndices (addOutputs zeroCommit tx txHash minerTx outs) := by
  induction outs with
  | nil => exact Frame.pure _
  | cons out rest ih =>
    exact Frame.bind (addOutput_frame _ _ _ _ _) fun _ => Frame.bind ih fun _ => Frame.pure _

theorem addTxAmountOutputIndices_frame (txId : Nat) (indices : List Nat) :
    Frame KeepsIndices (addTxAmountOutputIndices txId indices) :=
  Frame.getBind fun _ => Frame.bind (orDbError_frame _) fun _ => Frame.modify fun _ _ h => h

/-- A hash that is there is refused before the first row; one that is not has
a row afterwards, and the rows of the others stay. -/
theorem addTxData_spec (tx : Transaction) (txHash : Hash) (t : Tables) :
    (txHash ∈ t.txIndices ∧ addTransactionData tx txHash t = .error .txExists t) ∨
      (txHash ∉ t.txIndices ∧ KeepsIndices t (Frame.final (addTransactionData tx txHash t)) ∧
        txHash ∈ (Frame.final (addTransactionData tx txHash t)).txIndices) := by
  by_cases h : txHash ∈ t.txIndices
  · refine .inl ⟨h, ?_⟩
    simp only [addTransactionData, Frame.get_bind, h, if_true, Frame.throw_bind]
  refine .inr ⟨h, ?_⟩
  have hkeep : ∀ d : TxData, (∀ h' ∈ t.txIndices, h' ∈ t.txIndices.insert txHash d) ∧
      txHash ∈ t.txIndices.insert txHash d := fun d => by simp +contextual
  have hrest : Frame KeepsIndices (do
      let txs ← orDbError (append Prod.fst t.txs (t.txs.length, tx))
      modify fun t => { t with txs := txs }
      pure t.txs.length) :=
    Frame.bind (orDbError_frame _) fun _ => Frame.bind (Frame.modify fun _ _ h => h) fun _ =>
      Frame.pure _
  simp only [addTransactionData, Frame.get_bind, h, if_false, Frame.modify_bind]
  exact ⟨fun h' hm => hrest _ h' ((hkeep _).1 h' hm), hrest _ txHash (hkeep _).2⟩

theorem addTransactionRows_spec (zeroCommit : Nat → RctKey) (tx : Transaction) (txHash : Hash)
    (minerTx : Bool) (t : Tables) :
    (txHash ∈ t.txIndices ∧
        addTransactionRows zeroCommit tx txHash minerTx t = .error .txExists t) ∨
      (txHash ∉ t.txIndices ∧
        KeepsIndices t (Frame.final (addTransactionRows zeroCommit tx txHash minerTx t)) ∧
        txHash ∈ (Frame.final (addTransactionRows zeroCommit tx txHash minerTx t)).txIndices) := by
  have hrest : ∀ txId, Frame KeepsIndices (addOutputs zeroCommit tx txHash minerTx tx.vout.zipIdx >>=
      fun indices => addTxAmountOutputIndices txId indices) := fun txId =>
    Frame.bind (addOutputs_frame _ _ _ _ _) fun _ => addTxAmountOutputIndices_frame _ _
  obtain ⟨hin, hrun⟩ | ⟨hnot, hkeep, hrow⟩ := addTxData_spec tx txHash t
  · exact .inl ⟨hin, Frame.bind_error hrun⟩
  · have hlater := Frame.final_bind (x := addTransactionData tx txHash) hrest t
    exact .inr ⟨hnot, IsTrans.trans _ _ _ hkeep hlater, hlater _ hrow⟩

theorem addTransaction_frame (zeroCommit : Nat → RctKey) (tx : Transaction) (txHash : Hash) :
    Frame KeepsIndices (addTransaction zeroCommit tx txHash) := by
  refine Frame.getBind fun t => ?_
  refine Frame.bind (Frame.modify fun _ _ h => h) fun _ => ?_
  cases (spendInputs tx.vin tx.vin false t.spentKeys).1 with
  | keyImageExists => exact Frame.throw _
  | skipped => exact Frame.pure _
  | done minerTx =>
    intro t'
    obtain ⟨-, hrun⟩ | ⟨-, hkeep, -⟩ := addTransactionRows_spec zeroCommit tx txHash minerTx t'
    · simp only [hrun, Frame.final_error]
      exact Std.Refl.refl t'
    · exact hkeep

theorem addTransactions_frame (zeroCommit : Nat → RctKey) (txs : List (Transaction × Hash)) :
    Frame KeepsIndices (addTransactions zeroCommit txs) := by
  induction txs with
  | nil => exact Frame.pure _
  | cons tx rest ih => exact Frame.bind (addTransaction_frame zeroCommit tx.1 tx.2) fun _ => ih

theorem addBlockRows_frame (blk : Block) (blockSize cumulativeDifficulty coinsGenerated : Nat)
    (blkHash : Hash) :
    Frame KeepsIndices
      (addBlockRows blk blockSize cumulativeDifficulty coinsGenerated blkHash) := by
  refine Frame.getBind fun t => ?_
  cases t.blockRefused blk blkHash with
  | some e => exact Frame.throw _
  | none =>
    exact Frame.bind (orDbError_frame _) fun _ => Frame.bind (Frame.modify fun _ _ h => h) fun _ =>
      Frame.bind (orDbError_frame _) fun _ => Frame.bind (Frame.modify fun _ _ h => h) fun _ =>
      Frame.modify fun _ _ h => h

/-! ### The loop over the inputs -/

/-- The inputs that `add_transaction` knows. -/
def Supported : TxIn → Prop
  | .toKey .. => True
  | .gen _ => True
  | _ => False

instance : DecidablePred Supported := fun i => by
  cases i <;> first | exact isTrue trivial | exact isFalse id

def images (vin : List TxIn) : List KeyImage := vin.filterMap TxIn.keyImage?

/-- Inputs that the loop gets through: it knows them, and their key images are
new. -/
structure Spends (vin : List TxIn) (spent : Finset KeyImage) : Prop where
  supported : ∀ i ∈ vin, Supported i
  nodup : (images vin).Nodup
  unspent : ∀ k ∈ images vin, k ∉ spent

theorem Spends.nil (spent : Finset KeyImage) : Spends [] spent :=
  ⟨by simp, by simp [images], by simp [images]⟩

theorem spendInputs_append (vin : List TxIn) (h : Spends front spent) (back : List TxIn)
    (minerTx : Bool) :
    ∃ minerTx', spendInputs vin (front ++ back) minerTx spent =
      spendInputs vin back minerTx' (spent ∪ (images front).toFinset) := by
  induction front generalizing minerTx spent with
  | nil => exact ⟨minerTx, by simp [images]⟩
  | cons i front ih =>
    have hi : Supported i := h.supported i List.mem_cons_self
    have hs : ∀ j ∈ front, Supported j := fun j hj => h.supported j (List.mem_cons_of_mem _ hj)
    cases i with
    | gen height =>
      obtain ⟨m, hm⟩ := ih ⟨hs, h.nodup, h.unspent⟩ true
      exact ⟨m, hm⟩
    | toKey amount offsets kImage =>
      have himages : images (TxIn.toKey amount offsets kImage :: front) =
        kImage :: images front := rfl
      have hnodup := himages ▸ h.nodup
      have hunspent := himages ▸ h.unspent
      rw [List.nodup_cons] at hnodup
      rw [List.forall_mem_cons] at hunspent
      have hne : ∀ k ∈ images front, k ∉ insert kImage spent := by
        intro k hk hmem
        rcases Finset.mem_insert.mp hmem with rfl | hmem
        · exact hnodup.1 hk
        · exact hunspent.2 k hk hmem
      obtain ⟨m, hm⟩ := ih ⟨hs, hnodup.2, hne⟩ minerTx
      refine ⟨m, ?_⟩
      simp only [List.cons_append, spendInputs, if_neg hunspent.1, hm, himages,
        List.toFinset_cons, Finset.insert_union, Finset.union_insert]
    | toScript | toScripthash => exact hi.elim

theorem spends_imageExists {back : List TxIn} {amount : Nat} {offsets : List Nat}
    {kImage : KeyImage} (hvin : vin = front ++ .toKey amount offsets kImage :: back)
    (hfront : Spends front spent) (hk : kImage ∈ spent ∪ (images front).toFinset) :
    spendInputs vin vin false spent = (.keyImageExists, spent ∪ (images front).toFinset) := by
  obtain ⟨m, hm⟩ := spendInputs_append vin hfront (.toKey amount offsets kImage :: back) false
  rw [← hvin] at hm
  rw [hm, spendInputs, if_pos hk]

theorem spendInputs_done (h : Spends vin spent) :
    ∃ minerTx, spendInputs vin vin false spent =
      (.done minerTx, spent ∪ (images vin).toFinset) := by
  obtain ⟨m, hm⟩ := spendInputs_append vin h [] false
  rw [List.append_nil] at hm
  exact ⟨m, hm⟩

/-- The loop meets an input that it does not know. The key images it has stored
are among those it removes. -/
theorem spendInputs_skipped {back : List TxIn} {i : TxIn} (hvin : vin = front ++ i :: back)
    (hfront : Spends front spent) (hi : ¬ Supported i) :
    spendInputs vin vin false spent = (.skipped, spent \ (images vin).toFinset) := by
  obtain ⟨m, hm⟩ := spendInputs_append vin hfront (i :: back) false
  have hstop : spendInputs vin (i :: back) m (spent ∪ (images front).toFinset) =
      (.skipped, (spent ∪ (images front).toFinset) \ (images vin).toFinset) := by
    cases i with
    | gen | toKey => exact absurd trivial hi
    | toScript | toScripthash => rfl
  have hsub : (images front).toFinset ⊆ (images vin).toFinset := by
    rw [hvin]
    simp [images, List.toFinset_append]
  rw [← hvin] at hm
  rw [hm, hstop, Finset.union_sdiff_distrib, Finset.sdiff_eq_empty_iff_subset.mpr hsub,
    Finset.union_empty]

theorem Spends.concat {vin : List TxIn} {spent : Finset KeyImage} {i : TxIn}
    (h : Spends vin spent) (hi : Supported i)
    (hk : ∀ k ∈ images [i], k ∉ spent ∪ (images vin).toFinset) : Spends (vin ++ [i]) spent := by
  have himages : images (vin ++ [i]) = images vin ++ images [i] := List.filterMap_append
  refine ⟨List.forall_mem_append.mpr ⟨h.supported, List.forall_mem_singleton.mpr hi⟩, ?_, ?_⟩
  · have hone : (images [i]).Nodup := by
      cases i with
      | toKey => exact List.nodup_singleton _
      | gen | toScript | toScripthash => exact List.nodup_nil
    rw [himages]
    refine h.nodup.append hone fun k hk' hk'' => hk k hk'' ?_
    exact Finset.mem_union_right _ (List.mem_toFinset.mpr hk')
  · rw [himages]
    exact List.forall_mem_append.mpr
      ⟨h.unspent, fun k hm hs => hk k hm (Finset.mem_union_left _ hs)⟩

/-- The longest front of the inputs that the loop gets through. -/
theorem exists_spends (vin : List TxIn) (spent : Finset KeyImage) :
    Spends vin spent ∨ ∃ front i back, vin = front ++ i :: back ∧ Spends front spent ∧
      (¬ Supported i ∨ ∃ amount offsets kImage, i = .toKey amount offsets kImage ∧
        kImage ∈ spent ∪ (images front).toFinset) := by
  induction vin using List.reverseRecOn with
  | nil => exact .inl (Spends.nil spent)
  | append_singleton vin i ih =>
    rcases ih with hall | ⟨front, j, back, rfl, hfront, hstop⟩
    · by_cases hi : Supported i
      · by_cases hk : ∀ k ∈ images [i], k ∉ spent ∪ (images vin).toFinset
        · exact .inl (hall.concat hi hk)
        refine .inr ⟨vin, i, [], rfl, hall, .inr ?_⟩
        cases i with
        | toKey amount offsets kImage =>
          have himages : images [TxIn.toKey amount offsets kImage] = [kImage] := rfl
          rw [himages, List.forall_mem_singleton, not_not] at hk
          exact ⟨amount, offsets, kImage, rfl, hk⟩
        | gen | toScript | toScripthash => exact absurd (fun _ hm => nomatch hm) hk
      · exact .inr ⟨vin, i, [], rfl, hall, .inl hi⟩
    · exact .inr ⟨front, j, back ++ [i], by simp, hfront, hstop⟩

/-! ### Exceptions before the first row -/

/-- The block's rows are refused before the first one is written. -/
def BlockRefused (t : Tables) (b : NewBlock) : Prop :=
  b.blkHash ∈ t.blockHeights ∨
    (t.blocks ≠ [] ∧ t.blockHeights.lookup b.blk.prevId ≠ some (t.blocks.length - 1)) ∨
    ∃ last, t.blocks.getLast? = some last ∧ t.blocks.length ≤ last.1

/-- The exception of `add_block` finds the tables as they were. `spent` is the
content of `spent_keys` when the transactions that are left are added; only
skipped transactions can be before them. -/
inductive Untouched (t : Tables) (b : NewBlock) :
    Finset KeyImage → List (Transaction × Hash) → Prop
  | block : BlockRefused t b → Untouched t b t.spentKeys []
  /-- A key image is there already, and those stored before it were missing from
  the table because a skipped transaction removed them. -/
  | keyImageExists {spent : Finset KeyImage} {tx : Transaction} {txHash : Hash}
      {rest : List (Transaction × Hash)} (front : List TxIn) (amount : Nat) (offsets : List Nat)
      (kImage : KeyImage) (back : List TxIn) :
      tx.vin = front ++ .toKey amount offsets kImage :: back → Spends front spent →
      kImage ∈ spent ∪ (images front).toFinset →
      spent ∪ (images front).toFinset = t.spentKeys →
      Untouched t b spent ((tx, txHash) :: rest)
  | txExists {spent : Finset KeyImage} {tx : Transaction} {txHash : Hash}
      {rest : List (Transaction × Hash)} :
      Spends tx.vin spent → spent ∪ (images tx.vin).toFinset = t.spentKeys →
      txHash ∈ t.txIndices → Untouched t b spent ((tx, txHash) :: rest)
  | skipped {spent : Finset KeyImage} {tx : Transaction} {txHash : Hash}
      {rest : List (Transaction × Hash)} (front : List TxIn) (i : TxIn) (back : List TxIn) :
      tx.vin = front ++ i :: back → Spends front spent → ¬ Supported i →
      Untouched t b (spent \ (images tx.vin).toFinset) rest →
      Untouched t b spent ((tx, txHash) :: rest)

/-- The condition at the front transaction, on the outcome of its input loop. -/
theorem untouched_cons_iff {tx : Transaction} {txHash : Hash} {rest : List (Transaction × Hash)} :
    Untouched t b spent ((tx, txHash) :: rest) ↔
      match spendInputs tx.vin tx.vin false spent with
      | (.keyImageExists, spent') => spent' = t.spentKeys
      | (.skipped, spent') => Untouched t b spent' rest
      | (.done _, spent') => spent' = t.spentKeys ∧ txHash ∈ t.txIndices := by
  constructor
  · intro h
    cases h with
    | keyImageExists front amount offsets kImage back hvin hfront hk hs =>
      rwa [spends_imageExists hvin hfront hk]
    | txExists hall hs hin =>
      obtain ⟨m, hm⟩ := spendInputs_done hall
      rw [hm]
      exact ⟨hs, hin⟩
    | skipped front i back hvin hfront hi hrest =>
      rwa [spendInputs_skipped hvin hfront hi]
  · rcases exists_spends tx.vin spent with hall | ⟨front, i, back, hvin, hfront, hi | hi⟩
    · obtain ⟨m, hm⟩ := spendInputs_done hall
      rw [hm]
      exact fun h => .txExists hall h.1 h.2
    · rw [spendInputs_skipped hvin hfront hi]
      exact fun h => .skipped front i back hvin hfront hi h
    · obtain ⟨amount, offsets, kImage, rfl, hk⟩ := hi
      rw [spends_imageExists hvin hfront hk]
      exact fun h => .keyImageExists front amount offsets kImage back hvin hfront hk h

theorem untouched_nil_iff : Untouched t b spent [] ↔ spent = t.spentKeys ∧ BlockRefused t b := by
  constructor
  · rintro ⟨h⟩
    exact ⟨rfl, h⟩
  · rintro ⟨rfl, h⟩
    exact .block h

theorem append_eq_none_iff {α : Type} {key : α → Nat} {rows : List α} {row : α} :
    append key rows row = none ↔ ∃ last, rows.getLast? = some last ∧ key row ≤ key last := by
  simp only [append, ite_eq_left_iff, reduceCtorEq, imp_false, not_not, Option.any_eq_true,
    decide_eq_true_eq]

theorem append_some {α : Type} {key : α → Nat} {rows rows' : List α} {row : α}
    (h : append key rows row = some rows') : rows' = rows ++ [row] := by
  unfold append at h
  split at h
  · cases h
  · exact (Option.some.inj h).symm

theorem blockRefused_eq_none_iff {blk : Block} {blkHash : Hash} :
    t.blockRefused blk blkHash = none ↔ blkHash ∉ t.blockHeights ∧
      (t.blocks = [] ∨ t.blockHeights.lookup blk.prevId = some (t.blocks.length - 1)) := by
  unfold blockRefused
  by_cases hin : blkHash ∈ t.blockHeights
  · simp [hin]
  by_cases hempty : t.blocks = []
  · simp [hin, hempty]
  · have hlen : t.blocks.length ≠ 0 := fun h => hempty (List.length_eq_zero_iff.mp h)
    cases hparent : t.blockHeights.lookup blk.prevId with
    | none => simp [hin, hempty, hlen]
    | some height => simp [hin, hempty, hlen]

theorem addBlockRows_spec (b : NewBlock) (t : Tables) :
    (BlockRefused t b ∧ ∃ e, addBlockRows b.blk b.blockSize b.cumulativeDifficulty
        b.coinsGenerated b.blkHash t = .error e t) ∨
      (¬ BlockRefused t b ∧ t.blocks.length < (Frame.final (addBlockRows b.blk b.blockSize
        b.cumulativeDifficulty b.coinsGenerated b.blkHash t)).blocks.length) := by
  have hiff : BlockRefused t b ↔ t.blockRefused b.blk b.blkHash ≠ none ∨
      append Prod.fst t.blocks (t.blocks.length, b.blk) = none := by
    rw [Ne, blockRefused_eq_none_iff, append_eq_none_iff, BlockRefused]
    tauto
  cases hrefused : t.blockRefused b.blk b.blkHash with
  | some e =>
    refine .inl ⟨hiff.mpr (.inl (by simp [hrefused])), e, ?_⟩
    simp only [addBlockRows, Frame.get_bind, hrefused, Frame.throw_apply]
  | none =>
    cases hblocks : append Prod.fst t.blocks (t.blocks.length, b.blk) with
    | none =>
      refine .inl ⟨hiff.mpr (.inr hblocks), .dbError, ?_⟩
      simp only [addBlockRows, Frame.get_bind, hrefused, hblocks, orDbError, Frame.throw_bind]
    | some blocks =>
      refine .inr ⟨by simp [hiff, hrefused, hblocks], ?_⟩
      have hlonger : t.blocks.length < blocks.length := by simp [append_some hblocks]
      simp only [addBlockRows, Frame.get_bind, hrefused, hblocks, orDbError]
      -- the put of `block_info` may still fail, with the row of `blocks` written
      split <;> exact hlonger

theorem addTransaction_apply (zeroCommit : Nat → RctKey) (tx : Transaction) (txHash : Hash)
    (t : Tables) (spent : Finset KeyImage) :
    addTransaction zeroCommit tx txHash (t.withSpent spent) =
      match spendInputs tx.vin tx.vin false spent with
      | (.keyImageExists, spent') => .error .keyImageExists (t.withSpent spent')
      | (.skipped, spent') => .ok () (t.withSpent spent')
      | (.done minerTx, spent') =>
        addTransactionRows zeroCommit tx txHash minerTx (t.withSpent spent') := by
  simp only [addTransaction, Frame.get_bind, Frame.modify_bind, withSpent]
  rcases spendInputs tx.vin tx.vin false spent with ⟨_ | _ | _, spent'⟩ <;> rfl

/-- The exception of the transactions from `txs` on. -/
theorem addBlock_untouched_iff (zeroCommit : Nat → RctKey) {t' : Tables} {e : DbException}
    {txs : List (Transaction × Hash)}
    (h : (addTransactions zeroCommit txs >>= fun _ => addBlockRows b.blk b.blockSize
      b.cumulativeDifficulty b.coinsGenerated b.blkHash) (t.withSpent spent) = .error e t') :
    t' = t ↔ Untouched t b spent txs := by
  have hspent : ∀ s, t.withSpent s = t ↔ s = t.spentKeys := fun s =>
    ⟨fun heq => congrArg spentKeys heq, fun heq => by rw [heq, withSpent]⟩
  induction txs generalizing spent with
  | nil =>
    change addBlockRows .. = _ at h
    rw [untouched_nil_iff]
    obtain ⟨hrefused, e', hrun⟩ | ⟨hnot, hlonger⟩ :=
      addBlockRows_spec b (t.withSpent spent)
    · rw [hrun] at h
      cases h
      rw [hspent]
      exact ⟨fun hs => ⟨hs, hrefused⟩, fun hs => hs.1⟩
    · rw [h] at hlonger
      refine ⟨?_, fun hs => absurd hs.2 hnot⟩
      rintro rfl
      exact absurd hlonger (lt_irrefl _)
  | cons p rest ih =>
    obtain ⟨tx, txHash⟩ := p
    have hrest : Frame KeepsIndices (addTransactions zeroCommit rest >>= fun _ =>
        addBlockRows b.blk b.blockSize b.cumulativeDifficulty b.coinsGenerated b.blkHash) :=
      Frame.bind (addTransactions_frame _ _) fun _ => addBlockRows_frame _ _ _ _ _
    rw [addTransactions, bind_assoc] at h
    rw [untouched_cons_iff]
    have hrun := addTransaction_apply zeroCommit tx txHash t spent
    generalize spendInputs tx.vin tx.vin false spent = outcome at hrun ⊢
    obtain ⟨loop, s⟩ := outcome
    cases loop with
    | keyImageExists =>
      rw [Frame.bind_error hrun] at h
      cases h
      exact hspent s
    | skipped =>
      rw [Frame.bind_ok hrun] at h
      exact ih h
    | done minerTx =>
      obtain ⟨hin, hrows⟩ | ⟨hnot, -, hrow⟩ :=
        addTransactionRows_spec zeroCommit tx txHash minerTx (t.withSpent s)
      · rw [Frame.bind_error (hrun.trans hrows)] at h
        cases h
        rw [hspent]
        exact ⟨fun hs => ⟨hs, hin⟩, fun hs => hs.1⟩
      · have hstays := Frame.final_bind (x := addTransaction zeroCommit tx txHash)
          (fun _ => hrest) (t.withSpent spent) txHash (by rw [hrun]; exact hrow)
        rw [h] at hstays
        refine ⟨?_, fun hs => absurd hs.2 hnot⟩
        rintro rfl
        exact absurd hstays hnot

end Tables

namespace Lmdb

theorem addBlock_error_of_not_batch {zeroCommit : Nat → RctKey} {db db' : Lmdb}
    {b : Tables.NewBlock} {e : DbException} (hbatch : db.batchActive = false)
    (h : db.addBlock zeroCommit b = (some e, db')) : db'.visible = db.visible := by
  cases hw : db.writeTxn with
  | some t =>
    -- a stray write transaction: `block_txn_start` throws
    have hstart : db.blockTxnStart = .error .txnStart := by simp [blockTxnStart, hbatch, hw]
    simp only [addBlock, hstart, Prod.mk.injEq] at h
    rw [h.2]
  | none =>
    have hstart : db.blockTxnStart = .ok db.committed := by simp [blockTxnStart, hbatch, hw]
    simp only [addBlock, hstart] at h
    split at h
    · cases h
    · cases h
      simp [blockTxnAbort, hbatch, visible, hw]

theorem addBlock_error_of_batch {zeroCommit : Nat → RctKey} {db db' : Lmdb}
    {b : Tables.NewBlock} {e : DbException} (hbatch : db.batchActive = true)
    (h : db.addBlock zeroCommit b = (some e, db')) :
    Tables.addBlock zeroCommit b db.visible = .error e db'.visible := by
  have hstart : db.blockTxnStart = .ok db.visible := by simp [blockTxnStart, hbatch]
  simp only [addBlock, hstart] at h
  cases hrun : Tables.addBlock zeroCommit b db.visible with
  | ok u t => simp [hrun] at h
  | error e' t =>
    simp only [hrun, Prod.mk.injEq, Option.some.injEq] at h
    obtain ⟨rfl, rfl⟩ := h
    simp [blockTxnAbort, hbatch, visible]

/-- `add_block` has thrown: the tables that the following operations see are
those from before the call exactly if no batch is active or the exception came
before the first row. -/
theorem add_block_atomic_iff (zeroCommit : Nat → RctKey) (db db' : Lmdb) (b : Tables.NewBlock)
    (e : DbException) (h : db.addBlock zeroCommit b = (some e, db')) :
    db'.visible = db.visible ↔
      db.batchActive = false ∨ db.visible.Untouched b db.visible.spentKeys b.transactions := by
  cases hbatch : db.batchActive with
  | false => simp [addBlock_error_of_not_batch hbatch h]
  | true =>
    have huntouched : db'.visible = db.visible ↔
        db.visible.Untouched b db.visible.spentKeys b.transactions :=
      Tables.addBlock_untouched_iff zeroCommit (addBlock_error_of_batch hbatch h)
    simpa using huntouched

/-! ### Two transactions with one key image -/

def spendingTx (image : Nat) : Transaction :=
  { Transaction.null with vin := [.toKey 0 [] (numberedHash image)] }

def doubleSpend : Tables.NewBlock :=
  { blk :=
      { Block.ofHeader
          { majorVersion := 1, minorVersion := 0, timestamp := 0, prevId := nullHash, nonce := 0 } with
        minerTx := { Transaction.null with vin := [.gen 0] }
        txHashes := [numberedHash 2, numberedHash 3] }
    blkHash := nullHash
    minerTxHash := numberedHash 1
    blockSize := 0
    cumulativeDifficulty := 1
    coinsGenerated := 0
    txs := [spendingTx 7, spendingTx 7] }

def start (batch : Bool) : Lmdb :=
  { committed := .empty
    writeTxn := if batch then some .empty else none
    batchActive := batch
    batch_open := fun h => by simp [h] }

theorem add_block_atomic_iff_start :
    ∃ db', (start false).addBlock (fun _ => nullHash) doubleSpend = (some .keyImageExists, db') ∧
      (db'.visible = (start false).visible ↔ (start false).batchActive = false ∨
        (start false).visible.Untouched doubleSpend (start false).visible.spentKeys
          doubleSpend.transactions) := by
  have hfails : ((start false).addBlock (fun _ => nullHash) doubleSpend).1 =
    some .keyImageExists := by decide +kernel
  exact ⟨_, Prod.ext hfails rfl, add_block_atomic_iff _ _ _ _ _ (Prod.ext hfails rfl)⟩

/-- In a batch the miner transaction and the first spend stay. -/
theorem batch_keeps_partial_block :
    ∃ db', (start true).addBlock (fun _ => nullHash) doubleSpend = (some .keyImageExists, db') ∧
      numberedHash 1 ∈ db'.visible.txIndices ∧ numberedHash 7 ∈ db'.visible.spentKeys ∧
      db'.visible.blocks = [] ∧ db'.visible ≠ (start true).visible := by
  have hfails : ((start true).addBlock (fun _ => nullHash) doubleSpend).1 =
    some .keyImageExists := by decide +kernel
  refine ⟨_, Prod.ext hfails rfl, ?_⟩
  decide +kernel

end Lmdb

end Lethean
