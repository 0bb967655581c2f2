import Lethean.BlockchainDb.LmdbPop

/-!
# Lethean.BlockchainDb.LmdbRuns

The tables after any number of `add_block` and `pop_block`. What was popped
leaves no trace, so the tables are always those of some blocks added one after
the other, and what their indices say is shown row by row: for one more
transaction, and for the rows of one more block.
-/

namespace Lethean

namespace Tables

open Numbered (rowAt)

/-! ### Runs -/

section

variable (zeroCommit : Nat → RctKey) (transactionHash : Transaction → Hash)

/-- The tables that successful calls of `add_block` and `pop_block` lead to. -/
inductive Run : Tables → Prop
  | empty : Run Tables.empty
  | addBlock {t t' : Tables} {b : NewBlock} : Run t → b.Storable transactionHash →
      Tables.addBlock zeroCommit b t = .ok () t' → Run t'
  | popBlock {t t' : Tables} {popped : Block × List Transaction} : Run t →
      Tables.popBlock transactionHash t = .ok popped t' → Run t'

/-- The tables that `add_block` alone leads to. -/
inductive Stored : Tables → Prop
  | empty : Stored Tables.empty
  | addBlock {t t' : Tables} {b : NewBlock} : Stored t → b.Storable transactionHash →
      Tables.addBlock zeroCommit b t = .ok () t' → Stored t'

end

variable {zeroCommit : Nat → RctKey} {transactionHash : Transaction → Hash} {t : Tables}

theorem wellNumbered_empty : Tables.empty.WellNumbered where
  outputTxs := Numbered.nil
  amounts := by
    intro amount
    rw [rowsOf, Tables.empty, Finmap.lookup_empty]
    exact Numbered.nil
  nonempty := by
    intro amount
    rw [Tables.empty, Finmap.lookup_empty]
    simp
  blocks := Numbered.nil
  blockInfo := Numbered.nil
  blockInfo_length := rfl
  txs := Numbered.nil
  txOutputs := Numbered.nil
  txOutputs_length := rfl

/-- What holds of the empty tables, and is kept by the rows of a transaction and
by those of a block, holds of all tables. -/
theorem Stored.induction {P : Tables → Prop} (hempty : P Tables.empty)
    (htx : ∀ t tx txHash, t.WellNumbered → P t → Spends tx.vin t.spentKeys →
      txHash ∉ t.txIndices → P (t.pushTx zeroCommit tx txHash))
    (hblock : ∀ t b, P t → P (t.pushBlock b))
    (h : Stored zeroCommit transactionHash t) : t.WellNumbered ∧ P t := by
  have htxs : ∀ (txs : List (Transaction × Hash)) (t : Tables), t.WellNumbered → P t →
      t.NewTxs zeroCommit txs → P (t.pushTxs zeroCommit txs) := by
    intro txs
    induction txs with
    | nil => exact fun _ _ hP _ => hP
    | cons tx txs ih =>
      rintro t hnumbered hP ⟨⟨hspends, hnew⟩, hnews⟩
      exact ih _ (hnumbered.pushTx zeroCommit tx.1 tx.2)
        (htx t tx.1 tx.2 hnumbered hP hspends hnew) hnews
  induction h with
  | empty => exact ⟨wellNumbered_empty, hempty⟩
  | addBlock _ hstorable hadd ih =>
    obtain ⟨hnumbered, hP⟩ := ih
    obtain ⟨_, t1, hadds, hrows⟩ := Frame.bind_eq_ok.mp hadd
    obtain ⟨hnews, rfl⟩ := addTransactions_inv hadds hstorable.transactions
    obtain ⟨-, rfl⟩ := addBlockRows_inv hrows
    exact ⟨(hnumbered.pushTxs zeroCommit _).pushBlock _, hblock _ _ (htxs _ _ hnumbered hP hnews)⟩

theorem Stored.wellNumbered (h : Stored zeroCommit transactionHash t) : t.WellNumbered :=
  (h.induction (P := fun _ => True) trivial (fun _ _ _ _ _ _ _ => trivial) fun _ _ _ => trivial).1

/-- A run leads to tables that `add_block` alone leads to: what is popped is what
was added last. -/
theorem Run.stored (h : Run zeroCommit transactionHash t) :
    Stored zeroCommit transactionHash t := by
  induction h with
  | empty => exact .empty
  | addBlock _ hstorable hadd ih => exact .addBlock ih hstorable hadd
  | popBlock _ hpop ih =>
    cases ih with
    | empty => cases hpop
    | addBlock hbefore hstorable hadd =>
      have hback := hbefore.wellNumbered.popBlock_addBlock hstorable hadd
      rw [hback] at hpop
      cases hpop
      exact hbefore

/-! ### Spent keys -/

def storedImages (t : Tables) : List KeyImage := t.txs.flatMap fun row => images row.2.vin

/-- `spent_keys` has the key images of the stored transactions and no others,
and no key image belongs to two inputs. -/
structure SpentExactly (t : Tables) : Prop where
  spentKeys_eq : t.spentKeys = t.storedImages.toFinset
  nodup : t.storedImages.Nodup

theorem storedImages_pushTx (zeroCommit : Nat → RctKey) (t : Tables) (tx : Transaction)
    (txHash : Hash) :
    (t.pushTx zeroCommit tx txHash).storedImages = t.storedImages ++ images tx.vin := by
  simp [storedImages, pushTx]

theorem SpentExactly.pushTx (h : t.SpentExactly) {tx : Transaction}
    (hspends : Spends tx.vin t.spentKeys) (txHash : Hash) :
    (t.pushTx zeroCommit tx txHash).SpentExactly where
  spentKeys_eq := by
    rw [storedImages_pushTx, List.toFinset_append, ← h.spentKeys_eq]
    rfl
  nodup := by
    rw [storedImages_pushTx]
    refine h.nodup.append hspends.nodup fun k hstored hk => hspends.unspent k hk ?_
    rw [h.spentKeys_eq]
    exact List.mem_toFinset.mpr hstored

theorem Stored.spentExactly (h : Stored zeroCommit transactionHash t) : t.SpentExactly :=
  (h.induction ⟨rfl, List.nodup_nil⟩
    (fun _ _ txHash _ hspent hspends _ => hspent.pushTx hspends txHash)
    fun _ _ hspent => ⟨hspent.spentKeys_eq, hspent.nodup⟩).2

/-! ### Output indices -/

/-- Output `i` of the transaction is stored under the amount, with the index
among its outputs and the key. -/
def StoredAt (t : Tables) (txHash : Hash) (i amount index : Nat) (key : PublicKey) : Prop :=
  ∃ row ∈ t.rowsOf amount, row.amountIndex = index ∧ row.pubkey = key ∧
    ⟨row.outputId, txHash, i⟩ ∈ t.outputTxs

/-- The rows of `output_amounts` refer to rows of `output_txs`. -/
def RowsLinked (t : Tables) : Prop :=
  ∀ amount, ∀ row ∈ t.rowsOf amount, row.outputId < t.outputTxs.length

theorem RowsLinked.pushOutput (h : t.RowsLinked) (o : StoredOutput) :
    (t.pushOutput o).RowsLinked := by
  intro amount row hrow
  have hlength : (t.pushOutput o).outputTxs.length = t.outputTxs.length + 1 := by
    simp [Tables.pushOutput]
  rw [rowsOf_pushOutput] at hrow
  split at hrow
  · rcases List.mem_append.mp hrow with hold | hnew
    · have := h amount row hold
      omega
    · rw [List.mem_singleton.mp hnew, hlength]
      exact Nat.lt_succ_self _
  · have := h amount row hrow
    omega

theorem RowsLinked.pushOutputs (h : t.RowsLinked) (os : List StoredOutput) :
    (t.pushOutputs os).RowsLinked := by
  induction os generalizing t with
  | nil => exact h
  | cons o os ih => exact ih (h.pushOutput o)

theorem storedAt_pushOutput (hnumbered : t.OutputsNumbered) (hlinked : t.RowsLinked)
    (o : StoredOutput) {txHash : Hash} {i amount index : Nat} {key : PublicKey} :
    (t.pushOutput o).StoredAt txHash i amount index key ↔
      t.StoredAt txHash i amount index key ∨
        ((t.rowsOf o.amount).length = index ∧ o.txHash = txHash ∧ o.localIndex = i ∧
          o.amount = amount ∧ o.key = key) := by
  have hmem : ∀ id, ⟨id, txHash, i⟩ ∈ (t.pushOutput o).outputTxs ↔
      ⟨id, txHash, i⟩ ∈ t.outputTxs ∨
        (id = t.outputTxs.length ∧ txHash = o.txHash ∧ i = o.localIndex) := by
    simp [Tables.pushOutput]
  have hrow : ∀ row, row ∈ (t.pushOutput o).rowsOf amount ↔
      row ∈ t.rowsOf amount ∨ (amount = o.amount ∧ row = t.outputRow o) := by
    intro row
    rw [rowsOf_pushOutput]
    split <;> simp [*]
  constructor
  · rintro ⟨row, hin, rfl, rfl, hout⟩
    rcases (hrow row).mp hin with hold | ⟨rfl, rfl⟩
    · rcases (hmem _).mp hout with hout | ⟨hid, -⟩
      · exact .inl ⟨row, hold, rfl, rfl, hout⟩
      · exact absurd hid (hlinked amount row hold).ne
    · rcases (hmem _).mp hout with hout | ⟨-, rfl, rfl⟩
      · exact absurd (hnumbered.outputTxs.key_lt hout) (Nat.lt_irrefl _)
      · exact .inr ⟨rfl, rfl, rfl, rfl, rfl⟩
  · rintro (⟨row, hold, rfl, rfl, hout⟩ | ⟨rfl, rfl, rfl, rfl, rfl⟩)
    · exact ⟨row, (hrow row).mpr (.inl hold), rfl, rfl, (hmem _).mpr (.inl hout)⟩
    · exact ⟨t.outputRow o, (hrow _).mpr (.inr ⟨rfl, rfl⟩), rfl, rfl,
        (hmem _).mpr (.inr ⟨rfl, rfl, rfl⟩)⟩

theorem storedAt_pushOutputs (hnumbered : t.OutputsNumbered) (hlinked : t.RowsLinked)
    (os : List StoredOutput) {txHash : Hash} {i amount index : Nat} {key : PublicKey} :
    (t.pushOutputs os).StoredAt txHash i amount index key ↔
      t.StoredAt txHash i amount index key ∨
        ∃ o, (o, index) ∈ os.zip (t.indicesOf os) ∧ o.txHash = txHash ∧ o.localIndex = i ∧
          o.amount = amount ∧ o.key = key := by
  induction os generalizing t with
  | nil => simp
  | cons o os ih =>
    rw [pushOutputs_cons, ih (hnumbered.pushOutput o) (hlinked.pushOutput o),
      storedAt_pushOutput hnumbered hlinked, indicesOf, List.zip_cons_cons, or_assoc]
    refine or_congr_right ⟨?_, ?_⟩
    · rintro (⟨rfl, ho⟩ | ⟨o', hmem, ho'⟩)
      · exact ⟨o, List.mem_cons_self .., ho⟩
      · exact ⟨o', List.mem_cons_of_mem _ hmem, ho'⟩
    · rintro ⟨o', hmem, ho'⟩
      rcases List.mem_cons.mp hmem with heq | hmem
      · obtain ⟨rfl, rfl⟩ := Prod.mk.inj heq
        exact .inl ⟨rfl, ho'⟩
      · exact .inr ⟨o', hmem, ho'⟩

def storedAmount (tx : Transaction) (output : TxOut) : Nat :=
  if hasGen tx.vin ∧ tx.version = 2 then 0 else output.amount

/-- `indices` lists where the outputs of the transaction are stored. -/
def ListsOutputs (indices : List Nat) (tx : Transaction) (i amount index : Nat)
    (key : PublicKey) : Prop :=
  ∃ output, tx.vout[i]? = some output ∧ storedAmount tx output = amount ∧
    targetKey output.target = key ∧ indices[i]? = some index

theorem storedOutputs_listsOutputs {tx : Transaction} {txHash txHash' : Hash} {height : Nat}
    {indices : List Nat} {i amount index : Nat} {key : PublicKey} :
    (∃ o, (o, index) ∈ (storedOutputs zeroCommit tx txHash height).zip indices ∧
      o.txHash = txHash' ∧ o.localIndex = i ∧ o.amount = amount ∧ o.key = key) ↔
        txHash = txHash' ∧ ListsOutputs indices tx i amount index key := by
  have hamount : ∀ j output, (storedOutput zeroCommit tx txHash (hasGen tx.vin) height
      (output, j)).amount = storedAmount tx output := by
    intro j output
    simp only [storedOutput, outputOf, storedAmount]
    split <;> rfl
  have hkey : ∀ j output, (storedOutput zeroCommit tx txHash (hasGen tx.vin) height
      (output, j)).key = targetKey output.target := by
    intro j output
    simp only [storedOutput, outputOf]
    split <;> rfl
  constructor
  · rintro ⟨o, hmem, rfl, rfl, rfl, rfl⟩
    obtain ⟨j, hj⟩ := List.mem_iff_getElem?.mp hmem
    obtain ⟨ho, hindex⟩ := List.getElem?_zip_eq_some.mp hj
    obtain ⟨output, hout, rfl⟩ : ∃ output, tx.vout[j]? = some output ∧
        storedOutput zeroCommit tx txHash (hasGen tx.vin) height (output, j) = o := by
      simpa [storedOutputs] using ho
    exact ⟨rfl, output, hout, (hamount j output).symm, (hkey j output).symm, hindex⟩
  · rintro ⟨rfl, output, hout, rfl, rfl, hindex⟩
    refine ⟨storedOutput zeroCommit tx txHash (hasGen tx.vin) height (output, i), ?_, rfl, rfl,
      hamount i output, hkey i output⟩
    refine List.mem_iff_getElem?.mpr ⟨i, List.getElem?_zip_eq_some.mpr ⟨?_, hindex⟩⟩
    simp [storedOutputs, hout]

/-- The indices of `output_amounts`, `tx_outputs` and `tx_indices` agree. The
outputs of an amount are counted without a gap, a hash leads to a transaction
and a transaction has a hash, and what `get_tx_amount_output_indices` returns
lists the outputs of the transaction where they are stored. -/
structure OutputsIndexed (t : Tables) : Prop where
  amounts : ∀ amount, Numbered OutKey.amountIndex (t.rowsOf amount)
  hash_of_tx : ∀ row ∈ t.txs, ∃ txHash tip, t.txIndices.lookup txHash = some tip ∧
    tip.txId = row.1
  hash_of_output : ∀ txHash i amount index key, t.StoredAt txHash i amount index key →
    txHash ∈ t.txIndices
  indices : ∀ txHash tip, t.txIndices.lookup txHash = some tip →
    ∃ tx, (tip.txId, tx) ∈ t.txs ∧
      (t.getTxAmountOutputIndices tip.txId).length = tx.vout.length ∧
      ∀ i amount index key, t.StoredAt txHash i amount index key ↔
        ListsOutputs (t.getTxAmountOutputIndices tip.txId) tx i amount index key

section

variable (zeroCommit : Nat → RctKey) (hnumbered : t.WellNumbered) (hlinked : t.RowsLinked)
  (tx : Transaction) (txHash : Hash)

include hnumbered

theorem amountIndices_pushTx :
    (t.pushTx zeroCommit tx txHash).getTxAmountOutputIndices t.txs.length =
      t.indicesOf (storedOutputs zeroCommit tx txHash t.blocks.length) := by
  have hrow : rowAt Prod.fst (t.pushTx zeroCommit tx txHash).txOutputs t.txs.length =
      some (t.txs.length, t.indicesOf (storedOutputs zeroCommit tx txHash t.blocks.length)) := by
    have hlast := hnumbered.txOutputs.rowAt_last
      (t.txs.length, t.indicesOf (storedOutputs zeroCommit tx txHash t.blocks.length))
      hnumbered.txOutputs_length.symm
    rwa [hnumbered.txOutputs_length] at hlast
  rw [getTxAmountOutputIndices, hrow]
  rfl

theorem amountIndices_pushTx_of_lt {txId : Nat} (h : txId < t.txs.length) :
    (t.pushTx zeroCommit tx txHash).getTxAmountOutputIndices txId =
      t.getTxAmountOutputIndices txId := by
  have hnumbered' := (hnumbered.pushTx zeroCommit tx txHash).txOutputs
  rw [getTxAmountOutputIndices, hnumbered'.rowAt_eq, getTxAmountOutputIndices,
    hnumbered.txOutputs.rowAt_eq, pushTx, List.getElem?_append_left]
  rwa [hnumbered.txOutputs_length]

include hlinked

theorem storedAt_pushTx {txHash' : Hash} {i amount index : Nat} {key : PublicKey} :
    (t.pushTx zeroCommit tx txHash).StoredAt txHash' i amount index key ↔
      t.StoredAt txHash' i amount index key ∨
        (txHash = txHash' ∧ ListsOutputs ((t.pushTx zeroCommit tx txHash).getTxAmountOutputIndices
          t.txs.length) tx i amount index key) := by
  rw [amountIndices_pushTx zeroCommit hnumbered, ← storedOutputs_listsOutputs]
  exact storedAt_pushOutputs hnumbered.toOutputsNumbered hlinked _

end

theorem OutputsIndexed.pushTx (h : t.OutputsIndexed) (hnumbered : t.WellNumbered)
    (hlinked : t.RowsLinked) {txHash : Hash} (hnew : txHash ∉ t.txIndices) (tx : Transaction) :
    (t.pushTx zeroCommit tx txHash).OutputsIndexed where
  amounts := (hnumbered.pushTx zeroCommit tx txHash).amounts
  hash_of_tx := by
    intro row hrow
    rcases List.mem_append.mp hrow with hold | hlast
    · obtain ⟨txHash', tip, hlookup, htip⟩ := h.hash_of_tx row hold
      refine ⟨txHash', tip, ?_, htip⟩
      have hne : txHash' ≠ txHash := by
        rintro rfl
        exact hnew (Finmap.mem_of_lookup_eq_some hlookup)
      rw [Tables.pushTx, Finmap.lookup_insert_of_ne _ hne, hlookup]
    · rw [List.mem_singleton.mp hlast]
      exact ⟨txHash, _, Finmap.lookup_insert _, rfl⟩
  hash_of_output := by
    intro txHash' i amount index key hstored
    rcases (storedAt_pushTx zeroCommit hnumbered hlinked tx txHash).mp hstored with hold | ⟨rfl, -⟩
    · exact Finmap.mem_insert.mpr (.inr (h.hash_of_output txHash' i amount index key hold))
    · exact Finmap.mem_insert.mpr (.inl rfl)
  indices := by
    intro txHash' tip hlookup
    by_cases heq : txHash' = txHash
    · subst heq
      rw [Tables.pushTx, Finmap.lookup_insert] at hlookup
      cases hlookup
      refine ⟨tx, List.mem_append_right _ (List.mem_singleton_self _), ?_, ?_⟩
      · rw [amountIndices_pushTx zeroCommit hnumbered, length_indicesOf, storedOutputs]
        simp
      · intro i amount index key
        rw [storedAt_pushTx zeroCommit hnumbered hlinked,
          or_iff_right fun hold => hnew (h.hash_of_output _ i amount index key hold),
          and_iff_right rfl]
    · rw [Tables.pushTx, Finmap.lookup_insert_of_ne _ heq] at hlookup
      obtain ⟨tx', hmem, hlength, hiff⟩ := h.indices txHash' tip hlookup
      have hid := amountIndices_pushTx_of_lt zeroCommit hnumbered tx txHash
        (hnumbered.txs.key_lt hmem)
      refine ⟨tx', List.mem_append_left _ hmem, by rw [hid, hlength], ?_⟩
      intro i amount index key
      rw [storedAt_pushTx zeroCommit hnumbered hlinked, hid, ← hiff,
        or_iff_left fun hnow => heq hnow.1.symm]

theorem not_storedAt_empty (txHash : Hash) (i amount index : Nat) (key : PublicKey) :
    ¬ Tables.empty.StoredAt txHash i amount index key := by
  rintro ⟨row, hrow, -, -, hout⟩
  cases hout

theorem Stored.outputsIndexed (h : Stored zeroCommit transactionHash t) : t.OutputsIndexed := by
  refine (h.induction (P := fun t => t.RowsLinked ∧ t.OutputsIndexed) ⟨?_, ?_⟩ ?_ ?_).2.2
  · intro amount row hrow
    rw [rowsOf, Tables.empty, Finmap.lookup_empty] at hrow
    cases hrow
  · refine ⟨wellNumbered_empty.amounts, by rintro row ⟨⟩, ?_, ?_⟩
    · intro txHash i amount index key hstored
      exact absurd hstored (not_storedAt_empty txHash i amount index key)
    · intro txHash tip hlookup
      rw [Tables.empty, Finmap.lookup_empty] at hlookup
      cases hlookup
  · rintro t tx txHash hnumbered ⟨hlinked, hindexed⟩ - hnew
    exact ⟨hlinked.pushOutputs (storedOutputs zeroCommit tx txHash t.blocks.length),
      hindexed.pushTx hnumbered hlinked hnew tx⟩
  · rintro t b ⟨hlinked, hindexed⟩
    exact ⟨hlinked, ⟨hindexed.amounts, hindexed.hash_of_tx, hindexed.hash_of_output,
      hindexed.indices⟩⟩

/-! ### Storage and removal -/

/-- In every run of `add_block` and `pop_block` over blocks that can be stored,
`pop_block` undoes `add_block`, and the indices are right. -/
theorem storage_consistent (h : Run zeroCommit transactionHash t) :
    (∀ b t', b.Storable transactionHash → addBlock zeroCommit b t = .ok () t' →
      popBlock transactionHash t' = .ok (b.blk, b.txs.reverse) t) ∧
    t.SpentExactly ∧ t.OutputsIndexed := by
  refine ⟨?_, h.stored.spentExactly, h.stored.outputsIndexed⟩
  intro b t' hstorable hadd
  exact h.stored.wellNumbered.popBlock_addBlock hstorable hadd

/-! ### A transaction that is skipped -/

def unlockHash (tx : Transaction) : Hash := numberedHash tx.unlockTime

/-- A block of height `n` with one transaction besides the coinbase. -/
def blockWith (n : Nat) (tx : Transaction) : NewBlock :=
  { blk :=
      { Block.ofHeader
          { majorVersion := 1, minorVersion := 0, timestamp := 0, prevId := numberedHash (n + 9),
            nonce := 0 } with
        minerTx :=
          { Transaction.null with
            unlockTime := n
            vin := [.gen n]
            vout := [⟨5, .toKey (numberedHash n)⟩]
            signatures := [[]] }
        txHashes := [unlockHash tx] }
    blkHash := numberedHash (n + 10)
    minerTxHash := numberedHash n
    blockSize := 0
    cumulativeDifficulty := 1
    coinsGenerated := 0
    txs := [tx] }

def spendsSeven : Transaction :=
  { Transaction.null with
    unlockTime := 5
    vin := [.toKey 5 [0] (numberedHash 7)]
    vout := [⟨3, .toKey (numberedHash 1)⟩, ⟨3, .toKey (numberedHash 2)⟩]
    signatures := [[default]] }

/-- One that spends it again, after an input of an unsupported type. -/
def spendsSevenAfterScript : Transaction :=
  { Transaction.null with
    unlockTime := 6
    vin := [.toScript nullHash 0 [], .toKey 5 [0] (numberedHash 7)] }

def afterSpend : Tables :=
  Frame.final (addBlock (fun _ => nullHash) (blockWith 0 spendsSeven) .empty)

theorem addBlock_spendsSeven :
    addBlock (fun _ => nullHash) (blockWith 0 spendsSeven) .empty = .ok () afterSpend :=
  Frame.eq_ok_final (by decide +kernel)

theorem storage_consistent_after_spend :
    Run (fun _ => nullHash) unlockHash afterSpend ∧
      (∀ b t', b.Storable unlockHash →
        addBlock (fun _ => nullHash) b afterSpend = .ok () t' →
          popBlock unlockHash t' = .ok (b.blk, b.txs.reverse) afterSpend) ∧
      afterSpend.SpentExactly ∧ afterSpend.OutputsIndexed := by
  have hstorable : (blockWith 0 spendsSeven).Storable unlockHash :=
    ⟨by decide +kernel, by decide +kernel, by decide +kernel, rfl, rfl⟩
  have hrun : Run (fun _ => nullHash) unlockHash afterSpend :=
    .addBlock .empty hstorable addBlock_spendsSeven
  exact ⟨hrun, storage_consistent hrun⟩

/-- The second spend is skipped and takes the key image of the first out of
`spent_keys`. The block that lists it cannot be popped. -/
theorem skipped_transaction_unspends :
    ∃ t t', addBlock (fun _ => nullHash) (blockWith 0 spendsSeven) .empty = .ok () afterSpend ∧
      addBlock (fun _ => nullHash) (blockWith 1 spendsSevenAfterScript) afterSpend = .ok () t ∧
      numberedHash 7 ∈ t.storedImages ∧ numberedHash 7 ∉ t.spentKeys ∧
      popBlock unlockHash t = .error .txDne t' := by
  refine ⟨_, _, addBlock_spendsSeven, Frame.eq_ok_final ?_, ?_, ?_, Frame.eq_error_final ?_⟩
  · decide +kernel
  · decide +kernel
  · decide +kernel
  · decide +kernel

end Tables

end Lethean
