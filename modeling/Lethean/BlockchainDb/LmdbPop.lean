import Lethean.Lib.Numbered
import Lethean.BlockchainDb.LmdbAtomic
import Lethean.CryptonoteBasic.BasicImpl
import Lethean.CryptonoteBasic.BlockSerialization

/-!
# Lethean.BlockchainDb.LmdbPop

`BlockchainDB::pop_block` on the tables, and that it undoes `add_block`.

Removal finds its rows by the ids that the tables themselves handed out: the
number of a transaction, of an output, of an output among those of its amount.
All of them are counted without a gap, and the rows are removed in the reverse
order of their insertion, so each step finds the row that was written last.

Blocks and transactions are read back from their blobs. The tables keep what was
serialized, and reading parses its blob.

Three things `add_block` accepts cannot be undone. A transaction with an input of
an unsupported type is skipped but stays listed in the block. The amount under
which an output is filed is decided by other conditions on the way in than on the
way out. And a blob does not always parse to what was written: a merge-mined block
loses its nonce.
-/

namespace Lethean

namespace Tables

open Numbered (rowAt deleteRow)

/-! ### Removing transactions -/

/-- `mdb_cursor_del` on a row of `output_amounts`; a key without rows is gone. -/
def deleteAmountRow (amounts : Finmap fun _ : Nat => List OutKey) (amount outIndex : Nat) :
    Finmap fun _ : Nat => List OutKey :=
  let rows := deleteRow OutKey.amountIndex ((amounts.lookup amount).getD []) outIndex
  if rows = [] then amounts.erase amount else amounts.insert amount rows

def removeOutput (amount outIndex : Nat) : Op Unit := do
  let t ← get
  match rowAt OutKey.amountIndex ((t.outputAmounts.lookup amount).getD []) outIndex with
  | none => throw .outputDne
  | some row =>
    if (rowAt OutTx.outputId t.outputTxs row.outputId).isNone then throw .dbError
    modify fun t =>
      { t with
        outputTxs := deleteRow OutTx.outputId t.outputTxs row.outputId
        outputAmounts := deleteAmountRow t.outputAmounts amount outIndex }

def removeOutputs : List (Nat × Nat) → Op Unit
  | [] => pure ()
  | (amount, outIndex) :: rest => do
    removeOutput amount outIndex
    removeOutputs rest

/-- `get_tx_amount_output_indices`. A missing row leaves the result undefined
in the source; here it is empty. -/
def getTxAmountOutputIndices (t : Tables) (txId : Nat) : List Nat :=
  ((rowAt Prod.fst t.txOutputs txId).map Prod.snd).getD []

/-- The amount under which `remove_tx_outputs` looks for an output. -/
def removedAmount (tx : Transaction) (output : TxOut) : Nat :=
  if 2 ≤ tx.version ∧ tx.isCoinbase then 0 else output.amount

/-- `remove_tx_outputs`: from the last output to the first. -/
def removeTxOutputs (txId : Nat) (tx : Transaction) : Op Unit := do
  let t ← get
  let indices := t.getTxAmountOutputIndices txId
  if indices = [] ∧ tx.vout ≠ [] then throw .dbError
  removeOutputs (tx.vout.zipIdx.map fun o => (removedAmount tx o.1, indices.getD o.2 0)).reverse

def removeTransactionData (txHash : Hash) (tx : Transaction) : Op Unit := do
  let t ← get
  match t.txIndices.lookup txHash with
  | none => throw .txDne
  | some tip =>
    if (rowAt Prod.fst t.txs tip.txId).isNone then throw .dbError
    modify fun t => { t with txs := deleteRow Prod.fst t.txs tip.txId }
    removeTxOutputs tip.txId tx
    modify fun t => { t with txOutputs := deleteRow Prod.fst t.txOutputs tip.txId }
    modify fun t => { t with txIndices := t.txIndices.erase txHash }

/-- `get_tx`. The row holds the blob of the transaction. -/
def getTx (txHash : Hash) : Op Transaction := do
  let t ← get
  match (t.txIndices.lookup txHash).bind fun tip => rowAt Prod.fst t.txs tip.txId with
  | none => throw .txDne
  | some row => orDbError (parseAndValidateTxFromBlob .null (txToBlob row.2))

/-- `remove_transaction`, which starts with `get_tx`; the transaction is the
result. -/
def removeTransaction (txHash : Hash) : Op Transaction := do
  let tx ← getTx txHash
  modify fun t => t.withSpent (t.spentKeys \ (images tx.vin).toFinset)
  removeTransactionData txHash tx
  pure tx

def removeTransactions : List Hash → Op (List Transaction)
  | [] => pure []
  | txHash :: rest => do
    let tx ← removeTransaction txHash
    let txs ← removeTransactions rest
    pure (tx :: txs)

/-! ### Removing blocks -/

def removeBlock : Op Unit := do
  let t ← get
  let top := t.blocks.length - 1
  if t.blocks.length = 0 then throw .blockDne
  match rowAt MdbBlockInfo.biHeight t.blockInfo top with
  | none => throw .blockDne
  | some bi =>
    if bi.biHash ∉ t.blockHeights then throw .dbError
    modify fun t => { t with blockHeights := t.blockHeights.erase bi.biHash }
    if (rowAt Prod.fst t.blocks top).isNone then throw .dbError
    modify fun t =>
      { t with
        blocks := deleteRow Prod.fst t.blocks top
        blockInfo := deleteRow MdbBlockInfo.biHeight t.blockInfo top }

/-- `get_top_block`. On an empty database it is a default block, and
`remove_block` throws. The row holds the blob of the block. -/
def getTopBlock : Op Block := do
  let t ← get
  match rowAt Prod.fst t.blocks (t.blocks.length - 1) with
  | none => throw .blockDne
  | some row => orDbError (parseAndValidateBlockFromBlob .null (blockToBlob row.2))

/-- `BlockchainDB::pop_block`: the block, and its transactions in the order in
which they are removed. -/
def popBlock (transactionHash : Transaction → Hash) : Op (Block × List Transaction) := do
  let blk ← getTopBlock
  removeBlock
  let txs ← removeTransactions blk.txHashes.reverse
  let _ ← removeTransaction (transactionHash blk.minerTx)
  pure (blk, txs)

/-! ### Rows of outputs -/

def rowsOf (t : Tables) (amount : Nat) : List OutKey := (t.outputAmounts.lookup amount).getD []

def targetKey : TxoutTarget → PublicKey
  | .toKey key => key
  | _ => nullBlob 32

structure StoredOutput where
  txHash : Hash
  localIndex : Nat
  amount : Nat
  key : PublicKey
  unlockTime : Nat
  height : Nat
  commitment : Option RctKey

/-- Its row of `output_amounts`. -/
def outputRow (t : Tables) (o : StoredOutput) : OutKey :=
  { amountIndex := (t.rowsOf o.amount).length
    outputId := t.outputTxs.length
    pubkey := o.key
    unlockTime := o.unlockTime
    height := o.height
    commitment := if o.amount = 0 then o.commitment else none }

def pushOutput (t : Tables) (o : StoredOutput) : Tables :=
  { t with
    outputTxs := t.outputTxs ++ [⟨t.outputTxs.length, o.txHash, o.localIndex⟩]
    outputAmounts := t.outputAmounts.insert o.amount (t.rowsOf o.amount ++ [t.outputRow o]) }

/-- The ids of the outputs are counted without a gap, and no amount is left
without rows. -/
structure OutputsNumbered (t : Tables) : Prop where
  outputTxs : Numbered OutTx.outputId t.outputTxs
  amounts : ∀ amount, Numbered OutKey.amountIndex (t.rowsOf amount)
  nonempty : ∀ amount, t.outputAmounts.lookup amount ≠ some []

theorem rowsOf_pushOutput (t : Tables) (o : StoredOutput) (amount : Nat) :
    (t.pushOutput o).rowsOf amount =
      if amount = o.amount then t.rowsOf amount ++ [t.outputRow o] else t.rowsOf amount := by
  unfold rowsOf pushOutput
  split
  · rename_i heq
    rw [heq, Finmap.lookup_insert, Option.getD_some, rowsOf]
  · rename_i hne
    rw [Finmap.lookup_insert_of_ne _ hne]

variable {t t' : Tables} {txHash : Hash} {zeroCommit : Nat → RctKey} {tx : Transaction}
  {indices : List Nat} {txs : List (Transaction × Hash)} {b : NewBlock}
  {transactionHash : Transaction → Hash}

theorem OutputsNumbered.pushOutput (h : t.OutputsNumbered) (o : StoredOutput) :
    (t.pushOutput o).OutputsNumbered where
  outputTxs := Numbered.concat_iff.mpr ⟨h.outputTxs, rfl⟩
  amounts := by
    intro amount
    rw [rowsOf_pushOutput]
    split
    · rename_i heq
      exact Numbered.concat_iff.mpr ⟨h.amounts amount, by rw [heq]; rfl⟩
    · exact h.amounts amount
  nonempty := by
    intro amount
    by_cases heq : amount = o.amount
    · rw [heq, Tables.pushOutput, Finmap.lookup_insert]
      simp
    · rw [Tables.pushOutput, Finmap.lookup_insert_of_ne _ heq]
      exact h.nonempty amount

theorem append_bind_inv {α β : Type} {key : α → Nat} {rows : List α} {row : α} {b : β}
    {f : List α → Op β} (h : (orDbError (append key rows row) >>= f) t = .ok b t') :
    f (rows ++ [row]) t = .ok b t' := by
  cases happend : append key rows row with
  | none =>
    rw [happend] at h
    cases h
  | some rows' =>
    rwa [happend, append_some happend] at h

/-- `add_output` adds one output. -/
theorem addOutput_inv {output : TxOut} {localIndex unlockTime index : Nat}
    {commitment : Option RctKey}
    (h : addOutput txHash output localIndex unlockTime commitment t = .ok index t') :
    index = (t.rowsOf output.amount).length ∧
      t' = t.pushOutput ⟨txHash, localIndex, output.amount, targetKey output.target, unlockTime,
        t.blocks.length, commitment⟩ := by
  unfold addOutput at h
  rw [Frame.get_bind] at h
  cases htarget : output.target with
  | toScript | toScripthash =>
    simp only [htarget] at h
    cases h
  | toKey key =>
    simp only [htarget] at h
    split at h
    · cases h
    replace h := append_bind_inv h
    rw [Frame.modify_bind] at h
    cases append_bind_inv h
    exact ⟨rfl, rfl⟩

/-- `remove_output` takes back the output that was added last. -/
theorem removeOutput_pushOutput (h : t.OutputsNumbered) (o : StoredOutput) :
    removeOutput o.amount (t.rowsOf o.amount).length (t.pushOutput o) = .ok () t := by
  have hrows : ((t.pushOutput o).outputAmounts.lookup o.amount).getD [] =
      t.rowsOf o.amount ++ [t.outputRow o] := by
    have h := rowsOf_pushOutput t o o.amount
    rwa [if_pos rfl] at h
  have hrow : rowAt OutKey.amountIndex (((t.pushOutput o).outputAmounts.lookup o.amount).getD [])
      (t.rowsOf o.amount).length = some (t.outputRow o) := by
    rw [hrows]
    exact (h.amounts o.amount).rowAt_last _ rfl
  have hid : rowAt OutTx.outputId (t.pushOutput o).outputTxs (t.outputRow o).outputId =
      some ⟨t.outputTxs.length, o.txHash, o.localIndex⟩ := h.outputTxs.rowAt_last _ rfl
  have hdelete : deleteRow OutTx.outputId (t.pushOutput o).outputTxs (t.outputRow o).outputId =
      t.outputTxs := h.outputTxs.deleteRow_last rfl
  have hamount : deleteAmountRow (t.pushOutput o).outputAmounts o.amount
      (t.rowsOf o.amount).length = t.outputAmounts := by
    rw [deleteAmountRow, hrows, (h.amounts o.amount).deleteRow_last rfl]
    refine Finmap.ext_lookup fun amount => ?_
    by_cases heq : amount = o.amount
    · subst heq
      split
      · rename_i hempty
        rw [Finmap.lookup_erase]
        cases hlookup : t.outputAmounts.lookup o.amount with
        | none => rfl
        | some rows =>
          rw [rowsOf, hlookup, Option.getD_some] at hempty
          exact absurd (hempty ▸ hlookup) (h.nonempty _)
      · rename_i hnonempty
        rw [Finmap.lookup_insert]
        cases hlookup : t.outputAmounts.lookup o.amount with
        | none =>
          rw [rowsOf, hlookup] at hnonempty
          exact absurd rfl hnonempty
        | some rows => rw [rowsOf, hlookup, Option.getD_some]
    · have hother : (t.pushOutput o).outputAmounts.lookup amount =
          t.outputAmounts.lookup amount := Finmap.lookup_insert_of_ne _ heq
      split
      · rw [Finmap.lookup_erase_ne heq, hother]
      · rw [Finmap.lookup_insert_of_ne _ heq, hother]
  simp only [removeOutput, Frame.get_bind, hrow, hid, Option.isNone_some, Bool.false_eq_true,
    if_false, Frame.modify_apply, hdelete, hamount]
  rfl

/-! ### Rows of transactions -/

/-- The outputs of a transaction as `add_transaction` stores them. -/
def storedOutput (zeroCommit : Nat → RctKey) (tx : Transaction) (txHash : Hash) (minerTx : Bool)
    (height : Nat) (o : TxOut × Nat) : StoredOutput :=
  let oc := outputOf zeroCommit tx minerTx o.2 o.1
  { txHash := txHash
    localIndex := o.2
    amount := oc.1.amount
    key := targetKey oc.1.target
    unlockTime := tx.unlockTime
    height := height
    commitment := oc.2 }

def pushOutputs (t : Tables) (os : List StoredOutput) : Tables := os.foldl pushOutput t

def indicesOf (t : Tables) : List StoredOutput → List Nat
  | [] => []
  | o :: os => (t.rowsOf o.amount).length :: (t.pushOutput o).indicesOf os

@[simp] theorem pushOutputs_nil (t : Tables) : t.pushOutputs [] = t := rfl

@[simp] theorem pushOutputs_cons (t : Tables) (o : StoredOutput) (os : List StoredOutput) :
    t.pushOutputs (o :: os) = (t.pushOutput o).pushOutputs os := rfl

theorem pushOutputs_concat (t : Tables) (os : List StoredOutput) (o : StoredOutput) :
    t.pushOutputs (os ++ [o]) = (t.pushOutputs os).pushOutput o := by
  simp [pushOutputs]

theorem length_indicesOf (t : Tables) (os : List StoredOutput) :
    (t.indicesOf os).length = os.length := by
  induction os generalizing t with
  | nil => rfl
  | cons o os ih => simp [indicesOf, ih]

theorem indicesOf_concat (t : Tables) (os : List StoredOutput) (o : StoredOutput) :
    t.indicesOf (os ++ [o]) = t.indicesOf os ++ [((t.pushOutputs os).rowsOf o.amount).length] := by
  induction os generalizing t with
  | nil => rfl
  | cons o' os ih => simp [indicesOf, ih]

theorem OutputsNumbered.pushOutputs (h : t.OutputsNumbered) (os : List StoredOutput) :
    (t.pushOutputs os).OutputsNumbered := by
  induction os generalizing t with
  | nil => exact h
  | cons o os ih => exact ih (h.pushOutput o)

theorem pushOutputs_rest (t : Tables) (os : List StoredOutput) :
    t.pushOutputs os =
      { t with
        outputTxs := (t.pushOutputs os).outputTxs
        outputAmounts := (t.pushOutputs os).outputAmounts } := by
  induction os generalizing t with
  | nil => rfl
  | cons o os ih =>
    rw [pushOutputs_cons, ih]
    rfl

theorem pushOutputs_congr (t t' : Tables) (htxs : t'.outputTxs = t.outputTxs)
    (hamounts : t'.outputAmounts = t.outputAmounts) (os : List StoredOutput) :
    (t'.pushOutputs os).outputTxs = (t.pushOutputs os).outputTxs ∧
      (t'.pushOutputs os).outputAmounts = (t.pushOutputs os).outputAmounts ∧
      t'.indicesOf os = t.indicesOf os := by
  induction os generalizing t t' with
  | nil => exact ⟨htxs, hamounts, rfl⟩
  | cons o os ih =>
    have hrows : ∀ amount, t'.rowsOf amount = t.rowsOf amount := by simp [rowsOf, hamounts]
    obtain ⟨h1, h2, h3⟩ := ih (t.pushOutput o) (t'.pushOutput o)
      (by simp [pushOutput, htxs]) (by simp [pushOutput, outputRow, hrows, htxs, hamounts])
    exact ⟨h1, h2, by rw [indicesOf, indicesOf, h3, hrows]⟩

theorem addOutputs_inv {minerTx : Bool} {outs : List (TxOut × Nat)}
    (h : addOutputs zeroCommit tx txHash minerTx outs t = .ok indices t') :
    t' = t.pushOutputs (outs.map (storedOutput zeroCommit tx txHash minerTx t.blocks.length)) ∧
      indices = t.indicesOf
        (outs.map (storedOutput zeroCommit tx txHash minerTx t.blocks.length)) := by
  induction outs generalizing t indices with
  | nil =>
    cases h
    exact ⟨rfl, rfl⟩
  | cons out outs ih =>
    change (addOutput txHash (outputOf zeroCommit tx minerTx out.2 out.1).1 out.2 tx.unlockTime
      (outputOf zeroCommit tx minerTx out.2 out.1).2 >>= fun index =>
        addOutputs zeroCommit tx txHash minerTx outs >>= fun rest => pure (index :: rest)) t =
          _ at h
    obtain ⟨index, t1, hadd, h⟩ := Frame.bind_eq_ok.mp h
    obtain ⟨rest, t2, hrest, h⟩ := Frame.bind_eq_ok.mp h
    cases h
    obtain ⟨hindex, ht1⟩ := addOutput_inv hadd
    obtain ⟨ht', hrest'⟩ := ih hrest
    have hblocks : t1.blocks.length = t.blocks.length := by rw [ht1]; rfl
    rw [hblocks] at ht' hrest'
    rw [ht', hrest', hindex, ht1]
    exact ⟨rfl, rfl⟩

theorem removeOutputs_pushOutputs (h : t.OutputsNumbered) (os : List StoredOutput) :
    removeOutputs ((os.map (·.amount)).zip (t.indicesOf os)).reverse (t.pushOutputs os) =
      .ok () t := by
  induction os using List.reverseRecOn with
  | nil => rfl
  | append_singleton os o ih =>
    have hzip : ((os ++ [o]).map (·.amount)).zip (t.indicesOf (os ++ [o])) =
        (os.map (·.amount)).zip (t.indicesOf os) ++
          [(o.amount, ((t.pushOutputs os).rowsOf o.amount).length)] := by
      rw [List.map_append, indicesOf_concat, List.zip_append (by simp [length_indicesOf])]
      rfl
    rw [hzip, List.reverse_append, List.reverse_singleton, List.singleton_append, removeOutputs,
      pushOutputs_concat, Frame.bind_ok (removeOutput_pushOutput (h.pushOutputs os) o), ih]

/-- Does a transaction have an input of type `txin_gen`? -/
def hasGen (vin : List TxIn) : Bool :=
  vin.any fun i =>
    match i with
    | .gen _ => true
    | _ => false

theorem spendInputs_minerTx {vin rest : List TxIn} {m m' : Bool} {spent spent' : Finset KeyImage}
    (h : spendInputs vin rest m spent = (.done m', spent')) : m' = (m || hasGen rest) := by
  induction rest generalizing m spent with
  | nil =>
    cases h
    simp [hasGen]
  | cons i rest ih =>
    cases i with
    | gen height =>
      rw [ih h]
      simp [hasGen]
    | toKey amount offsets kImage =>
      rw [spendInputs] at h
      split at h
      · cases h
      · rw [ih h]
        simp [hasGen]
    | toScript | toScripthash => cases h

def storedOutputs (zeroCommit : Nat → RctKey) (tx : Transaction) (txHash : Hash) (height : Nat) :
    List StoredOutput :=
  tx.vout.zipIdx.map (storedOutput zeroCommit tx txHash (hasGen tx.vin) height)

def pushTx (zeroCommit : Nat → RctKey) (t : Tables) (tx : Transaction) (txHash : Hash) : Tables :=
  let os := storedOutputs zeroCommit tx txHash t.blocks.length
  { t with
    txs := t.txs ++ [(t.txs.length, tx)]
    txIndices := t.txIndices.insert txHash ⟨t.txs.length, tx.unlockTime, t.blocks.length⟩
    txOutputs := t.txOutputs ++ [(t.txs.length, t.indicesOf os)]
    outputTxs := (t.pushOutputs os).outputTxs
    outputAmounts := (t.pushOutputs os).outputAmounts
    spentKeys := t.spentKeys ∪ (images tx.vin).toFinset }

theorem addTxData_inv {txId : Nat} (h : addTransactionData tx txHash t = .ok txId t') :
    txHash ∉ t.txIndices ∧ txId = t.txs.length ∧
      t' = { t with
        txIndices := t.txIndices.insert txHash ⟨t.txs.length, tx.unlockTime, t.blocks.length⟩
        txs := t.txs ++ [(t.txs.length, tx)] } := by
  unfold addTransactionData at h
  rw [Frame.get_bind] at h
  dsimp only at h
  split at h
  · cases h
  rename_i hnew
  rw [Frame.modify_bind] at h
  cases append_bind_inv h
  exact ⟨hnew, rfl, rfl⟩

theorem addTxAmountOutputIndices_inv {txId : Nat}
    (h : addTxAmountOutputIndices txId indices t = .ok () t') :
    t' = { t with txOutputs := t.txOutputs ++ [(txId, indices)] } := by
  unfold addTxAmountOutputIndices at h
  rw [Frame.get_bind] at h
  cases append_bind_inv h
  rfl

theorem addTransaction_inv (h : addTransaction zeroCommit tx txHash t = .ok () t')
    (hsupported : ∀ i ∈ tx.vin, Supported i) :
    Spends tx.vin t.spentKeys ∧ txHash ∉ t.txIndices ∧
      t' = t.pushTx zeroCommit tx txHash := by
  have happly := addTransaction_apply zeroCommit tx txHash t t.spentKeys
  change addTransaction zeroCommit tx txHash t = _ at happly
  rw [happly] at h
  rcases exists_spends tx.vin t.spentKeys with
    hspends | ⟨front, i, back, hvin, hfront, hi | ⟨amount, offsets, kImage, rfl, hk⟩⟩
  · obtain ⟨minerTx, hdone⟩ := spendInputs_done hspends
    obtain rfl : minerTx = hasGen tx.vin := by simpa using spendInputs_minerTx hdone
    rw [hdone] at h
    obtain ⟨txId, t1, hdata, h⟩ := Frame.bind_eq_ok.mp h
    obtain ⟨indices, t2, houts, h⟩ := Frame.bind_eq_ok.mp h
    obtain ⟨hnew, rfl, ht1⟩ := addTxData_inv hdata
    have hblocks : t1.blocks = t.blocks := by rw [ht1]; rfl
    obtain ⟨ht2, hindices⟩ := addOutputs_inv houts
    rw [hblocks] at ht2 hindices
    obtain ⟨htxs, hamounts, hindices'⟩ := pushOutputs_congr t t1
      (by rw [ht1]; rfl) (by rw [ht1]; rfl) (storedOutputs zeroCommit tx txHash t.blocks.length)
    refine ⟨hspends, hnew, ?_⟩
    rw [addTxAmountOutputIndices_inv h, ht2, pushOutputs_rest, hindices, pushTx, ← htxs,
      ← hamounts, ← hindices', ht1]
    rfl
  · exact absurd (hsupported i (by rw [hvin]; simp)) hi
  · rw [spends_imageExists hvin hfront hk] at h
    cases h

/-- An output is filed under the amount under which it is looked for. -/
def FiledAsRemoved (tx : Transaction) : Prop :=
  ∀ output ∈ tx.vout, output.amount ≠ 0 →
    (hasGen tx.vin = true ∧ tx.version = 2 ↔ 2 ≤ tx.version ∧ tx.isCoinbase)

instance (tx : Transaction) : Decidable (FiledAsRemoved tx) :=
  inferInstanceAs (Decidable (∀ output ∈ tx.vout, output.amount ≠ 0 →
    (hasGen tx.vin = true ∧ tx.version = 2 ↔ 2 ≤ tx.version ∧ tx.isCoinbase)))

structure WellNumbered (t : Tables) : Prop extends OutputsNumbered t where
  blocks : Numbered Prod.fst t.blocks
  blockInfo : Numbered MdbBlockInfo.biHeight t.blockInfo
  blockInfo_length : t.blockInfo.length = t.blocks.length
  txs : Numbered Prod.fst t.txs
  txOutputs : Numbered Prod.fst t.txOutputs
  txOutputs_length : t.txOutputs.length = t.txs.length

/-- The amounts of the stored outputs are those `remove_tx_outputs` computes. -/
theorem FiledAsRemoved.amount_eq (h : FiledAsRemoved tx) {output : TxOut}
    (houtput : output ∈ tx.vout) (zeroCommit : Nat → RctKey) (i : Nat) :
    (outputOf zeroCommit tx (hasGen tx.vin) i output).1.amount = removedAmount tx output := by
  have h := h output houtput
  unfold outputOf removedAmount
  by_cases hzero : output.amount = 0
  · split <;> simp [hzero]
  · simp only [h hzero]
    split <;> rfl

theorem FiledAsRemoved.amounts_eq (h : FiledAsRemoved tx) (zeroCommit : Nat → RctKey)
    (txHash : Hash) (height : Nat) (hlength : indices.length = tx.vout.length) :
    tx.vout.zipIdx.map (fun o => (removedAmount tx o.1, indices.getD o.2 0)) =
      ((storedOutputs zeroCommit tx txHash height).map (·.amount)).zip indices := by
  refine List.ext_getElem (by simp [storedOutputs, hlength]) fun i hi hi' => ?_
  have hivout : i < tx.vout.length := by simpa using hi
  simp [storedOutputs, storedOutput, h.amount_eq, hlength, hivout]

/-- `remove_tx_outputs` takes back the outputs of the transaction that was added
last. The rows of the transaction itself may be there or not. -/
theorem WellNumbered.removeTxOutputs_pushOutputs {t0 : Tables} (h : t.WellNumbered)
    (hfiled : FiledAsRemoved tx) {height : Nat} (hamounts : t0.outputAmounts = t.outputAmounts)
    (houtputTxs : t0.outputTxs = t.outputTxs) (htxOutputs : t0.txOutputs = t.txOutputs ++
      [(t.txs.length, t.indicesOf (storedOutputs zeroCommit tx txHash height))]) :
    removeTxOutputs t.txs.length tx
      (t0.pushOutputs (storedOutputs zeroCommit tx txHash height)) = .ok () t0 := by
  set os := storedOutputs zeroCommit tx txHash height with hos
  have hrows : t0.rowsOf = t.rowsOf := by
    funext amount
    rw [rowsOf, rowsOf, hamounts]
  have hnumbered : t0.OutputsNumbered :=
    ⟨houtputTxs ▸ h.outputTxs, hrows ▸ h.amounts, hamounts ▸ h.nonempty⟩
  have hindices : t0.indicesOf os = t.indicesOf os :=
    (pushOutputs_congr t t0 houtputTxs hamounts os).2.2
  have hlength : (t0.indicesOf os).length = tx.vout.length := by
    simp [length_indicesOf, hos, storedOutputs]
  have hget : (t0.pushOutputs os).getTxAmountOutputIndices t.txs.length = t0.indicesOf os := by
    rw [getTxAmountOutputIndices, pushOutputs_rest]
    rw [htxOutputs, ← h.txOutputs_length,
      h.txOutputs.rowAt_last (t.txOutputs.length, t.indicesOf os) rfl, hindices]
    rfl
  have hguard : ¬ (t0.indicesOf os = [] ∧ tx.vout ≠ []) := by
    rintro ⟨hnil, hvout⟩
    rw [hnil] at hlength
    exact hvout (List.length_eq_zero_iff.mp hlength.symm)
  rw [removeTxOutputs, Frame.get_bind, hget, if_neg hguard,
    hfiled.amounts_eq zeroCommit txHash height hlength]
  exact removeOutputs_pushOutputs hnumbered os

theorem erase_insert {α : Type} {m : Finmap fun _ : Hash => α} {a : α} (h : txHash ∉ m) :
    (m.insert txHash a).erase txHash = m := by
  refine Finmap.ext_lookup fun key => ?_
  by_cases heq : key = txHash
  · rw [heq, Finmap.lookup_erase, Finmap.lookup_eq_none.mpr h]
  · rw [Finmap.lookup_erase_ne heq, Finmap.lookup_insert_of_ne _ heq]

theorem WellNumbered.removeTxData_pushTx (h : t.WellNumbered) (hfiled : FiledAsRemoved tx)
    (hnew : txHash ∉ t.txIndices) :
    removeTransactionData txHash tx ((t.pushTx zeroCommit tx txHash).withSpent t.spentKeys) =
      .ok () t := by
  set os := storedOutputs zeroCommit tx txHash t.blocks.length with hos
  -- once the row of `txs` is gone, what is left are the outputs on top of `t0`
  let t0 : Tables :=
    { t with
      txIndices := t.txIndices.insert txHash ⟨t.txs.length, tx.unlockTime, t.blocks.length⟩
      txOutputs := t.txOutputs ++ [(t.txs.length, t.indicesOf os)] }
  obtain ⟨houtputTxs, hamounts, -⟩ := pushOutputs_congr t t0 rfl rfl os
  have hlookup : ((t.pushTx zeroCommit tx txHash).withSpent t.spentKeys).txIndices.lookup txHash =
      some ⟨t.txs.length, tx.unlockTime, t.blocks.length⟩ := Finmap.lookup_insert _
  have hrow : rowAt Prod.fst ((t.pushTx zeroCommit tx txHash).withSpent t.spentKeys).txs
      t.txs.length = some (t.txs.length, tx) := h.txs.rowAt_last _ rfl
  have hrest : { (t.pushTx zeroCommit tx txHash).withSpent t.spentKeys with
      txs := deleteRow Prod.fst (t.pushTx zeroCommit tx txHash).txs t.txs.length } =
        t0.pushOutputs os := by
    have hdelete : deleteRow Prod.fst (t.pushTx zeroCommit tx txHash).txs t.txs.length = t.txs :=
      h.txs.deleteRow_last rfl
    rw [pushOutputs_rest, hdelete, houtputTxs, hamounts]
    rfl
  have houts : removeTxOutputs t.txs.length tx (t0.pushOutputs os) = .ok () t0 :=
    h.removeTxOutputs_pushOutputs hfiled rfl rfl rfl
  have htxOutputs : deleteRow Prod.fst (t.txOutputs ++ [(t.txs.length, t.indicesOf os)])
      t.txs.length = t.txOutputs := by
    rw [← h.txOutputs_length]
    exact h.txOutputs.deleteRow_last rfl
  rw [removeTransactionData, Frame.get_bind, hlookup]
  simp only [hrow, Option.isNone_some, Bool.false_eq_true, if_false]
  rw [Frame.modify_bind]
  refine (congrArg _ hrest).trans ?_
  rw [Frame.bind_ok houts, Frame.modify_bind, Frame.modify_apply]
  dsimp only [t0]
  rw [htxOutputs, erase_insert hnew]

/-- A transaction that `add_block` stores and `pop_block` finds again. -/
structure Storable (tx : Transaction) : Prop where
  supported : ∀ i ∈ tx.vin, Supported i
  filedAsRemoved : FiledAsRemoved tx
  parses : parseAndValidateTxFromBlob .null (txToBlob tx) = some tx

instance (tx : Transaction) : Decidable (Storable tx) :=
  decidable_of_iff ((∀ i ∈ tx.vin, Supported i) ∧ FiledAsRemoved tx ∧
      parseAndValidateTxFromBlob .null (txToBlob tx) = some tx)
    ⟨fun h => ⟨h.1, h.2.1, h.2.2⟩, fun h => ⟨h.supported, h.filedAsRemoved, h.parses⟩⟩

/-- `remove_transaction` takes back the transaction that was added last. -/
theorem WellNumbered.removeTx_pushTx (h : t.WellNumbered) (hstorable : Storable tx)
    (hspends : Spends tx.vin t.spentKeys) (hnew : txHash ∉ t.txIndices) :
    removeTransaction txHash (t.pushTx zeroCommit tx txHash) = .ok tx t := by
  have hget : getTx txHash (t.pushTx zeroCommit tx txHash) =
      .ok tx (t.pushTx zeroCommit tx txHash) := by
    have hrow := h.txs.rowAt_last (t.txs.length, tx) rfl
    rw [getTx, Frame.get_bind]
    simp only [pushTx, Finmap.lookup_insert, Option.bind_some, hrow, hstorable.parses]
    rfl
  have hspent : (t.spentKeys ∪ (images tx.vin).toFinset) \ (images tx.vin).toFinset =
      t.spentKeys := by
    refine Finset.union_sdiff_cancel_right (Finset.disjoint_right.mpr fun k hk => ?_)
    exact hspends.unspent k (List.mem_toFinset.mp hk)
  rw [removeTransaction, Frame.bind_ok hget]
  change (removeTransactionData txHash tx >>= fun _ => pure tx)
    ((t.pushTx zeroCommit tx txHash).withSpent
      ((t.spentKeys ∪ (images tx.vin).toFinset) \ (images tx.vin).toFinset)) = _
  rw [hspent, Frame.bind_ok (h.removeTxData_pushTx hstorable.filedAsRemoved hnew)]
  rfl

theorem WellNumbered.pushTx (h : t.WellNumbered) (zeroCommit : Nat → RctKey) (tx : Transaction)
    (txHash : Hash) : (t.pushTx zeroCommit tx txHash).WellNumbered where
  toOutputsNumbered := by
    have hos := h.toOutputsNumbered.pushOutputs (storedOutputs zeroCommit tx txHash t.blocks.length)
    exact ⟨hos.outputTxs, hos.amounts, hos.nonempty⟩
  blocks := h.blocks
  blockInfo := h.blockInfo
  blockInfo_length := h.blockInfo_length
  txs := Numbered.concat_iff.mpr ⟨h.txs, rfl⟩
  txOutputs := Numbered.concat_iff.mpr ⟨h.txOutputs, h.txOutputs_length.symm⟩
  txOutputs_length := by simp [Tables.pushTx, h.txOutputs_length]

def pushTxs (zeroCommit : Nat → RctKey) (t : Tables) (txs : List (Transaction × Hash)) : Tables :=
  txs.foldl (fun t tx => t.pushTx zeroCommit tx.1 tx.2) t

/-- Each of them is new to the tables, and so are the key images it spends. -/
def NewTxs (zeroCommit : Nat → RctKey) (t : Tables) : List (Transaction × Hash) → Prop
  | [] => True
  | (tx, txHash) :: rest =>
    (Spends tx.vin t.spentKeys ∧ txHash ∉ t.txIndices) ∧
      NewTxs zeroCommit (t.pushTx zeroCommit tx txHash) rest

theorem addTransactions_inv (h : addTransactions zeroCommit txs t = .ok () t')
    (hstorable : ∀ tx ∈ txs, Storable tx.1) :
    NewTxs zeroCommit t txs ∧ t' = t.pushTxs zeroCommit txs := by
  induction txs generalizing t with
  | nil =>
    cases h
    exact ⟨trivial, rfl⟩
  | cons tx txs ih =>
    obtain ⟨_, t1, hadd, hrest⟩ := Frame.bind_eq_ok.mp h
    obtain ⟨hspends, hnew, rfl⟩ :=
      addTransaction_inv hadd (hstorable tx (List.mem_cons_self ..)).supported
    obtain ⟨hnews, rfl⟩ := ih hrest fun tx' htx' => hstorable tx' (List.mem_cons_of_mem _ htx')
    exact ⟨⟨⟨hspends, hnew⟩, hnews⟩, rfl⟩

theorem WellNumbered.pushTxs (h : t.WellNumbered) (zeroCommit : Nat → RctKey)
    (txs : List (Transaction × Hash)) : (t.pushTxs zeroCommit txs).WellNumbered := by
  induction txs generalizing t with
  | nil => exact h
  | cons tx txs ih => exact ih (h.pushTx zeroCommit tx.1 tx.2)

theorem removeTxs_concat {hashes : List Hash} {txs : List Transaction} {t1 t2 : Tables}
    (hfirst : removeTransactions hashes t = .ok txs t1)
    (hlast : removeTransaction txHash t1 = .ok tx t2) :
    removeTransactions (hashes ++ [txHash]) t = .ok (txs ++ [tx]) t2 := by
  induction hashes generalizing t txs with
  | nil =>
    cases hfirst
    rw [List.nil_append, removeTransactions, Frame.bind_ok hlast]
    rfl
  | cons first hashes ih =>
    obtain ⟨tx0, t0, hremove, hfirst⟩ := Frame.bind_eq_ok.mp hfirst
    obtain ⟨txs0, t0', hrest, hfirst⟩ := Frame.bind_eq_ok.mp hfirst
    cases hfirst
    rw [List.cons_append, removeTransactions, Frame.bind_ok hremove, Frame.bind_ok (ih hrest)]
    rfl

theorem WellNumbered.removeTxs_pushTxs (h : t.WellNumbered)
    (hnew : t.NewTxs zeroCommit txs) (hstorable : ∀ tx ∈ txs, Storable tx.1) :
    removeTransactions (txs.map Prod.snd).reverse (t.pushTxs zeroCommit txs) =
      .ok (txs.map Prod.fst).reverse t := by
  induction txs generalizing t with
  | nil => rfl
  | cons tx txs ih =>
    obtain ⟨⟨hspends, htxHash⟩, hnews⟩ := hnew
    rw [List.map_cons, List.reverse_cons, List.map_cons, List.reverse_cons]
    refine removeTxs_concat (ih (h.pushTx zeroCommit tx.1 tx.2) hnews ?_) ?_
    · exact fun tx' htx' => hstorable tx' (List.mem_cons_of_mem _ htx')
    · exact h.removeTx_pushTx (hstorable tx (List.mem_cons_self ..))
        hspends htxHash

/-! ### Rows of blocks -/

/-- The row of `block_info`. -/
def NewBlock.blockInfo (b : NewBlock) (height : Nat) : MdbBlockInfo :=
  ⟨height, b.blk.timestamp, b.coinsGenerated, b.blockSize, b.cumulativeDifficulty, b.blkHash⟩

def pushBlock (t : Tables) (b : NewBlock) : Tables :=
  { t with
    blocks := t.blocks ++ [(t.blocks.length, b.blk)]
    blockInfo := t.blockInfo ++ [b.blockInfo t.blocks.length]
    blockHeights := t.blockHeights.insert b.blkHash t.blocks.length }

theorem WellNumbered.pushBlock (h : t.WellNumbered) (b : NewBlock) :
    (t.pushBlock b).WellNumbered where
  toOutputsNumbered := ⟨h.outputTxs, h.amounts, h.nonempty⟩
  blocks := Numbered.concat_iff.mpr ⟨h.blocks, rfl⟩
  blockInfo := Numbered.concat_iff.mpr ⟨h.blockInfo, h.blockInfo_length.symm⟩
  blockInfo_length := by simp [Tables.pushBlock, h.blockInfo_length]
  txs := h.txs
  txOutputs := h.txOutputs
  txOutputs_length := h.txOutputs_length

theorem addBlockRows_inv
    (h : addBlockRows b.blk b.blockSize b.cumulativeDifficulty b.coinsGenerated b.blkHash t =
      .ok () t') : b.blkHash ∉ t.blockHeights ∧ t' = t.pushBlock b := by
  unfold addBlockRows at h
  rw [Frame.get_bind] at h
  cases hrefused : t.blockRefused b.blk b.blkHash with
  | some e =>
    simp only [hrefused] at h
    cases h
  | none =>
    simp only [hrefused] at h
    have hnew : b.blkHash ∉ t.blockHeights := (blockRefused_eq_none_iff.mp hrefused).1
    replace h := append_bind_inv h
    rw [Frame.modify_bind] at h
    cases append_bind_inv h
    exact ⟨hnew, rfl⟩

/-- `remove_block` takes back the block that was added last. -/
theorem WellNumbered.removeBlock_pushBlock (h : t.WellNumbered)
    (hnew : b.blkHash ∉ t.blockHeights) : removeBlock (t.pushBlock b) = .ok () t := by
  have hlength : (t.pushBlock b).blocks.length - 1 = t.blocks.length := by simp [Tables.pushBlock]
  have hinfo : rowAt MdbBlockInfo.biHeight (t.pushBlock b).blockInfo t.blocks.length =
      some (b.blockInfo t.blocks.length) := by
    have hlast := h.blockInfo.rowAt_last (b.blockInfo t.blocks.length) h.blockInfo_length.symm
    rwa [h.blockInfo_length] at hlast
  have hblock : rowAt Prod.fst (t.pushBlock b).blocks t.blocks.length =
      some (t.blocks.length, b.blk) := h.blocks.rowAt_last _ rfl
  have hdeleteInfo : deleteRow MdbBlockInfo.biHeight (t.pushBlock b).blockInfo t.blocks.length =
      t.blockInfo := by
    rw [← h.blockInfo_length]
    exact h.blockInfo.deleteRow_last h.blockInfo_length.symm
  have hdeleteBlock : deleteRow Prod.fst (t.pushBlock b).blocks t.blocks.length = t.blocks :=
    h.blocks.deleteRow_last rfl
  have hnonempty : ¬ (t.pushBlock b).blocks.length = 0 := by simp [Tables.pushBlock]
  have hmem : (b.blockInfo t.blocks.length).biHash ∈ (t.pushBlock b).blockHeights := by
    simp [Tables.pushBlock, NewBlock.blockInfo]
  have herase : (t.pushBlock b).blockHeights.erase (b.blockInfo t.blocks.length).biHash =
      t.blockHeights := erase_insert hnew
  simp only [removeBlock, Frame.get_bind, hlength, hnonempty, if_false, hinfo, hmem, not_true,
    hblock, Option.isNone_some, Bool.false_eq_true, Frame.modify_bind, Frame.modify_apply,
    hdeleteInfo, hdeleteBlock, herase]
  rfl

/-- A block that parses back to itself and whose transactions can be stored, with one
transaction for each hash it lists. -/
structure NewBlock.Storable (transactionHash : Transaction → Hash) (b : NewBlock) : Prop where
  parses : parseAndValidateBlockFromBlob .null (blockToBlob b.blk) = some b.blk
  minerTx : Tables.Storable b.blk.minerTx
  txs : ∀ tx ∈ b.txs, Tables.Storable tx
  minerTxHash : b.minerTxHash = transactionHash b.blk.minerTx
  length_txs : b.txs.length = b.blk.txHashes.length

theorem NewBlock.Storable.transactions_eq (h : b.Storable transactionHash) :
    b.transactions = (b.blk.minerTx, b.minerTxHash) :: b.txs.zip b.blk.txHashes := by
  refine congrArg _ (List.ext_getElem (by simp [h.length_txs]) fun i hi hi' => ?_)
  have hhash : i < b.blk.txHashes.length := by simpa [h.length_txs] using hi
  simp [hhash]

theorem NewBlock.Storable.transactions (h : b.Storable transactionHash) :
    ∀ tx ∈ b.transactions, Tables.Storable tx.1 := by
  intro tx htx
  rw [h.transactions_eq, List.mem_cons] at htx
  rcases htx with rfl | htx
  · exact h.minerTx
  · exact h.txs tx.1 (List.of_mem_zip htx).1

/-- `pop_block` undoes `add_block`. -/
theorem WellNumbered.popBlock_addBlock (h : t.WellNumbered) (hstorable : b.Storable transactionHash)
    (hadd : addBlock zeroCommit b t = .ok () t') :
    popBlock transactionHash t' = .ok (b.blk, b.txs.reverse) t := by
  obtain ⟨_, t1, htxs, hblock⟩ := Frame.bind_eq_ok.mp hadd
  have htransactions := hstorable.transactions
  have hlength := hstorable.length_txs
  obtain ⟨hnews, rfl⟩ := addTransactions_inv htxs htransactions
  obtain ⟨hheight, rfl⟩ := addBlockRows_inv hblock
  set t1 := t.pushTxs zeroCommit b.transactions with ht1
  have hnumbered : t1.WellNumbered := h.pushTxs zeroCommit b.transactions
  have htop : getTopBlock (t1.pushBlock b) = .ok b.blk (t1.pushBlock b) := by
    have hrow : rowAt Prod.fst (t1.pushBlock b).blocks t1.blocks.length =
        some (t1.blocks.length, b.blk) := hnumbered.blocks.rowAt_last _ rfl
    have hlength : (t1.pushBlock b).blocks.length - 1 = t1.blocks.length := by
      simp [Tables.pushBlock]
    rw [getTopBlock, Frame.get_bind, hlength, hrow]
    simp only [hstorable.parses]
    rfl
  rw [hstorable.transactions_eq] at hnews htransactions ht1
  obtain ⟨⟨hspends, hnew⟩, hnews⟩ := hnews
  have hremove : removeTransactions b.blk.txHashes.reverse t1 =
      .ok b.txs.reverse (t.pushTx zeroCommit b.blk.minerTx b.minerTxHash) := by
    have hlist := (h.pushTx zeroCommit b.blk.minerTx b.minerTxHash).removeTxs_pushTxs
      hnews fun tx htx => htransactions tx (List.mem_cons_of_mem _ htx)
    rw [List.map_snd_zip hlength.ge, List.map_fst_zip hlength.le] at hlist
    rwa [ht1]
  have hminer : removeTransaction (transactionHash b.blk.minerTx)
      (t.pushTx zeroCommit b.blk.minerTx b.minerTxHash) = .ok b.blk.minerTx t := by
    rw [← hstorable.minerTxHash]
    exact h.removeTx_pushTx hstorable.minerTx hspends hnew
  rw [popBlock, Frame.bind_ok htop, Frame.bind_ok (hnumbered.removeBlock_pushBlock hheight),
    Frame.bind_ok hremove,
    Frame.bind_ok hminer]
  rfl

end Tables

end Lethean
