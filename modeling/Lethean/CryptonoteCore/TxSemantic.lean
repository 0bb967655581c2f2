import Lethean.CryptonoteCore.Emission

/-!
# Lethean.CryptonoteCore.TxSemantic

`core::check_tx_semantic`: what a transaction must satisfy before the node looks
at the chain. From version 6 on this includes a check that no ring uses an
output twice. The check reads the relative offsets, the ring is made of their
running sums in 64-bit arithmetic: a sum that passes `2 ^ 64` can come back to
a member it has named before.
-/

namespace Lethean

/-- What `check_tx_semantic` calls and is not embedded here. -/
structure SemanticEnv where
  checkKey : PublicKey → Bool
  /-- `scalarmultKey(k_image, curveOrder()) == identity()` -/
  keyImageInDomain : KeyImage → Bool
  /-- `verRct(rv, true)` -/
  verRct : RctSig → Bool
  /-- `verRctSimple(rv, true)` -/
  verRctSimple : RctSig → Bool
  /-- `get_object_blobsize` -/
  blobSize : Transaction → Nat

def SemanticEnv.permissive : SemanticEnv :=
  { checkKey := fun _ => true
    keyImageInDomain := fun _ => true
    verRct := fun _ => true
    verRctSimple := fun _ => true
    blobSize := fun _ => 0 }

namespace Transaction

def checkTxInputsKeyimagesDiff (tx : Transaction) : Bool :=
  tx.checkInputsTypesSupported && tx.keyImages.Nodup

/-- `check_tx_inputs_ring_members_diff`, at the current hard-fork version. -/
def checkTxInputsRingMembersDiff (version : Nat) (tx : Transaction) : Bool :=
  version < 6 ||
    tx.vin.all fun i => i.keyOffsets?.any fun keyOffsets => keyOffsets.tail.all (· ≠ 0)

def checkTxInputsKeyimagesDomain (env : SemanticEnv) (tx : Transaction) : Bool :=
  tx.vin.all fun i => i.keyImage?.any env.keyImageInDomain

def sizeOk (env : SemanticEnv) (blocksizeLimit : Nat) (keptByBlock : Bool) (tx : Transaction) :
    Bool :=
  keptByBlock || env.blobSize tx < subU64 (u64 (blocksizeLimit * 50)) coinbaseBlobReservedSize

def rctSemanticOk (env : SemanticEnv) (tx : Transaction) : Bool :=
  if tx.version < 2 then true
  else if tx.rctSignatures.type = rctTypeSimple then env.verRctSimple tx.rctSignatures
  else if tx.rctSignatures.type = rctTypeFull then env.verRct tx.rctSignatures
  else false

/-- `check_tx_semantic`. The inputs are known to be of type `txin_to_key` where
`get_inputs_money_amount` is called, so it does not fail. -/
def checkTxSemantic (env : SemanticEnv) (version blocksizeLimit : Nat) (keptByBlock : Bool)
    (tx : Transaction) : Bool :=
  !tx.vin.isEmpty &&
  tx.checkInputsTypesSupported &&
  tx.checkOutsValid env.checkKey &&
  (tx.version ≤ 1 || tx.rctSignatures.outPk.length = tx.vout.length) &&
  tx.checkMoneyOverflow &&
  (tx.version ≠ 1 || tx.getOutsMoneyAmount ≤ tx.getInputsMoneyAmount.getD 0) &&
  tx.sizeOk env blocksizeLimit keptByBlock &&
  tx.checkTxInputsKeyimagesDiff &&
  tx.checkTxInputsRingMembersDiff version &&
  tx.checkTxInputsKeyimagesDomain env &&
  tx.rctSemanticOk env

end Transaction

/-! ### Running sums -/

/-- The offsets between the members `i` and `j` of a ring, added up. -/
def gap (keyOffsets : List Nat) (i j : Nat) : Nat :=
  ((keyOffsets.drop (i + 1)).take (j - i)).sum

theorem length_absoluteFrom (sum : Nat) (off : List Nat) :
    (absoluteFrom sum off).length = off.length := by
  induction off generalizing sum with
  | nil => rfl
  | cons x off ih => simp [absoluteFrom, ih]

@[simp] theorem length_absolute (off : List Nat) :
    (relativeOutputOffsetsToAbsolute off).length = off.length := by
  cases off with
  | nil => rfl
  | cons x off => simp [relativeOutputOffsetsToAbsolute, length_absoluteFrom]

theorem getElem?_absoluteFrom (sum : Nat) (off : List Nat) (j : Nat) (hj : j < off.length) :
    (absoluteFrom sum off)[j]? = some (u64 (sum + (off.take (j + 1)).sum)) := by
  induction off generalizing sum j with
  | nil => cases hj
  | cons x off ih =>
    cases j with
    | zero => simp [absoluteFrom, Nat.add_comm]
    | succ j =>
      rw [absoluteFrom, List.getElem?_cons_succ, ih _ j (by simpa using hj)]
      simp only [u64, List.take_succ_cons, List.sum_cons, Nat.mod_add_mod]
      congr 2
      omega

theorem getElem?_absolute {off : List Nat} (hoff : ∀ x ∈ off, x < 2 ^ 64)
    {j : Nat} (hj : j < off.length) :
    (relativeOutputOffsetsToAbsolute off)[j]? = some (u64 (off.take (j + 1)).sum) := by
  cases off with
  | nil => cases hj
  | cons x off =>
    cases j with
    | zero => simp [relativeOutputOffsetsToAbsolute, u64_of_lt (hoff x (by simp))]
    | succ j =>
      rw [relativeOutputOffsetsToAbsolute, List.getElem?_cons_succ,
        getElem?_absoluteFrom _ _ _ (by simpa using hj)]
      simp

theorem sum_take_eq_add_gap (off : List Nat) {i j : Nat} (hij : i ≤ j) :
    (off.take (j + 1)).sum = (off.take (i + 1)).sum + gap off i j := by
  rw [gap, ← List.sum_append, show j + 1 = i + 1 + (j - i) by omega, List.take_add]

theorem u64_add_eq_iff (a d : Nat) : u64 a = u64 (a + d) ↔ d % 2 ^ 64 = 0 := by
  unfold u64
  omega

/-- **Distinct ring members.** No two members coincide exactly when no run of
offsets adds up to a multiple of `2 ^ 64`. -/
theorem nodup_absolute_iff {off : List Nat} (hoff : ∀ x ∈ off, x < 2 ^ 64) :
    (relativeOutputOffsetsToAbsolute off).Nodup ↔
      ∀ i j, i < j → j < off.length → gap off i j % 2 ^ 64 ≠ 0 := by
  rw [List.nodup_iff_getElem?_ne_getElem?]
  simp only [length_absolute]
  constructor
  · intro h i j hij hj hgap
    refine h i j hij hj ?_
    rw [getElem?_absolute hoff (hij.trans hj),
      getElem?_absolute hoff hj, sum_take_eq_add_gap off hij.le,
      (u64_add_eq_iff _ _).mpr hgap]
  · intro h i j hij hj heq
    rw [getElem?_absolute hoff (hij.trans hj),
      getElem?_absolute hoff hj, sum_take_eq_add_gap off hij.le] at heq
    exact h i j hij hj ((u64_add_eq_iff _ _).mp (Option.some.inj heq))

/-! ### What the check adds -/

namespace Transaction

variable {env : SemanticEnv} {version blocksizeLimit : Nat} {keptByBlock : Bool} {tx : Transaction}

/-- From version 6 on the check rules out sums of one offset. -/
theorem offset_ne_zero_of_checkTxSemantic (hversion : 6 ≤ version)
    (h : tx.checkTxSemantic env version blocksizeLimit keptByBlock = true) {i : TxIn}
    (hi : i ∈ tx.vin) {keyOffsets : List Nat} (hoff : i.keyOffsets? = some keyOffsets) :
    ∀ x ∈ keyOffsets.tail, x ≠ 0 := by
  have hdiff : tx.checkTxInputsRingMembersDiff version = true := by
    simp only [checkTxSemantic, Bool.and_eq_true] at h
    exact h.1.1.2
  rw [checkTxInputsRingMembersDiff, decide_eq_false (Nat.not_lt.mpr hversion),
    Bool.false_or] at hdiff
  have hin := List.all_eq_true.mp hdiff i hi
  rw [hoff, Option.any_some] at hin
  intro x hx
  simpa using List.all_eq_true.mp hin x hx

/-- **Ring members of a checked transaction.** For every input of a transaction
that passes the check at version 6 or later: its ring members are distinct
exactly when no two or more consecutive offsets add up to a multiple of
`2 ^ 64`. -/
theorem ring_members_distinct_iff (hversion : 6 ≤ version)
    (hsemantic : tx.checkTxSemantic env version blocksizeLimit keptByBlock = true) {i : TxIn}
    (hi : i ∈ tx.vin) {keyOffsets : List Nat} (hoff : i.keyOffsets? = some keyOffsets)
    (hrange : ∀ x ∈ keyOffsets, x < 2 ^ 64) :
    (relativeOutputOffsetsToAbsolute keyOffsets).Nodup ↔
      ∀ m n, m + 2 ≤ n → n < keyOffsets.length → gap keyOffsets m n % 2 ^ 64 ≠ 0 := by
  have hne := offset_ne_zero_of_checkTxSemantic hversion hsemantic hi hoff
  rw [nodup_absolute_iff hrange]
  constructor
  · intro h m n hmn hn
    exact h m n (by omega) hn
  · intro h m n hmn hn
    rcases Nat.lt_or_ge n (m + 2) with hnext | hfar
    · -- neighbours: the gap is one offset, which the check has seen
      obtain rfl : n = m + 1 := by omega
      have hgap : gap keyOffsets m (m + 1) = keyOffsets[m + 1] := by
        rw [gap, show m + 1 - m = 1 by omega, List.take_one, List.head?_drop,
          List.getElem?_eq_getElem hn]
        simp
      have hmem : keyOffsets[m + 1] ∈ keyOffsets.tail := by
        rw [← List.getElem_tail (by rw [List.length_tail]; omega)]
        exact List.getElem_mem _
      have hlt := hrange _ (List.getElem_mem hn)
      have := hne _ hmem
      rw [hgap, Nat.mod_eq_of_lt hlt]
      exact this
    · exact h m n hfar hn

def ringTx (keyOffsets : List Nat) : Transaction :=
  { Transaction.null with
    vin := [.toKey 10 keyOffsets (nullBlob 32)]
    vout := [⟨10, .toKey (nullBlob 32)⟩] }

/-- A ring of three members, with offsets that do not wrap. -/
theorem ring_members_distinct_iff_three :
    (ringTx [5, 1, 7]).checkTxSemantic .permissive 6 20000 false = true ∧
    ((relativeOutputOffsetsToAbsolute [5, 1, 7]).Nodup ↔
      ∀ m n, m + 2 ≤ n → n < 3 → gap [5, 1, 7] m n % 2 ^ 64 ≠ 0) := by
  have hsemantic : (ringTx [5, 1, 7]).checkTxSemantic .permissive 6 20000 false = true := by
    decide +kernel
  exact ⟨hsemantic, ring_members_distinct_iff le_rfl hsemantic (List.mem_singleton.mpr rfl) rfl
    (by decide)⟩

/-- The offsets 5, 1, `2 ^ 64 - 1` pass, and name output 5 twice. -/
theorem ring_member_named_twice :
    (ringTx [5, 1, 2 ^ 64 - 1]).checkTxSemantic .permissive 6 20000 false = true ∧
    relativeOutputOffsetsToAbsolute [5, 1, 2 ^ 64 - 1] = [5, 6, 5] := by
  decide +kernel

/-! ### Money -/

def getTxFee (tx : Transaction) : Option Nat :=
  if 1 < tx.version then some tx.rctSignatures.txnFee
  else tx.getInputsMoneyAmount.bind fun amountIn =>
    if amountIn < tx.getOutsMoneyAmount then none else some (amountIn - tx.getOutsMoneyAmount)

def inputSum (tx : Transaction) : Nat := (tx.vin.filterMap TxIn.amount?).sum

/-- **A version 1 transaction creates no money**, if it passes the check, and both ways to
compute its fee give what it spends more than it pays. -/
theorem version_1_creates_no_money (hversion : tx.version = 1)
    (hins : ∀ i ∈ tx.vin, ∀ amount ∈ i.amount?, amount < 2 ^ 64)
    (houts : ∀ o ∈ tx.vout, o.amount < 2 ^ 64)
    (h : tx.checkTxSemantic env version blocksizeLimit keptByBlock = true) :
    tx.outputSum ≤ tx.inputSum ∧ TxPool.feeOf tx = some (tx.inputSum - tx.outputSum) ∧
      tx.getTxFee = some (tx.inputSum - tx.outputSum) := by
  simp only [checkTxSemantic, checkMoneyOverflow, Bool.and_eq_true, Bool.or_eq_true,
    decide_eq_true_eq, hversion, ne_eq, not_true_eq_false, false_or] at h
  obtain ⟨⟨⟨⟨⟨⟨⟨-, hins', houts'⟩, hle⟩, -⟩, -⟩, -⟩, -⟩, -⟩ := h
  obtain ⟨hout, -⟩ := getOutsMoneyAmount_eq houts houts'
  have hin : tx.getInputsMoneyAmount = some tx.inputSum := by
    simpa [getInputsMoneyAmount, inputSum] using (foldlM_amounts hins (by decide) hins').1
  rw [hin, hout, Option.getD_some] at hle
  simp [TxPool.feeOf, getTxFee, hversion, hin, hout, hle]

def payingTx : Transaction :=
  { Transaction.null with
    vin := [.toKey 10 [5, 1, 7] (nullBlob 32), .toKey 7 [2] (List.Vector.replicate 32 1)]
    vout := [⟨9, .toKey (nullBlob 32)⟩, ⟨5, .toKey (nullBlob 32)⟩] }

/-- Inputs of 10 and 7, outputs of 9 and 5, and a fee of 3. -/
theorem version_1_creates_no_money_paying :
    payingTx.outputSum ≤ payingTx.inputSum ∧ TxPool.feeOf payingTx = some 3 ∧
      payingTx.getTxFee = some 3 :=
  @version_1_creates_no_money .permissive 6 20000 false payingTx rfl (by decide) (by decide)
    (by decide +kernel)

end Transaction

end Lethean
