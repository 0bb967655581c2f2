import Lethean.CryptonoteBasic.FormatUtils
import Lethean.CryptonoteCore.Blockchain

/-!
# Lethean.CryptonoteCore.PrecomputedPow

`block_longhash_worker` fills `m_blocks_longhash_table` ahead of time, and
`handle_block_to_main_chain` then only runs `check_hash` on the stored hash.
For blocks of version 1 and from version 4 on that is all `check_proof_of_work`
does. For merge-mined blocks it leaves out the check that the parent block
commits to them. The worker also takes version 0, which no fork table allows,
for merge mined.
-/

namespace Lethean

open Crypto

namespace Crypto

variable (c : Crypto)

/-- The hash `block_longhash_worker` computes for a block, if it does. -/
def workerLonghash (height : Nat) (b : Block) : Option Hash :=
  if hasOwnNonce b.majorVersion then some (c.getBlockLonghash b height)
  else c.getBytecoinBlockLonghash b

/-- `block_longhash_worker`. The height only advances with blocks that have
their own nonce, and `emplace` keeps an entry that is there. -/
def blockLonghashWorker : Nat → List Block → (Finmap fun _ : Hash => Hash) →
    Finmap fun _ : Hash => Hash
  | _, [], map => map
  | height, b :: blocks, map =>
    let id := c.getBlockHash b
    let map := match c.workerLonghash height b with
      | none => map
      | some pow => if id ∈ map then map else map.insert id pow
    blockLonghashWorker (if hasOwnNonce b.majorVersion then height + 1 else height) blocks map

theorem blockLonghashWorker_single (height : Nat) (b : Block) :
    (c.blockLonghashWorker height [b] ∅).lookup (c.getBlockHash b) = c.workerLonghash height b := by
  cases h : c.workerLonghash height b with
  | none => simp [blockLonghashWorker, h]
  | some pow => simp [blockLonghashWorker, h, Finmap.notMem_empty]

end Crypto

namespace Blockchain

variable {env : Env} {bc : Blockchain} {b : Block}

theorem powStep_precomputed {id pow : Hash} (hfast : bc.fastCheck env = false)
    (hid : id ∉ powExceptions) (htable : bc.blocksLonghashTable.lookup id = some pow)
    (difficulty : Nat) : bc.powStep env b id difficulty = checkHash pow difficulty := by
  rw [powStep, hfast, if_neg (by simp), if_neg hid, htable]

/-- **Precomputed and plain proof of work.** Let the table hold, under the id of
a block, the hash that the worker computes for it at the height of the chain.
The step of `handle_block_to_main_chain` agrees with `check_proof_of_work`
exactly when the block is neither merge mined nor of version 0; or is merge
mined and fails `check_hash` or commits correctly; or is of version 0 and its
two long hashes stand alike to the difficulty. -/
theorem precomputed_pow_iff (c : Crypto) (hcheck : env.checkProofOfWork = c.checkProofOfWork)
    (hfast : bc.fastCheck env = false) (hid : c.getBlockHash b ∉ powExceptions) {pow : Hash}
    (hworker : (c.blockLonghashWorker bc.db.height [b] ∅).lookup (c.getBlockHash b) = some pow)
    (htable : bc.blocksLonghashTable.lookup (c.getBlockHash b) = some pow) (difficulty : Nat) :
    (bc.powStep env b (c.getBlockHash b) difficulty = true ↔
        env.checkProofOfWork b difficulty bc.db.height = true) ↔
      (b.majorVersion = 1 ∨ 4 ≤ b.majorVersion) ∨
      ((b.majorVersion = 2 ∨ b.majorVersion = 3) ∧
        ((c.getBytecoinBlockLonghash b).any (checkHash · difficulty) = false ∨
          c.mergeMiningOk b = true)) ∨
      (b.majorVersion = 0 ∧ (c.getBytecoinBlockLonghash b).any (checkHash · difficulty) =
        checkHash (c.getBlockLonghash b bc.db.height) difficulty) := by
  rw [powStep_precomputed hfast hid htable, hcheck]
  rw [blockLonghashWorker_single] at hworker
  have hcases : (b.majorVersion = 1 ∨ 4 ≤ b.majorVersion) ∨
      (b.majorVersion = 2 ∨ b.majorVersion = 3) ∨ b.majorVersion = 0 := by omega
  rcases hcases with hown | hmm | hzero
  · -- the worker and the plain path hash the same
    have hnot : isMergeMined b.toBlockHeader = false := by
      simp only [isMergeMined, Bool.or_eq_false_iff, decide_eq_false_iff_not]
      omega
    have hnonce : hasOwnNonce b.majorVersion = true := by
      simpa [hasOwnNonce] using hown
    rw [workerLonghash, hnonce, if_pos rfl, Option.some.injEq] at hworker
    simp [checkProofOfWork, checkProofOfWorkV1, hnot, hworker, hown]
  · have hmerge : isMergeMined b.toBlockHeader = true := by
      simpa [isMergeMined] using hmm
    have hnonce : hasOwnNonce b.majorVersion = false := by
      simp only [hasOwnNonce, Bool.or_eq_false_iff, decide_eq_false_iff_not]
      omega
    rw [workerLonghash, hnonce, if_neg (by simp)] at hworker
    have hplain : c.checkProofOfWork b difficulty bc.db.height =
        (checkHash pow difficulty && c.mergeMiningOk b) := by
      simp [checkProofOfWork, checkProofOfWorkV2, hmerge, hworker]
    have hv : ¬ (b.majorVersion = 1 ∨ 4 ≤ b.majorVersion) ∧ b.majorVersion ≠ 0 := by omega
    rw [hplain, hworker, Option.any_some]
    generalize checkHash pow difficulty = hashOk
    generalize c.mergeMiningOk b = mergeOk
    cases hashOk <;> cases mergeOk <;> simp [hmm, hv]
  · have hnot : isMergeMined b.toBlockHeader = false := by
      simp [isMergeMined, hzero]
    have hnonce : hasOwnNonce b.majorVersion = false := by
      simp [hasOwnNonce, hzero]
    rw [workerLonghash, hnonce, if_neg (by simp)] at hworker
    have hplain : c.checkProofOfWork b difficulty bc.db.height =
        checkHash (c.getBlockLonghash b bc.db.height) difficulty := by
      simp [checkProofOfWork, checkProofOfWorkV1, hnot]
    rw [hplain, hworker, Option.any_some, ← Bool.eq_iff_iff]
    constructor
    · exact fun heq => .inr (.inr ⟨hzero, heq⟩)
    · rintro (hown | ⟨hmm, -⟩ | ⟨-, heq⟩)
      · omega
      · omega
      · exact heq

/-- Hash functions for examples: the fast one is the length of its input, the
slow ones meet any difficulty that a hash can meet. -/
def sampleCrypto : Crypto :=
  { cnFastHash := fun data => numberedHash data.length
    cnSlowHash := fun _ _ _ => numberedHash 1
    chukwaSlowHashV2 := fun _ => numberedHash 1
    genesisBlockHash := nullHash }

def sampleParent (root : Hash) : BytecoinBlock :=
  { BytecoinBlock.null with
    numberOfTransactions := 1
    minerTx := { Transaction.null with extra := [0x03, 33, 0] ++ root.toList } }

def parentedBlock (root : Hash) : Block :=
  { sampleBlock 2 1 0 0 0 with parentBlock := sampleParent root }

def preparedNode (b : Block) : Blockchain :=
  let bc := startEmpty ⟨[⟨2, 0, 1, 0⟩], by decide, by decide, by decide, by decide⟩
  { bc with blocksLonghashTable := sampleCrypto.blockLonghashWorker bc.db.height [b] ∅ }

def sampleEnv : Env :=
  { Env.permissive with
    blockHash := sampleCrypto.getBlockHash
    checkProofOfWork := sampleCrypto.checkProofOfWork }

theorem precomputed_pow_iff_committed :
    (sampleCrypto.mergeMiningOk (parentedBlock (numberedHash 68)) = true) ∧
    ((preparedNode (parentedBlock (numberedHash 68))).powStep sampleEnv
        (parentedBlock (numberedHash 68))
        (sampleCrypto.getBlockHash (parentedBlock (numberedHash 68))) 1 = true ↔
      sampleEnv.checkProofOfWork (parentedBlock (numberedHash 68)) 1 0 = true) := by
  have hok : sampleCrypto.mergeMiningOk (parentedBlock (numberedHash 68)) = true := by
    decide +kernel
  have hlookup : (sampleCrypto.blockLonghashWorker 0 [parentedBlock (numberedHash 68)] ∅).lookup
      (sampleCrypto.getBlockHash (parentedBlock (numberedHash 68))) = some (numberedHash 1) := by
    decide +kernel
  exact ⟨hok, (precomputed_pow_iff sampleCrypto rfl (by decide +kernel) (by decide +kernel) hlookup
    hlookup 1).mpr (.inr (.inl ⟨.inl rfl, .inr hok⟩))⟩

/-- A block to which its parent does not commit passes with a precomputed hash. -/
theorem uncommitted_block_passes :
    (preparedNode (parentedBlock nullHash)).powStep sampleEnv (parentedBlock nullHash)
        (sampleCrypto.getBlockHash (parentedBlock nullHash)) 1 = true ∧
      sampleEnv.checkProofOfWork (parentedBlock nullHash) 1
        (preparedNode (parentedBlock nullHash)).db.height = false ∧
      (preparedNode (parentedBlock nullHash)).fastCheck sampleEnv = false ∧
      sampleCrypto.getBlockHash (parentedBlock nullHash) ∉ powExceptions := by
  refine ⟨by decide +kernel, by decide +kernel, by decide +kernel, by decide +kernel⟩

end Blockchain

end Lethean
