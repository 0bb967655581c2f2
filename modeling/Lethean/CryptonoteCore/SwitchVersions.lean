import Lethean.CryptonoteBasic.HardForkSchedule
import Lethean.CryptonoteCore.MainChain

/-!
# Lethean.CryptonoteCore.SwitchVersions

The version checks made while `switch_to_alternative_blockchain` connects a
branch. Popping blocks leaves the hard-fork object alone, and the source resets
it only after the branch is connected (`rollback_blockchain_switching` does so
before it connects anything). Until then the index is the one the disconnected
chain had reached, so the checks are right exactly when the disconnected blocks
do not reach past a fork that the branch has not reached yet.
-/

namespace Lethean

namespace Blockchain

open HardFork (SameConfig)

variable {env : Env} {now : Nat} {bc bc' : Blockchain}

/-- The block has the version scheduled for its height, and votes for it. -/
def Carries (t : ForkTable) (height : Nat) (b : BlockHeader) : Prop :=
  b.majorVersion = t.scheduledVersion height ∧ t.scheduledVersion height ≤ b.vote

/-- So do all blocks of a branch that starts at the given height. -/
def CarriesFrom (t : ForkTable) : Nat → List Block → Prop
  | _, [] => True
  | height, b :: rest => Carries t height b.toBlockHeader ∧ CarriesFrom t (height + 1) rest

theorem CarriesFrom.at {t : ForkTable} {b : Block} {post : List Block} :
    ∀ {pre : List Block} {height : Nat}, CarriesFrom t height (pre ++ b :: post) →
      Carries t (height + pre.length) b.toBlockHeader
  | [], _, h => h.1
  | _ :: pre, height, h => by
    have := CarriesFrom.at h.2
    rwa [Nat.add_right_comm, Nat.add_assoc] at this

instance (t : ForkTable) (height : Nat) (b : BlockHeader) : Decidable (Carries t height b) :=
  inferInstanceAs (Decidable (_ ∧ _))

instance CarriesFrom.decidable (t : ForkTable) :
    ∀ (height : Nat) (blocks : List Block), Decidable (CarriesFrom t height blocks)
  | _, [] => inferInstanceAs (Decidable True)
  | height, _ :: rest =>
    have := CarriesFrom.decidable t (height + 1) rest
    inferInstanceAs (Decidable (_ ∧ _))

/-- Every version check made while the blocks are connected in order succeeds:
whenever the blocks before `b` were connected, `b` passes. -/
def ChecksPass (env : Env) (now : Nat) (bc : Blockchain) (blocks : List Block) : Prop :=
  ∀ pre b post, blocks = pre ++ b :: post → ∀ bc', bc.connectBlocks env now pre = ([], bc') →
    bc'.hardfork.check b.toBlockHeader = true

theorem check_iff (hf : HardFork) (b : BlockHeader) : hf.check b = true ↔
    b.majorVersion = hf.heights.versionAt hf.currentForkIndex ∧
      hf.heights.versionAt hf.currentForkIndex ≤ b.vote := by
  unfold HardFork.check HardFork.doCheck HardFork.getCurrentVersion
  rw [Bool.and_eq_true, decide_eq_true_iff, decide_eq_true_iff]

/-- The index while blocks are connected: where it was, or what is scheduled for
the height reached, whichever is further. -/
theorem connectBlocks_index : ∀ {blocks : List Block} {bc : Blockchain},
    bc.hardfork.heights.NoVoting →
    bc.hardfork.heights.scheduledIndex bc.db.height ≤ bc.hardfork.currentForkIndex →
    bc.connectBlocks env now blocks = ([], bc') →
      SameConfig bc.hardfork bc'.hardfork ∧
        bc'.hardfork.currentForkIndex = max bc.hardfork.currentForkIndex
          (bc.hardfork.heights.scheduledIndex (bc.db.height + blocks.length))
  | [], bc, _, hle, h => by
    cases h
    exact ⟨⟨rfl, rfl, rfl⟩, (max_eq_left hle).symm⟩
  | b :: rest, bc, ht, hle, h => by
    obtain ⟨s, record, hacc, hrest⟩ := connectBlocks_nil h
    obtain ⟨hcfg, hidx⟩ := HardFork.add_noVoting ht hacc.afterBlock
    have hheight : (bc.afterBlock env s record).db.height = bc.db.height + 1 := by
      rw [BlockchainDb.height, HardFork.add_chain hacc.afterBlock]
      simp [BlockchainDb.height]
    obtain ⟨hcfg', hidx'⟩ := connectBlocks_index (by rwa [hcfg.heights_eq])
      (by rw [hcfg.heights_eq, hheight, hidx]; exact le_max_right _ _) hrest
    refine ⟨hcfg.trans hcfg', ?_⟩
    have hmono := ForkTable.scheduledIndex_mono bc.hardfork.heights
      (show bc.db.height + 1 ≤ bc.db.height + 1 + rest.length from Nat.le_add_right _ _)
    rw [hidx', hidx, hcfg.heights_eq, hheight, max_assoc, max_eq_right hmono, List.length_cons,
      Nat.add_assoc, Nat.add_comm 1]

/-- The checks pass exactly when the index is not ahead of the schedule. -/
theorem checksPass_iff (hne : bc.hardfork.heights.entries ≠ []) (ht : bc.hardfork.heights.NoVoting)
    (hle : bc.hardfork.heights.scheduledIndex bc.db.height ≤ bc.hardfork.currentForkIndex)
    (hlt : bc.hardfork.currentForkIndex < bc.hardfork.heights.entries.length)
    {blocks : List Block} (hb : blocks ≠ [])
    (hcarry : CarriesFrom bc.hardfork.heights bc.db.height blocks) :
    ChecksPass env now bc blocks ↔
      bc.hardfork.heights.scheduledIndex bc.db.height = bc.hardfork.currentForkIndex := by
  constructor
  · intro hpass
    obtain ⟨b, rest, rfl⟩ := List.exists_cons_of_ne_nil hb
    have hcheck := (check_iff _ _).mp (hpass [] b rest rfl bc rfl)
    have hver : bc.hardfork.heights.versionAt (bc.hardfork.heights.scheduledIndex bc.db.height) =
        bc.hardfork.heights.versionAt bc.hardfork.currentForkIndex :=
      hcarry.1.1.symm.trans hcheck.1
    exact ForkTable.versionAt_inj (ForkTable.scheduledIndex_lt hne _) hlt hver
  · rintro heq pre b post rfl bc' hconn
    obtain ⟨hcfg, hidx⟩ := connectBlocks_index ht hle hconn
    have hmono := ForkTable.scheduledIndex_mono bc.hardfork.heights
      (show bc.db.height ≤ bc.db.height + pre.length from Nat.le_add_right _ _)
    rw [← heq, max_eq_right hmono] at hidx
    rw [check_iff, hcfg.heights_eq, hidx]
    exact hcarry.at

/-- **Version checks of a switch.** On a node that grew the chain `P ++ A`, the
checks made while a branch `B` on `P` is connected all succeed if and only if no
fork after the first has its height above that of `P` and not above that of
`P ++ A`. On a node that grew `P` alone they always succeed. -/
theorem switch_version_checks_iff (table : ForkTable) (w : Nat) (hw : 0 < w) {cfg : HardFork}
    (hcfg : cfg = (HardFork.new table w hw).reset) (ht : cfg.heights.NoVoting)
    {s₀ : HardFork × BlockchainDb}
    (h₀ : (HardFork.new table w hw).init BlockchainDb.empty = some s₀)
    (env : Env) (now : Nat) {P A : List StoredBlock} {bc : Blockchain}
    (hgrow : HardFork.growAll s₀ (P ++ A) = some (bc.hardfork, bc.db))
    {id : Hash} {popped : List Block} {split : Blockchain}
    (hpop : bc.dropCache.popUntil env now id (bc.db.height + 1) = some (popped, split))
    (hP : split.db.chain = P) {B : List Block} (hB : B ≠ [])
    (hcarry : CarriesFrom cfg.heights P.length B) :
    (ChecksPass env now split B ↔ ∀ p ∈ cfg.heights.entries.tail,
      ¬ (P.length < p.height ∧ p.height ≤ P.length + A.length)) ∧
    ∀ node : Blockchain, HardFork.growAll s₀ P = some (node.hardfork, node.db) →
      ChecksPass env now node B := by
  subst hcfg
  have hne := HardFork.reset_entries_ne_nil (HardFork.new table w hw)
  constructor
  · obtain ⟨hchain, hcfg, hidx⟩ := HardFork.growAll_noVoting h₀ ht hgrow
    have hheights := hcfg.heights_eq
    have hhf : split.hardfork = bc.hardfork := (popUntil_sameNode hpop).hardfork
    have hheight : split.db.height = P.length := by rw [BlockchainDb.height, hP]
    have hle : P.length ≤ (P ++ A).length := by simp
    rw [checksPass_iff (by rwa [hhf, hheights]) (by rwa [hhf, hheights])
      (by rw [hhf, hheights, hheight, hidx]; exact ForkTable.scheduledIndex_mono _ hle)
      (by rw [hhf, hheights, hidx]; exact ForkTable.scheduledIndex_lt hne _) hB
      (by rwa [hhf, hheights, hheight])]
    rw [hhf, hheights, hheight, hidx, ForkTable.scheduledIndex_eq_iff _ hle, List.length_append]
  · intro node hnode
    obtain ⟨hchain, hcfg, hidx⟩ := HardFork.growAll_noVoting h₀ ht hnode
    have hheights := hcfg.heights_eq
    have hheight : node.db.height = P.length := by rw [BlockchainDb.height, hchain]
    refine (checksPass_iff (by rwa [hheights]) (by rwa [hheights]) (by rw [hheights, hheight, hidx])
      (by rw [hheights, hidx]; exact ForkTable.scheduledIndex_lt hne _) hB
      (by rwa [hheights, hheight])).mpr ?_
    rw [hheights, hheight, hidx]

def straddledTable : ForkTable :=
  ⟨[⟨1, 0, 1, 0⟩, ⟨2, 0, 3, 1⟩], by decide, by decide, by decide, by decide⟩

/-- A block for `straddledTable`, with its number, its parent's and its height. -/
def straddlingBlock (nonce parent height : Nat) : Block :=
  sampleBlock (if height < 3 then 1 else 2) nonce parent height (120 * height)

/-- The common blocks, and the two sides of a split below the fork. -/
def straddlingCommon : List Block := [straddlingBlock 0 0 0, straddlingBlock 1 0 1]

@[inherit_doc straddlingCommon]
def straddlingMain : List Block := [straddlingBlock 2 1 2, straddlingBlock 3 2 3]

@[inherit_doc straddlingCommon]
def straddlingBranch : List Block :=
  [straddlingBlock 12 1 2, straddlingBlock 13 12 3, straddlingBlock 14 13 4]

def straddledNode : Blockchain := startEmpty straddledTable

def straddlingStored (blocks : List Block) : List StoredBlock :=
  blocks.map fun b => .ofHeader b.toBlockHeader (numberedHash b.nonce)

/-- A node that grew the common blocks and its own side, and popped the latter:
the fork at height 3 lies between the split and the top it had. -/
theorem switch_version_checks_iff_straddling :
    ∃ split : Blockchain, split.db.chain = straddlingStored straddlingCommon ∧
      (ChecksPass .permissive 10000 split straddlingBranch ↔
        ∀ p ∈ straddledTable.entries.tail, ¬ (2 < p.height ∧ p.height ≤ 2 + 2)) ∧
      ∀ node : Blockchain, HardFork.growAll (straddledNode.hardfork, straddledNode.db)
          (straddlingStored straddlingCommon) = some (node.hardfork, node.db) →
        ChecksPass .permissive 10000 node straddlingBranch := by
  obtain ⟨s, hs, hpop⟩ := (Option.any_eq_true _ _).mp (by decide +kernel :
    (HardFork.growAll (straddledNode.hardfork, straddledNode.db)
        (straddlingStored straddlingCommon ++ straddlingStored straddlingMain)).any (fun s =>
      (popUntil .permissive 10000 (numberedHash 1) (s.2.height + 1)
        (start s.1 s.2 .empty).dropCache).any fun r =>
          r.2.db.chain = straddlingStored straddlingCommon) = true)
  obtain ⟨⟨popped, split⟩, hpop, hP⟩ := (Option.any_eq_true _ _).mp hpop
  have hP := of_decide_eq_true hP
  have hgrow : HardFork.growAll _ (straddlingStored straddlingCommon ++ _) =
    some ((start s.1 s.2 .empty).hardfork, (start s.1 s.2 .empty).db) := hs
  exact ⟨split, hP, switch_version_checks_iff straddledTable _ HardFork.defaultWindowSize_pos
    rfl (by decide) rfl .permissive 10000 hgrow hpop hP (by simp [straddlingBranch]) (by decide)⟩

def deliver (env : Env) (now : Nat) (bc : Blockchain) (blocks : List Block) : Option Blockchain :=
  blocks.foldlM (fun bc b => (bc.addNewBlock env now 2 b).map Prod.snd) bc

/-- A node that has its own side first refuses the branch when it becomes
heavier, and marks all its blocks as invalid. A node that receives the branch
without the other side takes it. -/
theorem switch_refuses_scheduled_versions :
    (∃ bc, deliver .permissive 10000 straddledNode
        (straddlingCommon ++ straddlingMain ++ straddlingBranch) = some bc ∧
      bc.db.topBlockHash = numberedHash 3 ∧ numberedHash 12 ∈ bc.invalidBlocks ∧
      numberedHash 13 ∈ bc.invalidBlocks ∧ numberedHash 14 ∈ bc.invalidBlocks) ∧
    (∃ bc, deliver .permissive 10000 straddledNode (straddlingCommon ++ straddlingBranch) =
        some bc ∧ bc.db.topBlockHash = numberedHash 14) ∧
    CarriesFrom straddledTable 2 straddlingBranch := by
  refine ⟨?_, ?_, by decide⟩
  · obtain ⟨bc, hbc, h⟩ := (Option.any_eq_true _ _).mp (by decide +kernel :
      (deliver .permissive 10000 straddledNode
        (straddlingCommon ++ straddlingMain ++ straddlingBranch)).any (fun bc =>
          bc.db.topBlockHash = numberedHash 3 ∧ numberedHash 12 ∈ bc.invalidBlocks ∧
          numberedHash 13 ∈ bc.invalidBlocks ∧ numberedHash 14 ∈ bc.invalidBlocks) = true)
    exact ⟨bc, hbc, of_decide_eq_true h⟩
  · obtain ⟨bc, hbc, h⟩ := (Option.any_eq_true _ _).mp (by decide +kernel :
      (deliver .permissive 10000 straddledNode (straddlingCommon ++ straddlingBranch)).any
        (fun bc => bc.db.topBlockHash = numberedHash 14) = true)
    exact ⟨bc, hbc, of_decide_eq_true h⟩

end Blockchain

end Lethean
