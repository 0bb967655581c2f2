import Lethean.CryptonoteCore.ChainWeight

/-!
# Lethean.CryptonoteCore.BranchWeight

Alternative blocks and their weights. An entry of `m_alternative_chains` is
right if its height and its cumulative difficulty are those of the block's path
(`IsEntry`). The branch that `handle_alternative_block` collects by following
parents is then a front of the main chain continued by the branch, and what it
computes for a new block on top is again right (`Connected.path`).
-/

namespace Lethean

open HardFork (SameConfig)

namespace Rules

variable {R : Rules} {D D' : Set Block}

/-! ### Entries -/

/-- The entry of the last block of a good path. Nothing is ever kept right above
the genesis block: its timestamp could not be checked. -/
structure IsEntry (R : Rules) (D : Set Block) (id : Hash) (bei : BlockExtendedInfo)
    (q : List Block) : Prop where
  good : R.Good D q
  high : 2 ≤ q.length
  last : R.tip q = bei.bl
  id_eq : id = R.env.blockHash bei.bl
  height : bei.height = q.length
  weight : bei.cumulativeDifficulty = R.weight q

def Entries (R : Rules) (D : Set Block) (alts : Finmap fun _ : Hash => BlockExtendedInfo) : Prop :=
  ∀ id bei, alts.lookup id = some bei → ∃ q, R.IsEntry D id bei q

theorem IsEntry.exists_concat {id : Hash} {bei : BlockExtendedInfo} {q : List Block}
    (h : R.IsEntry D id bei q) : ∃ r, q = r ++ [bei.bl] := by
  rcases List.eq_nil_or_concat' q with rfl | ⟨r, b, rfl⟩
  · exact absurd h.high (by simp)
  · have := h.last
    rw [tip_concat] at this
    exact ⟨r, by rw [this]⟩

/-! ### Branches -/

def Linked (alts : Finmap fun _ : Hash => BlockExtendedInfo) (branch : List AltEntry) : Prop :=
  ∀ pre e, pre ++ [e] <+: branch →
    alts.lookup e.1 = some e.2 ∧ ∀ e' ∈ pre.getLast?, e.2.bl.prevId = e'.1

/-- The loop that follows the parents collects such a list, ending in the id it
started from. -/
theorem altChainLoop_linked (alts : Finmap fun _ : Hash => BlockExtendedInfo) :
    ∀ (n : Nat) (id : Hash), Linked alts (Blockchain.altChainLoop alts n id) ∧
      ∀ e ∈ (Blockchain.altChainLoop alts n id).getLast?, e.1 = id := by
  intro n
  have hnil : Linked alts [] := fun pre e h => absurd (List.prefix_nil.mp h) (by simp)
  induction n with
  | zero => exact fun id => ⟨hnil, by simp [Blockchain.altChainLoop]⟩
  | succ n ih =>
    intro id
    cases hl : alts.lookup id with
    | none =>
      simp only [Blockchain.altChainLoop, hl]
      exact ⟨hnil, by simp⟩
    | some bei =>
      simp only [Blockchain.altChainLoop, hl]
      obtain ⟨hlinked, hlast⟩ := ih bei.bl.prevId
      exact ⟨ForkChoice.forall_prefix_concat_iff.mpr
        ⟨hlinked, hl, fun e' he' => (hlast e' he').symm⟩, by simp⟩

/-- What is known of a branch that hangs on the path `P`. -/
structure BranchPath (R : Rules) (D : Set Block) (P : List Block) (branch : List AltEntry) :
    Prop where
  good : R.Good D (P ++ branch.map (·.2.bl))
  weighed : R.weighed (P ++ branch.map (·.2.bl)) =
    R.weighed P ++ branch.map (·.2.weighed)
  heights : ∀ i e, branch[i]? = some e → e.2.height = P.length + 1 + i
  entries : ∀ pre e, pre ++ [e] <+: branch →
    R.IsEntry D e.1 e.2 (P ++ (pre ++ [e]).map (·.2.bl))

/-- **A branch continues the path it hangs on.** Each entry is right for some
path; as ids do not collide, it is the one through the branch. -/
theorem branchPath (hinj : Set.InjOn R.env.blockHash D)
    {alts : Finmap fun _ : Hash => BlockExtendedInfo} (hents : R.Entries D alts)
    {P : List Block} (hP : R.Good D P) {branch : List AltEntry} (hlinked : Linked alts branch)
    (hfront : ∀ e ∈ branch.head?, e.2.bl.prevId = R.env.blockHash (R.tip P)) :
    R.BranchPath D P branch := by
  induction branch using List.reverseRecOn with
  | nil =>
    exact ⟨by simpa using hP, by simp, by simp,
      fun pre e h => absurd (List.prefix_nil.mp h) (by simp)⟩
  | append_singleton pre e ih =>
    have hpre : R.BranchPath D P pre := by
      refine ih (fun r c hr => hlinked r c (hr.trans (List.prefix_append _ _))) ?_
      intro c hc
      exact hfront c (by rw [List.head?_append, hc]; rfl)
    obtain ⟨hlookup, hprev⟩ := hlinked pre e (List.prefix_refl _)
    obtain ⟨q, hq⟩ := hents e.1 e.2 hlookup
    obtain ⟨r, rfl⟩ := hq.exists_concat
    obtain ⟨hr, hext⟩ := good_concat_iff.mp hq.good
    -- the parent that the entry names is the last block so far
    have hparent : R.env.blockHash (R.tip r) =
        R.env.blockHash (R.tip (P ++ pre.map (·.2.bl))) := by
      rw [← hext.parent]
      rcases List.eq_nil_or_concat' pre with rfl | ⟨pre', e', rfl⟩
      · simpa using hfront e (by simp)
      · rw [hprev e' (by simp), (hpre.entries pre' e' (List.prefix_refl _)).id_eq]
        simp [← List.append_assoc]
    obtain rfl := Good.unique hinj hr hpre.good hparent
    have happ : P ++ (pre ++ [e]).map (·.2.bl) = P ++ pre.map (·.2.bl) ++ [e.2.bl] := by simp
    refine ⟨?_, ?_, ?_, ?_⟩
    · rw [happ]
      exact hq.good
    · have hweight : e.2.cumulativeDifficulty = R.weight (P ++ pre.map (·.2.bl)) +
          R.required (P ++ pre.map (·.2.bl)) := by rw [hq.weight, weight_concat]
      rw [happ, weighed_concat, hpre.weighed, ← hweight]
      simp [BlockExtendedInfo.weighed]
    · intro i c hc
      rw [List.getElem?_append] at hc
      split at hc
      · exact hpre.heights i c hc
      have hi : i - pre.length = 0 := by
        have := (List.getElem?_eq_some_iff.mp hc).1
        simpa using this
      rw [hi] at hc
      obtain rfl := Option.some.inj hc
      have := hq.height
      simp only [List.length_append, List.length_map, List.length_singleton] at this
      omega
    · refine ForkChoice.forall_prefix_concat_iff.mpr ⟨hpre.entries, ?_⟩
      rwa [happ]

/-! ### Versions -/

theorem cfg_originalVersion (R : Rules) : R.cfg.originalVersion = 1 := rfl

theorem cfg_noVoting (R : Rules) : R.cfg.heights.NoVoting := R.noVoting

theorem forks_ne_nil (R : Rules) : R.forks.entries ≠ [] := HardFork.reset_entries_ne_nil _

theorem getIdealVersion_eq {hf : HardFork} (hcfg : SameConfig R.cfg hf) (h : Nat) :
    hf.getIdealVersion h = R.forks.scheduledVersion h := by
  rw [HardFork.getIdealVersion_eq, hcfg.heights_eq, hcfg.originalVersion_eq]
  split
  · rename_i h0
    rw [forks, ForkTable.scheduledVersion, h0, cfg_originalVersion]
    exact R.first_version.symm
  · rfl

/-- `check_for_height` compares with the schedule, above the genesis block. -/
theorem checkForHeight_iff {hf : HardFork} (hcfg : SameConfig R.cfg hf) {h : Nat} (hh : 1 ≤ h)
    (b : BlockHeader) :
    hf.checkForHeight b h = true ↔ Blockchain.Carries R.forks h b := by
  have hheights : hf.heights = R.forks := hcfg.heights_eq
  have hdue : hf.heights.entries.countP (fun p => p.height ≤ h) =
      hf.heights.scheduledIndex h + 1 := by
    refine (HardFork.countP_entries hf.heights h).resolve_left fun hnone => ?_
    rw [hheights] at hnone
    obtain ⟨p, rest, hent⟩ := List.exists_cons_of_ne_nil R.forks_ne_nil
    have hp := R.first_height p (by rw [show (HardFork.new R.table R.windowSize
      R.windowSize_pos).reset.heights.entries = R.forks.entries from rfl, hent]; rfl)
    have hpos : ¬ p.height ≤ h := by
      have := List.countP_eq_zero.mp hnone.1 p (by rw [hent]; simp)
      simpa using this
    omega
  have hvoted : hf.getVotedForkIndex h = R.forks.scheduledIndex h := by
    rw [HardFork.getVotedForkIndex, HardFork.votedLoop_noVoting hf.heights.pairwise
      (by rw [hheights]; exact R.noVoting), hdue, if_neg (Nat.succ_ne_zero _),
      Nat.add_sub_cancel, hheights]
    rfl
  unfold HardFork.checkForHeight HardFork.doCheckForHeight Blockchain.Carries
  dsimp only
  rw [hvoted, hheights, Bool.and_eq_true, decide_eq_true_iff, decide_eq_true_iff]
  rfl

end Rules

namespace Blockchain

variable {R : Rules} {D : Set Block} {bc : Blockchain} {main : List Block}
  {branch : List AltEntry}

/-- The branch of a connected parent is linked, and ends in the parent. -/
theorem Connected.linked {prevId : Hash} (h : Connected bc branch prevId) :
    Rules.Linked bc.alternativeChains branch ∧ ∀ e ∈ branch.getLast?, e.1 = prevId := by
  rw [h.branch_eq]
  exact Rules.altChainLoop_linked _ _ _

theorem Connected.linked_concat {id : Hash} {bei : BlockExtendedInfo}
    (hconn : Connected bc branch bei.bl.prevId) (hid : id ∉ bc.alternativeChains) :
    Rules.Linked (bc.alternativeChains.insert id bei) (branch ++ [(id, bei)]) := by
  obtain ⟨hlinked, hlast⟩ := hconn.linked
  refine ForkChoice.forall_prefix_concat_iff.mpr ⟨fun pre e hpre => ?_, Finmap.lookup_insert _,
    fun e' he' => (hlast e' he').symm⟩
  obtain ⟨hl, hprev⟩ := hlinked pre e hpre
  have hne : e.1 ≠ id := fun heq => hid (heq ▸ Finmap.mem_iff.mpr ⟨_, hl⟩)
  exact ⟨(Finmap.lookup_insert_of_ne _ hne).trans hl, hprev⟩

/-! ### The difficulty of an alternative block -/

def storedOf (e : AltEntry) : StoredBlock :=
  { blk := e.2.bl, hash := e.1, size := 0, cumulativeDifficulty := e.2.cumulativeDifficulty,
    coins := 0, txs := [] }

/-- `get_next_difficulty_for_alternative_chain` asks for the required difficulty. -/
theorem altDifficulty_eq_required (hcfg : SameConfig R.cfg bc.hardfork)
    (hmain : R.OnMain bc.db.chain main) {k : Nat} (hk : k ≤ main.length)
    (hbranch : R.BranchPath D (main.take k) branch) :
    bc.getNextDifficultyForAlternativeChain R.env branch (k + 1 + branch.length) =
      R.required (main.take k ++ branch.map (·.2.bl)) := by
  have hlen := hmain.length_eq
  have hsplit : (bc.db.chain.take (k + 1)).length = k + 1 :=
    List.length_take_of_le (by omega)
  have hstored : StoredBranch (bc.db.chain.take (k + 1)).length branch (branch.map storedOf) := by
    refine ⟨fun i e he => ?_, ?_, ?_⟩
    · rw [hsplit, hbranch.heights i e he, List.length_take_of_le hk]
    · rw [List.map_map]
      rfl
    · rw [List.map_map]
      rfl
  have hwindow := altWindow_eq (by rw [← List.length_pos_iff]; omega) hstored
    (bc.db.chain.drop (k + 1))
  rw [List.take_append_drop, hsplit] at hwindow
  -- the chain with the branch on top has the data of the path
  have hdata : (bc.db.chain.take (k + 1) ++ branch.map storedOf).map StoredBlock.weighed =
      R.weighed (main.take k ++ branch.map (·.2.bl)) := by
    rw [hbranch.weighed, List.map_append, (hmain.take k).weights, List.map_map]
    rfl
  unfold getNextDifficultyForAlternativeChain Rules.required requiredDifficulty
  dsimp only
  rw [hwindow, Rules.getIdealVersion_eq hcfg, ← hdata, lastBlocks_eq, ← List.map_tail,
    Window.rtake_map, List.length_map, List.length_append, hsplit, List.length_map]
  rfl

/-- A branch that leaves the main chain after `k` blocks above the genesis block,
and what `handle_alternative_block` computes for a block on top of it. -/
structure BranchOn (R : Rules) (D : Set Block) (bc : Blockchain) (main : List Block)
    (branch : List AltEntry) (prevId : Hash) (k : Nat) : Prop where
  le : k ≤ main.length
  path : R.BranchPath D (main.take k) branch
  prev : prevId = R.env.blockHash (R.tip (main.take k ++ branch.map (·.2.bl)))
  split : splitId branch prevId = R.env.blockHash (R.tip (main.take k))
  height : bc.parentHeight branch prevId = k + branch.length
  weight : bc.parentCumulativeDifficulty branch prevId =
    R.weight (main.take k ++ branch.map (·.2.bl))
  difficulty : bc.getNextDifficultyForAlternativeChain R.env branch (k + branch.length + 1) =
    R.required (main.take k ++ branch.map (·.2.bl))
  high : branch ≠ [] → 1 ≤ k

/-- **The branch of a connected parent.** It continues a front of the main chain
as a good path; height, cumulative difficulty and difficulty are computed as for
a block on top of that path. -/
theorem Connected.branchOn (hinj : Set.InjOn R.env.blockHash D) (hgood : R.Good D main)
    (hmain : R.OnMain bc.db.chain main) (hents : R.Entries D bc.alternativeChains)
    (hcfg : SameConfig R.cfg bc.hardfork) {prevId : Hash} (hconn : Connected bc branch prevId) :
    ∃ k, BranchOn R D bc main branch prevId k := by
  obtain ⟨hlinked, hlast⟩ := Rules.altChainLoop_linked bc.alternativeChains
    bc.alternativeChains.keys.card prevId
  rw [show Blockchain.altChainLoop bc.alternativeChains bc.alternativeChains.keys.card prevId =
    branch from hconn.branch_eq.symm] at hlinked hlast
  have htake : ∀ k, R.Good D (main.take k) := fun k => hgood.of_prefix (List.take_prefix k main)
  have hdiff : ∀ {k}, k ≤ main.length → R.BranchPath D (main.take k) branch →
      bc.getNextDifficultyForAlternativeChain R.env branch (k + branch.length + 1) =
        R.required (main.take k ++ branch.map (·.2.bl)) := by
    intro k hk hpath
    rw [Nat.add_right_comm]
    exact altDifficulty_eq_required hcfg hmain hk hpath
  rcases List.eq_nil_or_concat' branch with rfl | ⟨pre, e, hbr⟩
  · -- the parent is on the main chain
    obtain ⟨k, hk, hid⟩ := hmain.exists_take (hconn.inMain rfl)
    have hpath := Rules.branchPath hinj hents (htake k) hlinked (by simp)
    have hheight : bc.db.getBlockHeight prevId = some k := by
      rw [hid]
      exact hmain.getBlockHeight hinj hgood hk
    obtain ⟨s, hs, -, hweight⟩ := hmain.getElem hk
    refine ⟨k, hk, hpath, by simpa using hid, hid, ?_, ?_, hdiff hk hpath, by simp⟩
    · simp [parentHeight, hheight]
    · simp [parentCumulativeDifficulty, hheight, BlockchainDb.getBlockCumulativeDifficulty, hs,
        hweight]
  · obtain ⟨front, rest, hfr⟩ := List.exists_cons_of_ne_nil (show branch ≠ [] by simp [hbr])
    obtain ⟨q, hq⟩ := hents front.1 front.2 (hlinked [] front ⟨rest, by rw [hfr]; rfl⟩).1
    have hhigh := hq.high
    rw [← hq.height] at hhigh
    have hconnects := hconn.front front (by simp [hfr])
    simp only [altConnects, Bool.and_eq_true, decide_eq_true_eq] at hconnects
    obtain ⟨⟨hbelow, -⟩, hhash⟩ := hconnects
    have hk : front.2.height - 1 ≤ main.length := by
      have := hmain.length_eq
      rw [BlockchainDb.height] at hbelow
      omega
    have hsplit : front.2.bl.prevId = R.env.blockHash (R.tip (main.take (front.2.height - 1))) := by
      obtain ⟨s, hs, hshash, -⟩ := hmain.getElem hk
      rw [BlockchainDb.getBlockHashFromHeight, hs] at hhash
      rw [← hshash]
      exact (Option.some.inj hhash).symm
    have hpath : R.BranchPath D (main.take (front.2.height - 1)) branch := by
      refine Rules.branchPath hinj hents (htake _) hlinked fun c hc => ?_
      obtain rfl : front = c := by simpa [hfr] using hc
      exact hsplit
    have hentry := hpath.entries pre e (by rw [hbr])
    rw [← hbr] at hentry
    have hid : e.1 = prevId := hlast e (by simp [hbr])
    refine ⟨front.2.height - 1, hk, hpath, ?_, by rw [hfr]; exact hsplit, ?_, ?_,
      hdiff hk hpath, fun _ => by omega⟩
    · rw [← hid, hentry.id_eq, hentry.last]
    · rw [parentHeight, hbr, List.getLast?_concat, ← hbr]
      dsimp only
      rw [hentry.height, List.length_append, List.length_take_of_le hk, List.length_map]
    · rw [parentCumulativeDifficulty, hbr, List.getLast?_concat, ← hbr]
      exact hentry.weight

end Blockchain

end Lethean
