import Lethean.CryptonoteCore.AltBlocks

/-!
# Lethean.CryptonoteCore.HeaviestChain

The node follows the heaviest chain. `add_new_block` is shown to make the steps
of `ForkChoice.Step`: the main chain and the entries of `m_alternative_chains`
are read as paths of blocks (`paths`), and every call extends the main chain,
keeps a path that is not heavier, switches to one that is, or only forgets paths.

The cumulative difficulties that are compared are those in the records. They
are the weights of the paths as long as `get_difficulty_for_next_block` never
works on a cache that is too short (`StepOk`). Where it does, a rolled back
switch can leave the main chain lighter than it was.
-/

namespace Lethean

open HardFork (SameConfig Tracks)

namespace Blockchain

variable {R : Rules} {D : Set Block} {now : Nat} {bc bc' : Blockchain} {main : List Block}

/-! ### One switch -/

/-- The result of a switch to the path `q` through `branch`: done, or rolled
back. -/
inductive Switched (R : Rules) (D : Set Block) (bc bc' : Blockchain) (k : Nat)
    (main q : List Block) (branch : List AltEntry) : Bool → List Bool → Prop
  | done (onMain : R.OnMain bc'.db.chain q) (tracks : Tracks R.cfg bc'.hardfork bc'.db)
      (entries : ∀ id bei, bc'.alternativeChains.lookup id = some bei →
        id ∉ branch.map Prod.fst ∧ (bc.alternativeChains.lookup id = some bei ∨
          ∃ p, R.IsEntry D id bei p ∧ p <+: main ∧ k < p.length)) :
      Switched R D bc bc' k main q branch true []
  | undone (r : Bool)
      (restored : r = true → R.OnMain bc'.db.chain main ∧ Tracks R.cfg bc'.hardfork bc'.db)
      (entries : ∀ id bei, bc'.alternativeChains.lookup id = some bei →
        bc.alternativeChains.lookup id = some bei ∧ ∀ e ∈ branch.getLast?, id ≠ e.1) :
      Switched R D bc bc' k main q branch false [r]

variable {handler : AltHandler} {disconnected r : List Block} {k split : Nat}
  {branch : List AltEntry} {anc : List (Nat × Nat)} {bl : Block} {bei : BlockExtendedInfo}

section

variable {env : Env} {front : AltEntry} {rest : List AltEntry} {discard : Bool}
  {bc1 bc2 : Blockchain} (hexists : bc.db.blockExists front.2.bl.prevId = true)
  (hpop : popUntil env now front.2.bl.prevId (bc.db.height + 1) bc.dropCache =
    some (disconnected, bc1))
include hexists hpop

/-- A switch goes on with the blocks that are not connected. -/
theorem switch_of_popUntil {refused : List Block}
    (hconn : bc1.connectBlocks env now ((front :: rest).map (·.2.bl)) = (refused, bc2)) :
    bc.switchToAlternativeBlockchain handler env now (front :: rest) discard =
      if refused = [] then
        (bc2.keepDisconnected handler env discard disconnected).bind fun kept =>
          ((kept.2.eraseAlternatives ((front :: rest).map Prod.fst)).reorganizeHardFork
            bc1.db.height).bind fun bc' => some (true, kept.1, bc')
      else
        (bc2.rollbackBlockchainSwitching env now disconnected bc1.db.height).bind fun rolled =>
          some (false, [rolled.1], rolled.2.markInvalid
            ((front :: rest).drop ((front :: rest).length - refused.length))) := by
  unfold switchToAlternativeBlockchain
  dsimp only
  rw [if_neg (by rw [show bc.dropCache.db = bc.db from rfl, hexists]; simp),
    show bc.dropCache.db = bc.db from rfl, hpop]
  simp only [Option.bind_eq_bind, Option.bind_some, hconn]
  cases refused with
  | nil => rw [if_pos rfl]
  | cons b refused => rw [if_neg (List.cons_ne_nil _ _)]

end

/-- **Switching to a heavier branch.** It returns, and either the branch is the
main chain and was taken out of the entries, or it was rolled back and lost its
last block. -/
theorem switch_switched (hinj : Set.InjOn R.env.blockHash D) (hready : AltReady R D bc main)
    (htracks : Tracks R.cfg bc.hardfork bc.db) (hne : branch ≠ []) (hk : k ≤ main.length)
    (h1 : 1 ≤ k) (hpath : R.BranchPath D (main.take k) branch)
    (hsplit : ∀ e ∈ branch.head?, e.2.bl.prevId = R.env.blockHash (R.tip (main.take k)))
    (hheavier : R.weight main < R.weight (main.take k ++ branch.map (·.2.bl)))
    (hwiden : ∀ n, k + 1 < n →
      n ≤ max main.length (main.take k ++ branch.map (·.2.bl)).length → ¬ R.forks.Widens n)
    (now nesting : Nat) :
    ∃ r rollbacks bc', bc.switchToAlternativeBlockchain
        (handleAlternativeBlock R.env now (nesting + 1)) R.env now branch false =
          some (r, rollbacks, bc') ∧ bc'.checkpoints = .empty ∧
      Switched R D bc bc' k main (main.take k ++ branch.map (·.2.bl)) branch r rollbacks := by
  obtain ⟨front, rest, hfr⟩ := List.exists_cons_of_ne_nil hne
  have hprev := hsplit front (by simp [hfr])
  have hlen := hready.onMain.length_eq
  have hon : OnBranch R bc.dropCache k main :=
    ⟨hready.onMain, hk, tracks_hfAhead htracks (by rw [BlockchainDb.height]; omega),
      tracks_recordedTo htracks (by rw [BlockchainDb.height]; omega)⟩
  obtain ⟨bc1, hpop, hon1, hsame1, h0⟩ : ∃ bc1, popUntil R.env now _ _ bc.dropCache = _ ∧ _ :=
    popUntil_onBranch hinj hready.good hon rfl
  have hheight1 : bc1.db.height = k + 1 := by
    rw [BlockchainDb.height, hon1.main.length_eq, List.length_take_of_le hk]
  obtain ⟨pre, rest', bc2, hconn, hparts, hon2, hkept2⟩ :
      ∃ pre rest' bc2, bc1.connectBlocks R.env now (branch.map (·.2.bl)) = (rest', bc2) ∧ _ :=
    connectBlocks_onBranch hon1 (cacheFilled_of_zero h0) hpath.good
      fun n hn hle => hwiden n hn (hle.trans (le_max_right _ _))
  have hdrop : SameNode bc bc.dropCache := ⟨rfl, rfl, rfl, rfl, rfl, rfl⟩
  have hkept : Kept bc bc2 := (hdrop.trans hsame1).kept.trans hkept2
  have hexists : bc.db.blockExists front.2.bl.prevId = true := by
    obtain ⟨s, hs, hhash, -⟩ := hready.onMain.getElem hk
    rw [hprev, ← hhash]
    exact BlockchainDb.blockExists_iff.mpr ⟨s, List.mem_of_getElem? hs, rfl⟩
  rw [← hprev] at hpop
  subst hfr
  cases rest' with
  | nil =>
    rw [List.append_nil] at hparts
    rw [← hparts] at hon2
    have hready2 : AltReady R D bc2 (main.take k ++ (front :: rest).map (·.2.bl)) :=
      ⟨hkept.checkpoints.trans hready.checkpoints, hon2.main, hpath.good, hon2.hf.config,
        by rw [hkept.alternativeChains]; exact hready.entries⟩
    -- the disconnected blocks come back as entries
    obtain ⟨bc3, hpush, hpushed⟩ : ∃ bc3, bc2.pushAlternatives R.env
        (handleAlternativeBlock R.env now (nesting + 1)) (main.drop k) = some ([], bc3) ∧ _ :=
      pushAlts_lighter hinj nesting hready2
        (by rw [List.take_append_drop]; exact hready.good)
        (by rw [List.length_take_of_le hk]; exact h1)
        (by rw [List.take_append_drop]; exact hheavier.le)
    rw [List.take_append_drop] at hpushed
    have hdb : (bc3.eraseAlternatives ((front :: rest).map Prod.fst)).db = bc2.db := hpushed.db
    have hhf : (bc3.eraseAlternatives ((front :: rest).map Prod.fst)).hardfork = bc2.hardfork :=
      hpushed.hardfork
    obtain ⟨bc4, hreorg, heq4, hchain4, htracks4⟩ : ∃ bc4, reorganizeHardFork
        (bc3.eraseAlternatives ((front :: rest).map Prod.fst)) (k + 1) = some bc4 ∧ _ :=
      reorganize_tracks hpath.good (by rw [hdb]; exact hon2.main) hon2.le
        (by rw [hhf]; exact hon2.hf) (by rw [hdb]; exact hon2.records)
    refine ⟨true, [], bc4, ?_, ?_, .done ?_ htracks4 fun id bei hl => ?_⟩
    · rw [switch_of_popUntil hexists hpop hconn, if_pos rfl, hheight1, keepDisconnected,
        if_neg (by simp), hpush, Option.bind_some, hreorg, Option.bind_some]
    · rw [heq4]
      exact hpushed.checkpoints.trans hready2.checkpoints
    · rw [hchain4, hdb]
      exact hon2.main
    · rw [heq4] at hl
      rw [lookup_eraseAlts] at hl
      split at hl
      · cases hl
      · rename_i hid
        refine ⟨hid, ?_⟩
        rw [← hkept.alternativeChains, ← List.length_take_of_le hk]
        exact hpushed.entries id bei hl
  | cons b refused =>
    obtain ⟨r, bc3, hroll, hkept3, hres⟩ :
        ∃ r bc3, bc2.rollbackBlockchainSwitching R.env now _ _ = some (r, bc3) ∧ _ :=
      rollback_onMain hready.good hk hon2 fun n hn hle =>
        hwiden n hn (hle.trans (le_max_left _ _))
    obtain ⟨hdb, hhf, hcp, hlookup⟩ := markInvalid_spec bc3
      ((front :: rest).drop ((front :: rest).length - (b :: refused).length))
    refine ⟨false, [r], _, ?_, hcp.trans ?_, .undone r ?_ fun id bei hl => ?_⟩
    · rw [switch_of_popUntil hexists hpop hconn, if_neg (by simp), hheight1, hroll, Option.bind_some]
    · exact (hkept.trans hkept3).checkpoints.trans hready.checkpoints
    · rwa [hdb, hhf]
    · rw [hlookup] at hl
      split at hl
      · cases hl
      rename_i hid
      refine ⟨by rw [← (hkept.trans hkept3).alternativeChains]; exact hl, fun e he heq => ?_⟩
      -- the last block is among those from the refused one on
      refine hid (List.mem_map.mpr ⟨e, ?_, heq.symm⟩)
      refine List.mem_of_mem_getLast? ?_
      rwa [List.getLast?_drop, if_neg (by simp)]

/-! ### The node's paths -/

/-- The main chain and the alternative blocks, read as paths of blocks. -/
def paths (R : Rules) (D : Set Block) (bc : Blockchain) (main : List Block) :
    ForkChoice.State Block :=
  ⟨main, {q | ∃ id bei, bc.alternativeChains.lookup id = some bei ∧ R.IsEntry D id bei q}⟩

/-- A node whose records are right and whose hard-fork object follows the chain. -/
structure Sound (R : Rules) (D : Set Block) (bc : Blockchain) (main : List Block) : Prop
    extends AltReady R D bc main where
  tracks : Tracks R.cfg bc.hardfork bc.db

theorem sound_of_tracks (hcp : bc.checkpoints = .empty) (hmain : R.OnMain bc.db.chain main)
    (hgood : R.Good D main) (htracks : Tracks R.cfg bc.hardfork bc.db)
    (hents : R.Entries D bc.alternativeChains) : Sound R D bc main :=
  ⟨⟨hcp, hmain, hgood, (tracks_hfAhead htracks (Nat.zero_le _)).config, hents⟩, htracks⟩

theorem Sound.forget (hs : Sound R D bc main) (hdb : bc'.db = bc.db)
    (hhf : bc'.hardfork = bc.hardfork) (hcp : bc'.checkpoints = bc.checkpoints)
    (halt : bc'.alternativeChains = bc.alternativeChains) :
    Sound R D bc' main ∧ ForkChoice.Step R.weight (paths R D bc main) (paths R D bc' main) := by
  refine ⟨sound_of_tracks (hcp.trans hs.checkpoints) (by rw [hdb]; exact hs.onMain) hs.good
    (by rw [hdb, hhf]; exact hs.tracks) (by rw [halt]; exact hs.entries), .forget ?_⟩
  rw [halt]

/-- A new block has no path of its own beside the main chain. -/
theorem notMem_paths (main : List Block) {b : Block}
    (hnew : bc.haveBlock (R.env.blockHash b) = false) : r ++ [b] ∉ (paths R D bc main).alts := by
  rintro ⟨id, bei, hl, hentry⟩
  have hbl : b = bei.bl := by rw [← hentry.last, Rules.tip_concat]
  refine (haveBlock_eq_false.mp hnew).2.1 ?_
  rw [hbl, ← hentry.id_eq]
  exact Finmap.mem_iff.mpr ⟨bei, hl⟩

theorem not_prefix_main {b : Block} (hmain : R.OnMain bc.db.chain main)
    (hnew : bc.haveBlock (R.env.blockHash b) = false) : ¬ r ++ [b] <+: main := by
  intro hpre
  have hle : (r ++ [b]).length ≤ main.length := hpre.length_le
  obtain ⟨s, hs, hhash, -⟩ := hmain.getElem hle
  rw [← List.prefix_iff_eq_take.mp hpre, Rules.tip_concat] at hhash
  refine absurd (haveBlock_eq_false.mp hnew).1 ?_
  rw [Bool.not_eq_false]
  exact BlockchainDb.blockExists_iff.mpr ⟨s, List.mem_of_getElem? hs, hhash⟩

theorem ne_genesis {b : Block} (hmain : R.OnMain bc.db.chain main)
    (hnew : bc.haveBlock (R.env.blockHash b) = false) :
    R.env.blockHash b ≠ R.genesis.hash := by
  intro heq
  obtain ⟨g, hg, hhash, -⟩ := hmain.getElem (Nat.zero_le _)
  rw [List.take_zero, Rules.tip_nil, ← R.genesis_hash, ← heq] at hhash
  refine absurd (haveBlock_eq_false.mp hnew).1 ?_
  rw [Bool.not_eq_false]
  exact BlockchainDb.blockExists_iff.mpr ⟨g, List.mem_of_getElem? hg, hhash⟩

/-! ### Ancestors, as the records have them -/

/-- Timestamps and cumulative difficulties of a block and of all blocks below it,
and the height of the first of them that is not on the main chain. -/
inductive Ancestors (bc : Blockchain) : Hash → Nat → List (Nat × Nat) → Prop
  | main {k : Nat} {s : StoredBlock} (h : bc.db.chain[k]? = some s) :
      Ancestors bc s.hash (k + 1) ((bc.db.chain.take (k + 1)).map StoredBlock.weighed)
  | alt {id : Hash} {bei : BlockExtendedInfo} {split : Nat} {anc : List (Nat × Nat)}
      (h : bc.alternativeChains.lookup id = some bei) (hparent : Ancestors bc bei.bl.prevId split anc) :
      Ancestors bc id split (anc ++ [bei.weighed])

theorem Ancestors.path (hinj : Set.InjOn R.env.blockHash D) (hs : Sound R D bc main) {id : Hash}
    (h : Ancestors bc id split anc) :
    ∃ p, R.Good D p ∧ anc = R.weighed p ∧ id = R.env.blockHash (R.tip p) := by
  induction h with
  | @main k s h =>
    have hk : k ≤ main.length := by
      have := (List.getElem?_eq_some_iff.mp h).1
      have := hs.onMain.length_eq
      omega
    obtain ⟨s', hs', hhash, -⟩ := hs.onMain.getElem hk
    rw [h] at hs'
    obtain rfl := Option.some.inj hs'
    exact ⟨main.take k, hs.good.of_prefix (List.take_prefix k main), (hs.onMain.take k).weights,
      hhash⟩
  | @alt id bei split anc h _ ih =>
    obtain ⟨p, hp, rfl, hid⟩ := ih
    obtain ⟨q, hq⟩ := hs.entries id bei h
    obtain ⟨r, rfl⟩ := hq.exists_concat
    obtain ⟨hr, hext⟩ := Rules.good_concat_iff.mp hq.good
    obtain rfl := Rules.Good.unique hinj hp hr (hid.symm.trans hext.parent)
    refine ⟨p ++ [bei.bl], hq.good, ?_, by rw [Rules.tip_concat]; exact hq.id_eq⟩
    rw [Rules.weighed_concat, ← Rules.weight_concat p bei.bl, ← hq.weight]
    rfl

theorem BranchOn.ancestors {prevId : Hash} (hmain : R.OnMain bc.db.chain main)
    (hon : BranchOn R D bc main branch prevId k)
    (hlinked : Rules.Linked bc.alternativeChains branch) :
    Ancestors bc prevId (k + 1) (R.weighed (main.take k ++ branch.map (·.2.bl))) := by
  have hpre : ∀ pre, pre <+: branch →
      Ancestors bc (R.env.blockHash (R.tip (main.take k ++ pre.map (·.2.bl)))) (k + 1)
        (R.weighed (main.take k ++ pre.map (·.2.bl))) := by
    intro pre
    induction pre using List.reverseRecOn with
    | nil =>
      intro _
      obtain ⟨s, hs, hhash, -⟩ := hmain.getElem hon.le
      rw [List.map_nil, List.append_nil, ← hhash, ← (hmain.take k).weights]
      exact .main hs
    | append_singleton pre e ih =>
      intro hpre
      have hentry := hon.path.entries pre e hpre
      have happ : main.take k ++ (pre ++ [e]).map (·.2.bl) =
          (main.take k ++ pre.map (·.2.bl)) ++ [e.2.bl] := by simp
      rw [happ] at hentry ⊢
      have hext := (Rules.good_concat_iff.mp hentry.good).2
      have hparent := ih ((List.prefix_append _ _).trans hpre)
      rw [← hext.parent] at hparent
      rw [Rules.tip_concat, ← hentry.id_eq, Rules.weighed_concat, ← Rules.weight_concat _ e.2.bl,
        ← hentry.weight]
      exact .alt (hlinked pre e hpre).1 hparent
  rw [hon.prev]
  exact hpre branch (List.prefix_refl _)

/-! ### One call -/

/-- What the heaviest-chain rule needs of the state before a call. -/
structure StepOk (R : Rules) (bc : Blockchain) (bl : Block) : Prop where
  /-- The cumulative difficulty of the block fits in 64 bits. -/
  fits : ∀ split anc, Ancestors bc bl.prevId split anc →
    topWeight anc + requiredDifficulty R.env R.forks anc < 2 ^ 64
  /-- For a block on top of the main chain, the difficulty cache is long enough. -/
  cache : bl.prevId = bc.db.topBlockHash → bc.CacheFits
  /-- For another one, the difficulty window does not widen above the split. -/
  narrow : bl.prevId ≠ bc.db.topBlockHash → ∀ split anc, Ancestors bc bl.prevId split anc →
    ∀ n, split < n → n ≤ max (bc.db.height - 1) anc.length → ¬ R.forks.Widens n
  /-- Its parent is not the genesis block: its timestamp could not be checked. -/
  defined : bl.prevId ≠ bc.db.topBlockHash → bl.prevId ≠ R.genesis.hash

/-- The difficulty that a node asks from the block on top of its main chain. -/
theorem Sound.difficulty (hs : Sound R D bc main) (hcache : CacheInv bc) (hfits : bc.CacheFits) :
    bc.currentVersion = R.forks.scheduledVersion (main.length + 1) ∧
      (bc.getDifficultyForNextBlock R.env).1 = R.required main := by
  have hv : bc.currentVersion = R.forks.scheduledVersion (main.length + 1) := by
    rw [← hs.onMain.length_eq]
    exact tracks_version hs.tracks
  exact ⟨hv, difficulty_eq_required hcache hfits hs.onMain hv⟩

/-- **A block on top of the main chain.** -/
theorem Accepted.step {s : TxLoop} {record : StoredBlock}
    (hacc : Accepted R.env now bc bl (R.env.blockHash bl) s record) (hs : Sound R D bc main)
    (hcache : CacheInv bc) (hb : bl ∈ D) (hnew : bc.haveBlock (R.env.blockHash bl) = false)
    (hok : StepOk R bc bl) :
    Sound R D (bc.afterBlock R.env s record) (main ++ [bl]) ∧
      ForkChoice.Step R.weight (paths R D bc main)
        (paths R D (bc.afterBlock R.env s record) (main ++ [bl])) := by
  obtain ⟨hv, hdiff⟩ := hs.difficulty hcache (hok.cache hacc.prev)
  obtain ⟨halt, -, hcp, -⟩ := afterBlock_rest R.env bc s record
  obtain ⟨baseReward, partialReward, -, hrec⟩ := hacc.record_eq
  have hblk : record.blk = bl := by rw [hrec]; rfl
  have hparent : bl.prevId = R.env.blockHash (R.tip main) := by
    rw [hacc.prev, hs.onMain.topBlockHash]
  obtain ⟨top, htop, hhash, -⟩ := hs.onMain.getElem le_rfl
  have hanc : Ancestors bc bl.prevId (main.length + 1) (R.weighed main) := by
    have := Ancestors.main htop
    rw [hhash, (hs.onMain.take main.length).weights, List.take_length] at this
    rwa [hparent]
  have hfits : R.weight main + R.required main < 2 ^ 64 := hok.fits _ _ hanc
  have hcarries : Carries R.forks (main.length + 1) bl.toBlockHeader := by
    have hcheck := (check_iff _ _).mp hacc.version
    rwa [Carries, ← hv]
  have hwork : 0 < R.required main := by
    rw [← hdiff]
    exact Nat.pos_of_ne_zero hacc.difficulty
  have hgood : R.Good D (main ++ [bl]) :=
    Rules.good_concat_iff.mpr ⟨hs.good, hb, hparent, ne_genesis hs.onMain hnew, hcarries,
      hwork, hfits⟩
  have htracks : Tracks R.cfg (bc.afterBlock R.env s record).hardfork
      (bc.afterBlock R.env s record).db := by
    refine (hs.tracks.grow (b := record) ?_).1
    rw [HardFork.grow, hblk]
    exact hacc.afterBlock
  refine ⟨sound_of_tracks (hcp.trans hs.checkpoints) (hacc.onMain hs.onMain hdiff hfits) hgood
    htracks (by rw [halt]; exact hs.entries), .extend bl (notMem_paths main hnew) hgood.weight_lt ?_⟩
  rw [halt]

/-- A path through a branch ends below the split, or in an entry of the branch. -/
theorem prefix_branchPath {P : List Block} {id : Hash} (hpath : R.BranchPath D P branch)
    (hentry : R.IsEntry D id bei r) (hpre : r <+: P ++ branch.map (·.2.bl)) :
    r <+: P ∨ id ∈ branch.map Prod.fst := by
  by_cases hlen : r.length ≤ P.length
  · exact .inl (List.prefix_of_prefix_length_le hpre (List.prefix_append _ _) hlen)
  right
  have hr : r = P ++ (branch.take (r.length - P.length)).map (·.2.bl) := by
    conv_lhs => rw [List.prefix_iff_eq_take.mp hpre]
    rw [List.take_append, List.take_of_length_le (by omega), List.map_take]
  rcases List.eq_nil_or_concat' (branch.take (r.length - P.length)) with hnil | ⟨pre, e, he⟩
  · rw [hnil, List.map_nil, List.append_nil] at hr
    exact absurd (le_of_eq (congrArg List.length hr)) hlen
  have hpre' : pre ++ [e] <+: branch := he ▸ List.take_prefix _ _
  have hbl : e.2.bl = bei.bl := by
    rw [← hentry.last, hr, he]
    simp [← List.append_assoc]
  refine List.mem_map.mpr ⟨e, hpre'.subset (by simp), ?_⟩
  rw [hentry.id_eq, ← hbl]
  exact (hpath.entries pre e hpre').id_eq

theorem isEntry_unique {id : Hash} {q : List Block} (hinj : Set.InjOn R.env.blockHash D)
    (hq : R.IsEntry D id bei q) (hr : R.IsEntry D id bei r) : q = r :=
  Rules.Good.unique hinj hq.good hr.good (by rw [hq.last, hr.last])

/-- **A heavier alternative block.** The switch to it, read as a step. -/
theorem Switched.step {id : Hash} {r : Bool} {rollbacks : List Bool}
    (hinj : Set.InjOn R.env.blockHash D) (hs : Sound R D bc main)
    (hheaviest : ForkChoice.Heaviest R.weight (paths R D bc main))
    (hpath : R.BranchPath D (main.take k) (branch ++ [(id, bei)]))
    (hheavier : R.weight main < R.weight (main.take k ++ (branch ++ [(id, bei)]).map (·.2.bl)))
    (hcp : bc'.checkpoints = .empty)
    (hsw : Switched R D { bc with alternativeChains := bc.alternativeChains.insert id bei } bc' k
      main (main.take k ++ (branch ++ [(id, bei)]).map (·.2.bl)) (branch ++ [(id, bei)]) r rollbacks)
    (hroll : ∀ r ∈ rollbacks, r = true) :
    ∃ main', Sound R D bc' main' ∧
      ForkChoice.Step R.weight (paths R D bc main) (paths R D bc' main') := by
  cases hsw with
  | done honMain htracks hents =>
    -- an entry is an old one, or a block of the disconnected chain
    have hold : ∀ id' bei', bc'.alternativeChains.lookup id' = some bei' →
        bc.alternativeChains.lookup id' = some bei' ∨
          ∃ p, R.IsEntry D id' bei' p ∧ p <+: main ∧ k < p.length := by
      intro id' bei' hl
      obtain ⟨hnot, hl | hp⟩ := hents id' bei' hl
      · have hid : id' ≠ id := fun heq => hnot (by simp [heq])
        exact .inl ((Finmap.lookup_insert_of_ne _ hid).symm.trans hl)
      · exact .inr hp
    refine ⟨_, sound_of_tracks hcp honMain hpath.good htracks fun id' bei' hl => ?_,
      .switch _ hheavier ?_⟩
    · rcases hold id' bei' hl with hl | ⟨p, hp, -⟩
      · exact hs.entries id' bei' hl
      · exact ⟨p, hp⟩
    rintro q ⟨id', bei', hl, hq⟩
    have hnot := (hents id' bei' hl).1
    rcases hold id' bei' hl with hl | ⟨p, hp, hpmain, hlen⟩
    · refine ⟨.inl ⟨id', bei', hl, hq⟩, fun hpre => ?_⟩
      have hmain := (prefix_branchPath hpath hq hpre).resolve_right hnot
      exact hheaviest.apart q ⟨id', bei', hl, hq⟩ (hmain.trans (List.take_prefix _ _))
    · obtain rfl := isEntry_unique hinj hp hq
      refine ⟨.inr hpmain, fun hpre => ?_⟩
      have hle := ((prefix_branchPath hpath hq hpre).resolve_right hnot).length_le
      rw [List.length_take] at hle
      omega
  | undone r hrestored hents =>
    obtain ⟨honMain, htracks⟩ := hrestored (hroll r (by simp))
    have hold : ∀ id' bei', bc'.alternativeChains.lookup id' = some bei' →
        bc.alternativeChains.lookup id' = some bei' := by
      intro id' bei' hl
      obtain ⟨hl, hlast⟩ := hents id' bei' hl
      exact (Finmap.lookup_insert_of_ne _ (hlast (id, bei) (by simp))).symm.trans hl
    refine ⟨main, sound_of_tracks hcp honMain hs.good htracks fun id' bei' hl =>
      hs.entries id' bei' (hold id' bei' hl), .forget ?_⟩
    rintro q ⟨id', bei', hl, hq⟩
    exact ⟨id', bei', hold id' bei' hl, hq⟩

theorem Ancestors.of_dropCache {id : Hash} (h : Ancestors bc.dropCache id split anc) :
    Ancestors bc id split anc := by
  induction h with
  | main h => exact .main h
  | alt h _ ih => exact .alt h ih

theorem BranchOn.split_pos {prevId : Hash} (hon : BranchOn R D bc main branch prevId k)
    (hne : prevId ≠ R.genesis.hash) : 1 ≤ k := by
  by_cases hbr : branch = []
  · subst hbr
    rw [Nat.one_le_iff_ne_zero]
    rintro rfl
    refine hne ?_
    rw [hon.prev, R.genesis_hash]
    rfl
  · exact hon.high hbr

/-- **An alternative block that passes its checks.** It is kept if it is not
heavier, and switched to if it is. -/
theorem AltAccepted.step {height currentDiff : Nat}
    (hacc : AltAccepted R.env bc.dropCache branch bl height currentDiff)
    (hinj : Set.InjOn R.env.blockHash D) (hs : Sound R D bc.dropCache main)
    (hheaviest : ForkChoice.Heaviest R.weight (paths R D bc.dropCache main))
    (hconn : Connected bc.dropCache branch bl.prevId)
    (hversion : bc.dropCache.hardfork.checkForHeight bl.toBlockHeader bl.getBlockHeight = true)
    (hb : bl ∈ D) (hnew : bc.dropCache.haveBlock (R.env.blockHash bl) = false)
    (hok : StepOk R bc bl) (htop : bl.prevId ≠ bc.db.topBlockHash) (now nesting : Nat) :
    ∃ o bc', bc.dropCache.storeAlternative (handleAlternativeBlock R.env now (nesting + 1)) R.env
        now branch ⟨bl, height, u64 (bc.dropCache.parentCumulativeDifficulty branch bl.prevId +
          currentDiff)⟩ (R.env.blockHash bl) false = some (o, bc') ∧
      ((∀ r ∈ o.rollbacks, r = true) → ∃ main', Sound R D bc' main' ∧
        ForkChoice.Step R.weight (paths R D bc.dropCache main) (paths R D bc' main')) := by
  obtain ⟨k, hon⟩ := hconn.branchOn hinj hs.good hs.onMain hs.entries hs.config
  have hanc := (hon.ancestors hs.onMain hconn.linked.1).of_dropCache
  have h1 := hon.split_pos (hok.defined htop)
  have hgood : R.Good D (newPath main k branch bl) :=
    Rules.good_concat_iff.mpr ⟨hon.path.good, hacc.extends hon hs.config hversion hb
      (ne_genesis hs.onMain hnew) (hok.fits _ _ hanc)⟩
  have hentry := hacc.isEntry hon hgood h1
  have hid := (haveBlock_eq_false.mp hnew).2.1
  generalize hbei : (⟨bl, height, u64 (bc.dropCache.parentCumulativeDifficulty branch bl.prevId +
    currentDiff)⟩ : BlockExtendedInfo) = bei at hentry
  have hbl : bei.bl = bl := by rw [← hbei]
  have hents : R.Entries D (bc.dropCache.alternativeChains.insert (R.env.blockHash bl) bei) :=
    Inverted.forall_lookup_insert hs.entries ⟨_, hentry⟩
  by_cases hlight : bei.cumulativeDifficulty ≤ topCumulativeDifficulty bc.dropCache.db
  · obtain ⟨o, -, hrun | ⟨-, hrun⟩⟩ : ∃ o, _ ∧ (bc.dropCache.storeAlternative
        (handleAlternativeBlock R.env now (nesting + 1)) R.env now branch bei
        (R.env.blockHash bl) false = some (o, bc.dropCache) ∨ _) :=
      storeAlt_lighter hlight
    · exact ⟨o, _, hrun, fun _ => ⟨main, hs.forget rfl rfl rfl rfl⟩⟩
    refine ⟨o, _, hrun, fun _ => ⟨main, sound_of_tracks hs.checkpoints hs.onMain hs.good
      hs.tracks hents, .keep (newPath main k branch bl) (not_prefix_main hs.onMain hnew) ?_ ?_⟩⟩
    · rwa [← hentry.weight, ← hs.onMain.topCumulativeDifficulty]
    · rintro q ⟨id', bei', hl, hq⟩
      exact Inverted.forall_lookup_insert (P := fun id bei => R.IsEntry D id bei q →
          q = newPath main k branch bl ∨ q ∈ (paths R D bc.dropCache main).alts)
        (fun _ _ hl hq => .inr ⟨_, _, hl, hq⟩)
        (fun hq => .inl (isEntry_unique hinj hq hentry)) id' bei' hl hq
  · rw [not_le] at hlight
    have happ : main.take k ++ (branch ++ [(R.env.blockHash bl, bei)]).map (·.2.bl) =
        newPath main k branch bl := by simp [newPath, hbl]
    have hready : AltReady R D
        { bc.dropCache with
          alternativeChains := bc.dropCache.alternativeChains.insert (R.env.blockHash bl) bei }
        main :=
      ⟨hs.checkpoints, hs.onMain, hs.good, hs.config, hents⟩
    have hfront : ∀ e ∈ (branch ++ [(R.env.blockHash bl, bei)]).head?,
        e.2.bl.prevId = R.env.blockHash (R.tip (main.take k)) := by
      intro e he
      rw [← hon.split]
      cases branch with
      | nil =>
        obtain rfl : (R.env.blockHash bl, bei) = e := by simpa using he
        rw [hbl]
        rfl
      | cons front rest =>
        obtain rfl : front = e := by simpa using he
        rfl
    have hpath : R.BranchPath D (main.take k) (branch ++ [(R.env.blockHash bl, bei)]) :=
      Rules.branchPath hinj hents (hs.good.of_prefix (List.take_prefix k main))
        (Connected.linked_concat (by rwa [hbl]) hid) hfront
    have hheavier : R.weight main <
        R.weight (main.take k ++ (branch ++ [(R.env.blockHash bl, bei)]).map (·.2.bl)) := by
      rwa [happ, ← hentry.weight, ← hs.onMain.topCumulativeDifficulty]
    have hwiden : ∀ n, k + 1 < n → n ≤ max main.length
        (main.take k ++ (branch ++ [(R.env.blockHash bl, bei)]).map (·.2.bl)).length →
        ¬ R.forks.Widens n := by
      intro n hn hle
      refine hok.narrow htop _ _ hanc n hn (hle.trans (le_of_eq ?_))
      have hlen : bc.db.height = main.length + 1 := hs.onMain.length_eq
      rw [happ, newPath, List.length_append, List.length_singleton, Rules.length_weighed, hlen,
        Nat.add_sub_cancel]
    obtain ⟨r, rollbacks, bc', hsw, hcp, hswitched⟩ := switch_switched hinj hready hs.tracks
      (by simp) hon.le h1 hpath hfront hheavier hwiden now nesting
    rw [storeAlternative, if_neg hid, if_pos (by simpa using hlight), hsw]
    exact ⟨_, bc', rfl, hswitched.step hinj hs hheaviest hpath hheavier hcp⟩

/-- **A call of `handle_alternative_block`** is a step. -/
theorem altBlock_step (hinj : Set.InjOn R.env.blockHash D) (hs : Sound R D bc main)
    (hheaviest : ForkChoice.Heaviest R.weight (paths R D bc main)) (hb : bl ∈ D)
    (hnew : bc.haveBlock (R.env.blockHash bl) = false) (hok : StepOk R bc bl)
    (htop : bl.prevId ≠ bc.db.topBlockHash) (now nesting : Nat) :
    ∃ o bc', handleAlternativeBlock R.env now (nesting + 2) bc bl (R.env.blockHash bl) =
        some (o, bc') ∧
      ((∀ r ∈ o.rollbacks, r = true) → ∃ main', Sound R D bc' main' ∧
        ForkChoice.Step R.weight (paths R D bc main) (paths R D bc' main')) := by
  obtain ⟨hs', hforget⟩ : Sound R D bc.dropCache main ∧ ForkChoice.Step R.weight
      (paths R D bc main) (paths R D bc.dropCache main) := hs.forget rfl rfl rfl rfl
  have hcheckpoint : ∀ height, (bc.dropCache.checkpoints.checkBlock height
      (R.env.blockHash bl)).2 = false := by
    intro height
    rw [hs'.checkpoints]
    rfl
  have hstep : ∀ {branch height currentDiff}, Connected bc.dropCache branch bl.prevId →
      bc.hardfork.checkForHeight bl.toBlockHeader bl.getBlockHeight = true →
      AltAccepted R.env bc.dropCache branch bl height currentDiff → _ :=
    fun hconn hversion hacc =>
      hacc.step hinj hs' hheaviest hconn hversion hb hnew hok htop now nesting
  have hsome : (handleAlternativeBlock R.env now (nesting + 2) bc bl
      (R.env.blockHash bl)).isSome := by
    refine altBlockWith_isSome fun branch hconn hversion => ?_
    obtain ⟨k, hon⟩ := hconn.branchOn hinj hs'.good hs'.onMain hs'.entries hs'.config
    refine extendBranch_isSome (altTimestamps_ne_nil hinj hs'.good hs'.onMain hon
      (hon.split_pos (hok.defined htop))) fun height currentDiff hacc => ?_
    obtain ⟨o, bc', hrun, -⟩ := hstep hconn hversion hacc
    rw [hcheckpoint, hrun]
    rfl
  obtain ⟨⟨o, bc'⟩, hrun⟩ := Option.isSome_iff_exists.mp hsome
  refine ⟨o, bc', hrun, fun hroll => ?_⟩
  rcases altBlockWith_inv hrun with
    ⟨rfl, -, -⟩ | ⟨branch, hconn, -, -, hversion, hext⟩
  · exact ⟨main, hs', hforget⟩
  rcases extendBranch_inv hext with ⟨rfl, -, -⟩ | ⟨height, currentDiff, hacc, -, hstore⟩
  · exact ⟨main, hs', hforget⟩
  · obtain ⟨o', bc'', hrun', hstep⟩ := hstep hconn hversion hacc
    rw [hcheckpoint, hrun'] at hstore
    obtain ⟨rfl, rfl⟩ := Prod.mk.inj (Option.some.inj hstore)
    exact hstep hroll

/-- What holds of a node between calls. -/
structure Inv (R : Rules) (D : Set Block) (bc : Blockchain) (main : List Block) : Prop where
  sound : Sound R D bc main
  cache : CacheInv bc
  heaviest : ForkChoice.Heaviest R.weight (paths R D bc main)

/-- **A call of `add_new_block`** returns, keeps the invariant if no rollback in it
failed, and does not lower the weight of the main chain. -/
theorem addNewBlock_inv (hinj : Set.InjOn R.env.blockHash D) (hinv : Inv R D bc main) (hb : bl ∈ D)
    (hok : StepOk R bc bl) (now nesting : Nat) :
    ∃ o bc', bc.addNewBlock R.env now (nesting + 2) bl = some (o, bc') ∧
      ((∀ r ∈ o.rollbacks, r = true) → ∃ main', Inv R D bc' main' ∧
        R.weight main ≤ R.weight main') := by
  obtain ⟨hs, hcache, hheaviest⟩ := hinv
  suffices h : ∃ o bc', bc.addNewBlock R.env now (nesting + 2) bl = some (o, bc') ∧
      ((∀ r ∈ o.rollbacks, r = true) → ∃ main', Sound R D bc' main' ∧
        ForkChoice.Step R.weight (paths R D bc main) (paths R D bc' main')) by
    obtain ⟨o, bc', hrun, hstep⟩ := h
    refine ⟨o, bc', hrun, fun hroll => ?_⟩
    obtain ⟨main', hs', hstep⟩ := hstep hroll
    obtain ⟨hheaviest', hle⟩ := hstep.heaviest (fun r hr => hs.good.weight_le hr) hheaviest
    exact ⟨main', ⟨hs', hcache.effects (addNewBlock_effects hrun), hheaviest'⟩, hle⟩
  unfold addNewBlock
  dsimp only
  split
  · exact ⟨_, _, rfl, fun _ => ⟨main, hs.forget rfl rfl rfl rfl⟩⟩
  rename_i hnew
  have hnew' := Bool.eq_false_of_not_eq_true hnew
  split
  · refine ⟨(bc.handleBlockToMainChain R.env now bl (R.env.blockHash bl)).1,
      (bc.handleBlockToMainChain R.env now bl (R.env.blockHash bl)).2, rfl, fun _ => ?_⟩
    rcases mainChain_inv R.env now bc bl (R.env.blockHash bl) with
      ⟨-, -, hsame⟩ | ⟨-, -, s, record, hacc, heq⟩
    · exact ⟨main, hs.forget hsame.db hsame.hardfork hsame.checkpoints hsame.alternativeChains⟩
    · rw [heq]
      exact ⟨main ++ [bl], hacc.step hs hcache hb hnew' hok⟩
  · rename_i htop
    obtain ⟨o, bc', hrun, hstep⟩ :=
      altBlock_step hinj hs hheaviest hb hnew' hok htop now nesting
    refine ⟨o, { bc' with blocksTxsCheck := [] }, by rw [hrun]; rfl, fun hroll => ?_⟩
    obtain ⟨main', hs', hstep⟩ := hstep hroll
    exact ⟨main', sound_of_tracks hs'.checkpoints hs'.onMain hs'.good hs'.tracks hs'.entries, hstep⟩

/-! ### Runs -/

/-- The heaviest-chain rule, as the records of a node have it. -/
structure HeaviestChain (R : Rules) (bc : Blockchain) : Prop where
  /-- The height and the cumulative difficulty of an entry that is connected to
  the main chain are those that the rules give it on top of its parent. -/
  consistent : ∀ id bei, bc.alternativeChains.lookup id = some bei →
    ∀ split anc, Ancestors bc bei.bl.prevId split anc → bei.height = anc.length ∧
      bei.cumulativeDifficulty = topWeight anc + requiredDifficulty R.env R.forks anc
  best : ∀ id bei, bc.alternativeChains.lookup id = some bei →
    bei.cumulativeDifficulty ≤ topCumulativeDifficulty bc.db
  apart : ∀ id ∈ bc.alternativeChains, bc.db.blockExists id = false

theorem Inv.heaviestChain (hinj : Set.InjOn R.env.blockHash D) (h : Inv R D bc main) :
    HeaviestChain R bc where
  consistent := by
    intro id bei hl split anc hanc
    obtain ⟨p, hp, rfl, hid⟩ := hanc.path hinj h.sound
    obtain ⟨q, hq⟩ := h.sound.entries id bei hl
    obtain ⟨r, rfl⟩ := hq.exists_concat
    obtain ⟨hr, hext⟩ := Rules.good_concat_iff.mp hq.good
    obtain rfl := Rules.Good.unique hinj hp hr (hid.symm.trans hext.parent)
    rw [Rules.length_weighed, hq.height, hq.weight, Rules.weight_concat, List.length_append]
    exact ⟨rfl, rfl⟩
  best := by
    intro id bei hl
    obtain ⟨q, hq⟩ := h.sound.entries id bei hl
    rw [hq.weight, h.sound.onMain.topCumulativeDifficulty]
    exact h.heaviest.best q ⟨id, bei, hl, hq⟩
  apart := by
    intro id hid
    obtain ⟨bei, hl⟩ := Finmap.mem_iff.mp hid
    obtain ⟨q, hq⟩ := h.sound.entries id bei hl
    rw [← Bool.not_eq_true]
    intro hexists
    obtain ⟨k, -, hk⟩ := h.sound.onMain.exists_take hexists
    have htake : main.take k <+: main := List.take_prefix k main
    obtain rfl := Rules.Good.unique hinj hq.good (h.sound.good.of_prefix htake)
      (by rw [hq.last, ← hq.id_eq, hk])
    exact h.heaviest.apart _ ⟨id, bei, hl, hq⟩ htake

/-- The states that calls of `add_new_block` lead to. Every call meets `StepOk`,
its block is one of `D`, and re-adding a disconnected chain always succeeded. -/
inductive Reaches (R : Rules) (D : Set Block) (bc₀ : Blockchain) : Blockchain → Prop
  | start : Reaches R D bc₀ bc₀
  | call {bc bc' : Blockchain} {now nesting : Nat} {bl : Block} {o : Outcome}
      (hrun : Reaches R D bc₀ bc) (hb : bl ∈ D) (hok : StepOk R bc bl)
      (hcall : bc.addNewBlock R.env now (nesting + 2) bl = some (o, bc'))
      (hroll : ∀ r ∈ o.rollbacks, r = true) : Reaches R D bc₀ bc'

theorem inv_genesis {hf : HardFork} {db : BlockchainDb}
    (hstart : HardFork.growAll (R.cfg, BlockchainDb.empty.setHardForkVersion 0
      R.cfg.originalVersion) [R.genesis] = some (hf, db)) :
    Inv R D (start hf db .empty) [] := by
  obtain ⟨htracks, hchain⟩ := (HardFork.tracks_empty _).growAll hstart
  have hmain : R.OnMain db.chain [] := by
    rw [hchain]
    exact ⟨rfl, fun s hs => by rw [List.mem_singleton.mp hs]; exact R.genesis_hash, rfl⟩
  have hnone : ∀ id bei, ¬ (start hf db .empty).alternativeChains.lookup id = some bei :=
    fun id bei h => by cases h
  refine ⟨sound_of_tracks rfl hmain Rules.good_nil htracks fun id bei h => absurd h (hnone id bei),
    fun h => absurd rfl h, ⟨?_, ?_⟩⟩
  · rintro q ⟨id, bei, h, -⟩
    exact absurd h (hnone id bei)
  · rintro q ⟨id, bei, h, -⟩
    exact absurd h (hnone id bei)

theorem Reaches.inv (hinj : Set.InjOn R.env.blockHash D) {bc0 : Blockchain} {main : List Block}
    (h0 : Inv R D bc0 main) (hrun : Reaches R D bc0 bc) : ∃ main', Inv R D bc main' := by
  induction hrun with
  | start => exact ⟨main, h0⟩
  | @call bc bc' now nesting bl o _ hb hok hcall hroll ih =>
    obtain ⟨main', hinv⟩ := ih
    obtain ⟨o', bc'', hcall', hstep⟩ := addNewBlock_inv hinj hinv hb hok now nesting
    rw [hcall] at hcall'
    obtain ⟨rfl, rfl⟩ := Prod.mk.inj (Option.some.inj hcall')
    obtain ⟨main'', hinv', -⟩ := hstep hroll
    exact ⟨main'', hinv'⟩

/-- **The heaviest-chain rule.** In every run from the genesis block in which each
call meets `StepOk`, the rule holds after every call, and the next call does not
lower the cumulative difficulty of the main chain. -/
theorem heaviest_chain_rule (R : Rules) (D : Set Block) (hinj : Set.InjOn R.env.blockHash D)
    {hf : HardFork} {db : BlockchainDb}
    (hstart : HardFork.growAll (R.cfg, BlockchainDb.empty.setHardForkVersion 0
      R.cfg.originalVersion) [R.genesis] = some (hf, db))
    {bc : Blockchain} (hrun : Reaches R D (start hf db .empty) bc) :
    HeaviestChain R bc ∧ ∀ (now nesting : Nat) (bl : Block), bl ∈ D → StepOk R bc bl →
      ∃ o bc', bc.addNewBlock R.env now (nesting + 2) bl = some (o, bc') ∧
        ((∀ r ∈ o.rollbacks, r = true) → HeaviestChain R bc' ∧
          topCumulativeDifficulty bc.db ≤ topCumulativeDifficulty bc'.db) := by
  obtain ⟨main, hinv⟩ := hrun.inv hinj (inv_genesis hstart)
  refine ⟨hinv.heaviestChain hinj, fun now nesting bl hb hok => ?_⟩
  obtain ⟨o, bc', hcall, hstep⟩ := addNewBlock_inv hinj hinv hb hok now nesting
  refine ⟨o, bc', hcall, fun hroll => ?_⟩
  obtain ⟨main', hinv', hle⟩ := hstep hroll
  refine ⟨hinv'.heaviestChain hinj, ?_⟩
  rwa [hinv.sound.onMain.topCumulativeDifficulty, hinv'.sound.onMain.topCumulativeDifficulty]

def sampleGenesis : StoredBlock :=
  { blk := sampleBlock 1 0 0 0 0, hash := numberedHash 0, size := 0, cumulativeDifficulty := 1,
    coins := 0, txs := [] }

def sampleRules : Rules :=
  { env := .permissive
    table := straddledTable
    windowSize := HardFork.defaultWindowSize
    windowSize_pos := HardFork.defaultWindowSize_pos
    genesis := sampleGenesis
    genesis_hash := rfl
    noVoting := by decide
    first_version := rfl
    first_height := by decide
    genesis_carries := by decide }

/-! ### Runs that are evaluated -/

/-- The ancestors of the blocks on the main chain, and of those of `ids` beside it. -/
def knownAncestors (bc : Blockchain) (ids : List Hash) : List (Hash × Nat × List (Nat × Nat)) :=
  let onMain := bc.db.chain.zipIdx.map fun (s, k) =>
    (s.hash, k + 1, (bc.db.chain.take (k + 1)).map StoredBlock.weighed)
  ids.foldl (fun known id => match bc.alternativeChains.lookup id with
    | none => known
    | some bei => known ++ (known.filter (·.1 = bei.bl.prevId)).map fun a =>
        (id, a.2.1, a.2.2 ++ [bei.weighed])) onMain

/-- The ancestors of every alternative block are among the known ones. -/
def AllKnown (bc : Blockchain) (known : List (Hash × Nat × List (Nat × Nat))) : Prop :=
  (∀ p ∈ bc.db.chain.zipIdx,
    (p.1.hash, p.2 + 1, (bc.db.chain.take (p.2 + 1)).map StoredBlock.weighed) ∈ known) ∧
  ∀ e ∈ bc.alternativeChains.entries, ∀ a ∈ known, a.1 = e.2.bl.prevId →
    (e.1, a.2.1, a.2.2 ++ [e.2.weighed]) ∈ known

theorem AllKnown.mem {known : List (Hash × Nat × List (Nat × Nat))} (h : AllKnown bc known)
    {id : Hash} (hanc : Ancestors bc id split anc) : (id, split, anc) ∈ known := by
  induction hanc with
  | @main k s hs => exact h.1 (s, k) (List.mk_mem_zipIdx_iff_getElem?.mpr hs)
  | @alt id bei split anc hl _ ih =>
    exact h.2 ⟨id, bei⟩ (Finmap.lookup_eq_some_iff.mp hl) _ ih rfl

/-- `StepOk` as a check of the known ancestors. -/
def StepChecked (R : Rules) (bc : Blockchain) (ids : List Hash) (bl : Block) : Prop :=
  AllKnown bc (bc.knownAncestors ids) ∧
  (∀ a ∈ bc.knownAncestors ids, a.1 = bl.prevId →
    topWeight a.2.2 + requiredDifficulty R.env R.forks a.2.2 < 2 ^ 64 ∧
    (bl.prevId ≠ bc.db.topBlockHash → ∀ n ≤ max (bc.db.height - 1) a.2.2.length,
      a.2.1 < n → ¬ R.forks.Widens n)) ∧
  (bl.prevId = bc.db.topBlockHash → bc.CacheFits) ∧
  (bl.prevId ≠ bc.db.topBlockHash → bl.prevId ≠ R.genesis.hash)

theorem StepChecked.stepOk {ids : List Hash} {bl : Block} (h : StepChecked R bc ids bl) :
    StepOk R bc bl where
  fits _ _ hanc := (h.2.1 _ (h.1.mem hanc) rfl).1
  cache := h.2.2.1
  narrow hne _ _ hanc n hlt hle := (h.2.1 _ (h.1.mem hanc) rfl).2 hne n hle hlt
  defined := h.2.2.2

instance (t : ForkTable) (n : Nat) : Decidable (t.Widens n) := inferInstanceAs (Decidable (_ < _))

instance (bc : Blockchain) : Decidable bc.CacheFits := inferInstanceAs (Decidable (_ → _))

instance (R : Rules) (bc : Blockchain) (ids : List Hash) (bl : Block) :
    Decidable (StepChecked R bc ids bl) := by
  unfold StepChecked AllKnown
  infer_instance

/-- Delivers the blocks, as long as every call meets `StepOk`. -/
def deliverChecked (R : Rules) (now : Nat) (ids : List Hash) :
    Blockchain → List Block → Option Blockchain
  | bc, [] => some bc
  | bc, b :: rest =>
    if StepChecked R bc ids b then
      (bc.addNewBlock R.env now 2 b).bind fun call =>
        if ∀ r ∈ call.1.rollbacks, r = true then deliverChecked R now ids call.2 rest else none
    else none

theorem Reaches.deliverChecked {ids : List Hash} {bc₀ : Blockchain} : ∀ {blocks : List Block}
    {bc : Blockchain}, (∀ b ∈ blocks, b ∈ D) → Reaches R D bc₀ bc →
      deliverChecked R now ids bc blocks = some bc' → Reaches R D bc₀ bc'
  | [], _, _, hrun, h => by
    cases h
    exact hrun
  | b :: rest, bc, hD, hrun, h => by
    rw [Blockchain.deliverChecked] at h
    split at h
    · rename_i hok
      obtain ⟨⟨o, next⟩, hcall, h⟩ := Option.bind_eq_some_iff.mp h
      split at h
      · rename_i hroll
        have hD' := List.forall_mem_cons.mp hD
        exact Reaches.deliverChecked hD'.2 (.call hrun hD'.1 hok.stepOk hcall hroll) h
      · cases h
    · cases h

/-- Blocks above the fork: the common ones, a block, and a branch of two beside it. -/
def forkedCommon : List Block :=
  [straddlingBlock 1 0 1, straddlingBlock 2 1 2, straddlingBlock 3 2 3]

@[inherit_doc forkedCommon]
def forkedMain : List Block := [straddlingBlock 4 3 4]

@[inherit_doc forkedCommon]
def forkedBranch : List Block := [straddlingBlock 14 3 4, straddlingBlock 15 14 5]

/-- The node with the genesis block. -/
def forkedStart : Option (HardFork × BlockchainDb) :=
  HardFork.growAll (sampleRules.cfg,
    BlockchainDb.empty.setHardForkVersion 0 sampleRules.cfg.originalVersion) [sampleRules.genesis]

def forkedRun (s : HardFork × BlockchainDb) (blocks : List Block) : Option Blockchain :=
  deliverChecked sampleRules 10000 ((forkedMain ++ forkedBranch).map Env.permissive.blockHash)
    (start s.1 s.2 .empty) blocks

def forkedBlocks : Set Block := {b | b ∈ forkedCommon ++ forkedMain ++ forkedBranch}

theorem forkedBlocks_injOn : Set.InjOn sampleRules.env.blockHash forkedBlocks :=
  fun _ ha _ hb heq => List.inj_on_of_nodup_map (by decide :
    ((forkedCommon ++ forkedMain ++ forkedBranch).map Env.permissive.blockHash).Nodup) ha hb heq

/-- The branch comes after the block beside it. When its second block arrives, the node switches
and keeps the block it had as an alternative one. -/
theorem heaviest_chain_rule_switch : ∃ hf db bc, forkedStart = some (hf, db) ∧
    Reaches sampleRules forkedBlocks (start hf db .empty) bc ∧
    bc.db.topBlockHash = numberedHash 15 ∧ numberedHash 4 ∈ bc.alternativeChains ∧
    HeaviestChain sampleRules bc := by
  obtain ⟨⟨hf, db⟩, hgrow, h⟩ := (Option.any_eq_true _ _).mp (by decide +kernel :
    forkedStart.any (fun s =>
      (forkedRun s (forkedCommon ++ forkedMain ++ forkedBranch)).any (fun bc =>
        bc.db.topBlockHash = numberedHash 15 ∧ numberedHash 4 ∈ bc.alternativeChains)) = true)
  obtain ⟨bc, hrun, h⟩ := (Option.any_eq_true _ _).mp h
  obtain ⟨htop, halt⟩ := of_decide_eq_true h
  have hreach := Reaches.deliverChecked (D := forkedBlocks) (fun b hb => hb) .start hrun
  exact ⟨hf, db, bc, hgrow, hreach, htop, halt,
    (heaviest_chain_rule sampleRules _ forkedBlocks_injOn hgrow hreach).1⟩

/-- The block is on the main chain or beside it. -/
def Stores (bc : Blockchain) (id : Hash) : Prop :=
  bc.db.blockExists id = true ∨ id ∈ bc.alternativeChains

theorem Inv.prefix_main (hinj : Set.InjOn R.env.blockHash D) (h : Inv R D bc main) {p : List Block}
    (hp : R.Good D p) (hid : bc.db.blockExists (R.env.blockHash (R.tip p)) = true) : p <+: main := by
  obtain ⟨k, -, hk⟩ := h.sound.onMain.exists_take hid
  have htake : main.take k <+: main := List.take_prefix k main
  rwa [Rules.Good.unique hinj hp (h.sound.good.of_prefix htake) hk]

theorem Inv.weight_le (hinj : Set.InjOn R.env.blockHash D) (h : Inv R D bc main) {p : List Block}
    (hp : R.Good D p) (hid : bc.Stores (R.env.blockHash (R.tip p))) : R.weight p ≤ R.weight main := by
  rcases hid with hid | hid
  · exact h.sound.good.weight_le (h.prefix_main hinj hp hid)
  · obtain ⟨bei, hl⟩ := Finmap.mem_iff.mp hid
    obtain ⟨q, hq⟩ := h.sound.entries _ bei hl
    obtain rfl := Rules.Good.unique hinj hp hq.good (by rw [hq.id_eq, hq.last])
    exact h.heaviest.best p ⟨_, bei, hl, hq⟩

/-- **Nodes agree.** Two nodes have taken blocks from the genesis block on, each in its own
order. If each stores the top block of the other, their main chains have the same cumulative
difficulty; and they are the same chain if one of them has the top of the other on it. -/
theorem nodes_agree (R : Rules) (D : Set Block) (hinj : Set.InjOn R.env.blockHash D)
    {hf : HardFork} {db : BlockchainDb}
    (hstart : HardFork.growAll (R.cfg, BlockchainDb.empty.setHardForkVersion 0
      R.cfg.originalVersion) [R.genesis] = some (hf, db)) {bc bc' : Blockchain}
    (hrun : Reaches R D (start hf db .empty) bc) (hrun' : Reaches R D (start hf db .empty) bc')
    (htop : bc'.Stores bc.db.topBlockHash) (htop' : bc.Stores bc'.db.topBlockHash) :
    topCumulativeDifficulty bc.db = topCumulativeDifficulty bc'.db ∧
      (bc'.db.blockExists bc.db.topBlockHash = true →
        bc.db.chain.map (·.blk) = bc'.db.chain.map (·.blk)) := by
  obtain ⟨main, hinv⟩ := hrun.inv hinj (inv_genesis hstart)
  obtain ⟨main', hinv'⟩ := hrun'.inv hinj (inv_genesis hstart)
  have hmain := hinv.sound.onMain
  have hmain' := hinv'.sound.onMain
  rw [hmain.topBlockHash] at htop ⊢
  rw [hmain'.topBlockHash] at htop'
  rw [hmain.topCumulativeDifficulty, hmain'.topCumulativeDifficulty]
  have hweight : R.weight main = R.weight main' :=
    (hinv'.weight_le hinj hinv.sound.good htop).antisymm (hinv.weight_le hinj hinv'.sound.good htop')
  refine ⟨hweight, fun hexists => ?_⟩
  -- a front of the same weight is the whole chain, as every block adds work
  obtain ⟨rest, rfl⟩ := hinv'.prefix_main hinj hinv.sound.good hexists
  rcases List.eq_nil_or_concat' rest with rfl | ⟨rest, b, rfl⟩
  · rw [hmain.blocks, hmain'.blocks, List.append_nil]
  · rw [← List.append_assoc] at hinv' hweight
    have hlt := hinv'.sound.good.weight_lt
    have hfront := hinv'.sound.good.of_prefix (List.prefix_append _ _)
    have hle := hfront.weight_le (List.prefix_append main rest)
    omega

/-- One node switches to the branch, the other had it first and stores the block beside it. -/
theorem nodes_agree_switch : ∃ s bc bc', forkedStart = some s ∧
    forkedRun s (forkedCommon ++ forkedMain ++ forkedBranch) = some bc ∧
    forkedRun s (forkedCommon ++ forkedBranch ++ forkedMain) = some bc' ∧
    topCumulativeDifficulty bc.db = topCumulativeDifficulty bc'.db ∧
    bc.db.chain.map (·.blk) = bc'.db.chain.map (·.blk) := by
  obtain ⟨s, hgrow, h⟩ := (Option.any_eq_true _ _).mp (by decide +kernel :
    forkedStart.any (fun s =>
      (forkedRun s (forkedCommon ++ forkedMain ++ forkedBranch)).any (fun bc =>
        bc.db.blockExists (numberedHash 15) ∧ bc.db.topBlockHash = numberedHash 15) ∧
      (forkedRun s (forkedCommon ++ forkedBranch ++ forkedMain)).any (fun bc =>
        bc.db.blockExists (numberedHash 15) ∧ bc.db.topBlockHash = numberedHash 15)) = true)
  obtain ⟨h, h'⟩ := of_decide_eq_true h
  obtain ⟨bc, hrun, h⟩ := (Option.any_eq_true _ _).mp h
  obtain ⟨bc', hrun', h'⟩ := (Option.any_eq_true _ _).mp h'
  obtain ⟨hexists, htop⟩ := of_decide_eq_true h
  obtain ⟨hexists', htop'⟩ := of_decide_eq_true h'
  have hreach := Reaches.deliverChecked (D := forkedBlocks) (fun b hb => hb) .start hrun
  have hreach' := Reaches.deliverChecked (D := forkedBlocks) (fun b hb => by
    simp only [forkedBlocks, List.mem_append, Set.mem_ofPred_eq] at hb ⊢
    tauto) .start hrun'
  have hagree := nodes_agree sampleRules _ forkedBlocks_injOn hgrow hreach hreach'
    (.inl (htop ▸ hexists')) (.inl (htop' ▸ hexists))
  exact ⟨s, bc, bc', hgrow, hrun, hrun', hagree.1, hagree.2 (htop ▸ hexists')⟩

/-- Blocks for `wideningTable`: the chain that slows down, and one block of the
last version, whose difficulty is computed on a cache that is too short. -/
def fallingMain : List Block := (List.range 34).map slowingBlock ++ [sampleBlock 5 34 33 34 1040]

def fallingAlternative : Block :=
  { sampleBlock 5 134 33 34 1040 with txHashes := [numberedHash 7] }

/-- A block on top of it makes the branch the heavier one. The switch fails and is
rolled back, and the block that comes back weighs less than before. -/
theorem rollback_lowers_weight : ∃ bc o bc',
    deliver .permissive 10000 wideningNode (fallingMain ++ [fallingAlternative]) = some bc ∧
    topCumulativeDifficulty bc.db = 727180479 ∧
    bc.addNewBlock .permissive 10000 2 (sampleBlock 5 135 134 35 1100) = some (o, bc') ∧
    o.rollbacks = [true] ∧ bc'.db.height = bc.db.height ∧
    topCumulativeDifficulty bc'.db = 724547794 := by
  obtain ⟨bc, hbc, h⟩ := (Option.any_eq_true _ _).mp (by decide +kernel :
    (deliver .permissive 10000 wideningNode (fallingMain ++ [fallingAlternative])).any (fun bc =>
      topCumulativeDifficulty bc.db = 727180479 ∧
      (bc.addNewBlock .permissive 10000 2 (sampleBlock 5 135 134 35 1100)).any (fun r =>
        r.1.rollbacks = [true] ∧ r.2.db.height = bc.db.height ∧
        topCumulativeDifficulty r.2.db = 724547794) = true) = true)
  obtain ⟨hbefore, h⟩ := of_decide_eq_true h
  obtain ⟨⟨o, bc'⟩, hcall, h⟩ := (Option.any_eq_true _ _).mp h
  obtain ⟨hroll, hheight, hafter⟩ := of_decide_eq_true h
  exact ⟨bc, o, bc', hbc, hbefore, hcall, hroll, hheight, hafter⟩

end Blockchain

end Lethean
