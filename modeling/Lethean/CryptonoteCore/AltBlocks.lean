import Lethean.CryptonoteCore.SwitchPaths

/-!
# Lethean.CryptonoteCore.AltBlocks

`handle_alternative_block` on a node whose records are right: it returns, and an
entry that it stores is right. A switch that succeeded calls it for every block
of the disconnected chain; these are lighter than the new main chain, so the
nested calls do not switch again (`pushAlts_lighter`).
-/

namespace Lethean

open HardFork (SameConfig Tracks)

namespace Blockchain

variable {R : Rules} {D : Set Block} {handler : AltHandler} {env : Env} {now : Nat}
  {bc bc' : Blockchain} {main r : List Block} {branch : List AltEntry} {b : Block} {id : Hash}
  {o : Outcome}

/-! ### The handler returns -/

theorem extendBranch_isSome (hts : bc.altTimestamps branch b.prevId ≠ [])
    (hstore : ∀ height currentDiff, AltAccepted env bc branch b height currentDiff →
      (bc.storeAlternative handler env now branch
        ⟨b, height, u64 (bc.parentCumulativeDifficulty branch b.prevId + currentDiff)⟩ id
        (bc.checkpoints.checkBlock height id).2).isSome) :
    (bc.extendBranch handler env now branch b id).isSome := by
  have hsorted : sortU64 (bc.altTimestamps branch b.prevId) ≠ [] := by
    intro hnil
    have hlen := congrArg List.length hnil
    rw [sortU64, List.length_insertionSort] at hlen
    exact hts (List.length_eq_zero_iff.mp hlen)
  obtain ⟨ok, hok⟩ : ∃ ok, checkTimestamps bc.currentVersion (bc.altTimestamps branch b.prevId)
      b.toBlockHeader = some ok := by
    unfold checkTimestamps
    rw [List.getLast?_eq_some_getLast hsorted]
    dsimp only
    split_ifs <;> exact ⟨_, rfl⟩
  unfold extendBranch
  rw [hok]
  dsimp only [Option.bind_eq_bind, Option.bind_some]
  split
  · rfl
  rename_i hts'
  split
  · rfl
  split
  · rfl
  rename_i hdiff
  split
  · rfl
  rename_i hpow
  split
  · rfl
  rename_i hminer
  rw [Bool.eq_true_of_not_eq_false hts'] at hok
  exact hstore _ _ ⟨rfl, hok, rfl, hdiff, Bool.eq_true_of_not_eq_false hpow,
    Bool.eq_true_of_not_eq_false hminer⟩

theorem altBlockWith_isSome (h : ∀ branch, Connected bc.dropCache branch b.prevId →
      bc.hardfork.checkForHeight b.toBlockHeader b.getBlockHeight = true →
      (bc.dropCache.extendBranch handler env now branch b id).isSome) :
    (handleAlternativeBlockWith handler env now bc b id).isSome := by
  unfold handleAlternativeBlockWith
  dsimp only
  split
  · rfl
  split
  · rfl
  split
  · rfl
  rename_i hversion
  have hversion' := Bool.eq_true_of_not_eq_false hversion
  split
  · rename_i hbr
    split
    · rename_i hmain
      exact h [] ⟨hbr.symm, fun _ => hmain, by simp⟩ hversion'
    · rfl
  · rename_i front rest hbr
    split
    · rename_i hconn
      refine h (front :: rest) ⟨hbr.symm, by simp, fun e he => ?_⟩ hversion'
      obtain rfl : front = e := by simpa using he
      exact hconn
    · rfl

/-- There is a timestamp to compare with, unless the block is right above the
genesis block. -/
theorem altTimestamps_ne_nil {k : Nat} (hinj : Set.InjOn R.env.blockHash D)
    (hgood : R.Good D main) (hmain : R.OnMain bc.db.chain main)
    (hon : BranchOn R D bc main branch b.prevId k) (h1 : 1 ≤ k) :
    bc.altTimestamps branch b.prevId ≠ [] := by
  have hheight : bc.db.getBlockHeight (splitId branch b.prevId) = some k := by
    rw [hon.split]
    exact hmain.getBlockHeight hinj hgood hon.le
  have hlen := hmain.length_eq
  have hle := hon.le
  have hwindow : 0 < timestampCheckWindow bc.currentVersion := by
    unfold timestampCheckWindow
    split <;> decide
  rw [altTimestamps, hheight, Option.getD_some]
  by_cases hbr : branch = []
  · subst hbr
    intro hnil
    have hzero := congrArg List.length hnil
    simp only [completeTimestampsVector, List.map_nil, List.reverse_nil, List.length_nil] at hzero
    rw [if_neg (by omega), if_neg (by omega)] at hzero
    simp only [List.nil_append, List.length_reverse, List.length_map, List.length_drop,
      List.length_take] at hzero
    split at hzero <;> omega
  · have hne : (branch.map fun e => e.2.bl.timestamp).reverse ≠ [] := by simpa using hbr
    unfold completeTimestampsVector
    dsimp only
    split_ifs
    · exact hne
    · exact hne
    · exact List.append_ne_nil_of_left_ne_nil hne _
    · exact List.append_ne_nil_of_left_ne_nil hne _

/-! ### What it stores -/

theorem getBlockHeight_of_prevalidate {height : Nat}
    (h : prevalidateMinerTransaction b height = true) : b.getBlockHeight = height := by
  unfold prevalidateMinerTransaction at h
  split at h
  · rename_i height' hvin
    have hclaimed : b.getBlockHeight = height' := by simp [Block.getBlockHeight, hvin]
    simp only [Bool.and_eq_true, decide_eq_true_eq] at h
    exact hclaimed.trans h.1.1
  · cases h

def newPath (main : List Block) (k : Nat) (branch : List AltEntry) (b : Block) : List Block :=
  main.take k ++ branch.map (·.2.bl) ++ [b]

/-- The entry that `handle_alternative_block` makes for a block it accepts. -/
theorem AltAccepted.extends {k height currentDiff : Nat}
    (hacc : AltAccepted R.env bc branch b height currentDiff)
    (hon : BranchOn R D bc main branch b.prevId k) (hcfg : SameConfig R.cfg bc.hardfork)
    (hversion : bc.hardfork.checkForHeight b.toBlockHeader b.getBlockHeight = true)
    (hb : b ∈ D) (hnot : R.env.blockHash b ≠ R.genesis.hash)
    (hfits : R.weight (main.take k ++ branch.map (·.2.bl)) +
      R.required (main.take k ++ branch.map (·.2.bl)) < 2 ^ 64) :
    R.Extends D (main.take k ++ branch.map (·.2.bl)) b := by
  have hlen : (main.take k ++ branch.map (·.2.bl)).length = k + branch.length := by
    rw [List.length_append, List.length_take_of_le hon.le, List.length_map]
  have hheight : height = k + branch.length + 1 := by rw [hacc.height_eq, hon.height]
  have hdiff : currentDiff = R.required (main.take k ++ branch.map (·.2.bl)) := by
    rw [hacc.difficulty_eq, hheight, hon.difficulty]
  refine ⟨hb, hon.prev, hnot, ?_, ?_, hfits⟩
  · rw [getBlockHeight_of_prevalidate hacc.miner, hheight] at hversion
    rw [hlen]
    exact (R.checkForHeight_iff hcfg (Nat.le_add_left _ _) _).mp hversion
  · rw [← hdiff]
    exact Nat.pos_of_ne_zero hacc.difficulty_ne

theorem AltAccepted.isEntry {k height currentDiff : Nat}
    (hacc : AltAccepted R.env bc branch b height currentDiff)
    (hon : BranchOn R D bc main branch b.prevId k)
    (hgood : R.Good D (newPath main k branch b)) (h1 : 1 ≤ k) :
    R.IsEntry D (R.env.blockHash b)
      ⟨b, height, u64 (bc.parentCumulativeDifficulty branch b.prevId + currentDiff)⟩
      (newPath main k branch b) := by
  have hlen : (newPath main k branch b).length = k + branch.length + 1 := by
    rw [newPath, List.length_append, List.length_append, List.length_take_of_le hon.le,
      List.length_map, List.length_singleton]
  have hheight : height = k + branch.length + 1 := by rw [hacc.height_eq, hon.height]
  have hfits := hgood.weight_fits
  refine ⟨hgood, by omega, Rules.tip_concat _ _, rfl, by rw [hlen]; exact hheight, ?_⟩
  rw [hacc.difficulty_eq, hheight, hon.difficulty, hon.weight, newPath, Rules.weight_concat]
  rw [Rules.weight_concat] at hfits
  exact u64_of_lt hfits

/-! ### Blocks that are not heavier -/

/-- A node whose records are right, wherever its hard-fork object is. -/
structure AltReady (R : Rules) (D : Set Block) (bc : Blockchain) (main : List Block) : Prop where
  checkpoints : bc.checkpoints = .empty
  onMain : R.OnMain bc.db.chain main
  good : R.Good D main
  config : SameConfig R.cfg bc.hardfork
  entries : R.Entries D bc.alternativeChains

theorem AltReady.dropCache (h : AltReady R D bc main) : AltReady R D bc.dropCache main :=
  ⟨h.checkpoints, h.onMain, h.good, h.config, h.entries⟩

/-- A block that is not heavier is refused or kept; there is no switch. -/
theorem storeAlt_lighter {bei : BlockExtendedInfo}
    (hlight : bei.cumulativeDifficulty ≤ topCumulativeDifficulty bc.db) :
    ∃ o, o.rollbacks = [] ∧
      (bc.storeAlternative handler env now branch bei id false = some (o, bc) ∨
        id ∉ bc.alternativeChains ∧
        bc.storeAlternative handler env now branch bei id false =
          some (o, { bc with alternativeChains := bc.alternativeChains.insert id bei })) := by
  unfold storeAlternative
  split
  · exact ⟨_, rfl, .inl rfl⟩
  · rename_i hmem
    rw [if_neg (by simpa using hlight)]
    exact ⟨_, rfl, .inr ⟨hmem, rfl⟩⟩

/-- **A nested call.** A block whose path is known, and not heavier than the main
chain, is refused or kept with the right entry. -/
theorem altBlock_lighter (hinj : Set.InjOn R.env.blockHash D)
    (hready : AltReady R D bc main) (hgood : R.Good D (r ++ [b])) (h1 : 1 ≤ r.length)
    (hlight : R.weight (r ++ [b]) ≤ R.weight main) (nesting : Nat) :
    ∃ o bc', handleAlternativeBlock R.env now (nesting + 1) bc b (R.env.blockHash b) =
        some (o, bc') ∧ o.rollbacks = [] ∧
      (bc' = bc.dropCache ∨ ∃ bei, R.IsEntry D (R.env.blockHash b) bei (r ++ [b]) ∧
        bc' = { bc.dropCache with
          alternativeChains := bc.alternativeChains.insert (R.env.blockHash b) bei }) := by
  have hready' := hready.dropCache
  obtain ⟨hr, hext⟩ := Rules.good_concat_iff.mp hgood
  -- a branch that ends in the parent is the known path
  have hbranch : ∀ branch, Connected bc.dropCache branch b.prevId →
      ∃ k, BranchOn R D bc.dropCache main branch b.prevId k ∧ 1 ≤ k ∧
        newPath main k branch b = r ++ [b] := by
    intro branch hconn
    obtain ⟨k, hon⟩ := hconn.branchOn hinj hready'.good hready'.onMain hready'.entries hready'.config
    obtain heq : main.take k ++ branch.map (·.2.bl) = r := by
      refine Rules.Good.unique hinj hon.path.good hr ?_
      rw [← hon.prev, hext.parent]
    refine ⟨k, hon, ?_, by rw [newPath, heq]⟩
    by_cases hbr : branch = []
    · subst hbr
      rw [List.map_nil, List.append_nil] at heq
      rwa [← heq, List.length_take_of_le hon.le] at h1
    · exact hon.high hbr
  have hcheckpoint : ∀ height, (bc.dropCache.checkpoints.checkBlock height
      (R.env.blockHash b)).2 = false := by
    intro height
    rw [hready'.checkpoints]
    rfl
  -- so the entry is right, and not heavier
  have hstored : ∀ {branch height currentDiff}, Connected bc.dropCache branch b.prevId →
      AltAccepted R.env bc.dropCache branch b height currentDiff → ∃ bei,
      bei = ⟨b, height, u64 (bc.dropCache.parentCumulativeDifficulty branch b.prevId +
        currentDiff)⟩ ∧
      R.IsEntry D (R.env.blockHash b) bei (r ++ [b]) ∧
      bei.cumulativeDifficulty ≤ topCumulativeDifficulty bc.dropCache.db := by
    intro branch height currentDiff hconn hacc
    obtain ⟨k, hon, hk, heq⟩ := hbranch branch hconn
    have hentry := hacc.isEntry hon (by rwa [heq]) hk
    rw [heq] at hentry
    refine ⟨_, rfl, hentry, ?_⟩
    rwa [hready'.onMain.topCumulativeDifficulty, hentry.weight]
  have hsome : (handleAlternativeBlock R.env now (nesting + 1) bc b (R.env.blockHash b)).isSome := by
    refine altBlockWith_isSome fun branch hconn _ => ?_
    obtain ⟨k, hon, hk, -⟩ := hbranch branch hconn
    refine extendBranch_isSome (altTimestamps_ne_nil hinj hready'.good hready'.onMain hon hk) ?_
    intro height currentDiff hacc
    obtain ⟨bei, hbei, -, hle⟩ := hstored hconn hacc
    rw [hcheckpoint, ← hbei]
    obtain ⟨o, -, h | ⟨-, h⟩⟩ := storeAlt_lighter hle <;> rw [h] <;> rfl
  obtain ⟨⟨o, bc'⟩, hrun⟩ := Option.isSome_iff_exists.mp hsome
  refine ⟨o, bc', hrun, ?_⟩
  rcases altBlockWith_inv hrun with ⟨rfl, -, hroll⟩ | ⟨branch, hconn, -, -, -, hext'⟩
  · exact ⟨hroll, .inl rfl⟩
  rcases extendBranch_inv hext' with ⟨rfl, -, hroll⟩ | ⟨height, currentDiff, hacc, -, hstore⟩
  · exact ⟨hroll, .inl rfl⟩
  · obtain ⟨bei, hbei, hentry, hle⟩ := hstored hconn hacc
    rw [hcheckpoint, ← hbei] at hstore
    obtain ⟨o', hroll, h | ⟨-, h⟩⟩ := storeAlt_lighter hle
    · rw [h] at hstore
      cases hstore
      exact ⟨hroll, .inl rfl⟩
    · rw [h] at hstore
      cases hstore
      exact ⟨hroll, .inr ⟨bei, hentry, rfl⟩⟩

/-- What pushing the blocks of a path above `r` back can change. -/
structure Pushed (R : Rules) (D : Set Block) (bc bc' : Blockchain) (r p : List Block) : Prop where
  db : bc'.db = bc.db
  hardfork : bc'.hardfork = bc.hardfork
  checkpoints : bc'.checkpoints = bc.checkpoints
  entries : ∀ id bei, bc'.alternativeChains.lookup id = some bei →
    bc.alternativeChains.lookup id = some bei ∨
      ∃ q, R.IsEntry D id bei q ∧ q <+: p ∧ r.length < q.length

theorem Pushed.refl (bc : Blockchain) (r p : List Block) : Pushed R D bc bc r p :=
  ⟨rfl, rfl, rfl, fun _ _ h => .inl h⟩

theorem Pushed.altReady {p : List Block} (h : Pushed R D bc bc' r p)
    (hready : AltReady R D bc main) : AltReady R D bc' main := by
  refine ⟨by rw [h.checkpoints]; exact hready.checkpoints, by rw [h.db]; exact hready.onMain,
    hready.good, by rw [h.hardfork]; exact hready.config, fun id bei hl => ?_⟩
  rcases h.entries id bei hl with hl | ⟨q, hq, -⟩
  · exact hready.entries id bei hl
  · exact ⟨q, hq⟩

/-- **Pushing the disconnected blocks back** as alternative ones, when they are
lighter than the new main chain. -/
theorem pushAlts_lighter (hinj : Set.InjOn R.env.blockHash D) (nesting : Nat) :
    ∀ {blocks r : List Block} {bc : Blockchain}, AltReady R D bc main → R.Good D (r ++ blocks) →
      1 ≤ r.length → R.weight (r ++ blocks) ≤ R.weight main →
      ∃ bc', pushAlternatives R.env (handleAlternativeBlock R.env now (nesting + 1)) blocks bc =
          some ([], bc') ∧ Pushed R D bc bc' r (r ++ blocks)
  | [], r, bc, _, _, _, _ => ⟨bc, rfl, .refl bc _ _⟩
  | b :: rest, r, bc, hready, hgood, h1, hlight => by
    have hassoc : r ++ b :: rest = (r ++ [b]) ++ rest := by simp
    have hpre : r ++ [b] <+: r ++ b :: rest := ⟨rest, hassoc.symm⟩
    obtain ⟨o, bc1, hrun, hroll, hres⟩ := altBlock_lighter hinj hready
      (hgood.of_prefix hpre) h1 ((hgood.weight_le hpre).trans hlight) nesting
    have hpushed : Pushed R D bc bc1 r (r ++ b :: rest) := by
      rcases hres with rfl | ⟨bei, hentry, rfl⟩
      · exact ⟨rfl, rfl, rfl, fun _ _ h => .inl h⟩
      · exact ⟨rfl, rfl, rfl, Inverted.forall_lookup_insert (fun _ _ h => .inl h)
          (.inr ⟨r ++ [b], hentry, hpre, by simp⟩)⟩
    obtain ⟨bc', hrest, hpushed'⟩ := pushAlts_lighter hinj nesting
      (hpushed.altReady hready) (hassoc ▸ hgood) (by simp) (hassoc ▸ hlight)
    refine ⟨bc', ?_, hpushed'.db.trans hpushed.db, hpushed'.hardfork.trans hpushed.hardfork,
      hpushed'.checkpoints.trans hpushed.checkpoints, fun id bei hl => ?_⟩
    · rw [pushAlternatives, hrun]
      simp only [Option.bind_eq_bind, Option.bind_some, hrest, hroll, List.append_nil]
    · rcases hpushed'.entries id bei hl with hl | ⟨q, hq, hqpre, hlen⟩
      · exact hpushed.entries id bei hl
      · refine .inr ⟨q, hq, by rwa [hassoc], ?_⟩
        rw [List.length_append, List.length_singleton] at hlen
        omega

/-! ### Erasing entries -/

theorem lookup_eraseAlts (bc : Blockchain) (ids : List Hash) (id : Hash) :
    (bc.eraseAlternatives ids).alternativeChains.lookup id =
      if id ∈ ids then none else bc.alternativeChains.lookup id := by
  have hfold : ∀ (ids : List Hash) (m : Finmap fun _ : Hash => BlockExtendedInfo),
      (ids.foldl (fun m id => m.erase id) m).lookup id =
        if id ∈ ids then none else m.lookup id := by
    intro ids
    induction ids with
    | nil => simp
    | cons i ids ih =>
      intro m
      rw [List.foldl_cons, ih]
      by_cases hi : id = i
      · subst hi
        simp [Finmap.lookup_erase]
      · simp [hi, Finmap.lookup_erase_ne hi]
  exact hfold ids _

theorem markInvalid_spec (bc : Blockchain) (entries : List AltEntry) :
    (bc.markInvalid entries).db = bc.db ∧ (bc.markInvalid entries).hardfork = bc.hardfork ∧
      (bc.markInvalid entries).checkpoints = bc.checkpoints ∧
      ∀ id, (bc.markInvalid entries).alternativeChains.lookup id =
        if id ∈ entries.map Prod.fst then none else bc.alternativeChains.lookup id := by
  have hfold : ∀ (l : List AltEntry) (s : Blockchain),
      SameChain s (l.foldl (fun bc e => bc.addBlockAsInvalid e.2 e.1) s) := by
    intro l
    induction l with
    | nil => exact fun s => .refl s
    | cons e l ih => exact fun s => (addInvalid_sameChain s e.2 e.1).trans (ih _)
  have hsame := hfold entries bc
  refine ⟨hsame.db, hsame.hardfork, hsame.checkpoints, fun id => ?_⟩
  rw [markInvalid, lookup_eraseAlts, hsame.alternativeChains]

end Blockchain

end Lethean
