import Lethean.CryptonoteCore.AltBlocks

/-!
# Lethean.CryptonoteCore.CheckpointFinality

Checkpoints are final: once the main chain has passed one, no block at or below
its height is ever replaced.

A switch replaces the blocks above the point where its branch leaves the main
chain, so the split point has to be bounded. Three checks do it together. The
height that a miner transaction claims is compared with the last checkpoint
before the top; it is the block's real height, by `prevalidate_miner_transaction`;
and a branch that is stored has no block at a checkpoint height, because such a
block is switched to at once and leaves `m_alternative_chains` whether the switch
succeeds or not (`Unmarked`). A branch that left the main chain below a
checkpoint would have to contain such a block.

Nothing is assumed of the fork table, of the difficulties or of the rollbacks.
-/

namespace Lethean

/-- The chain has the right block at every checkpoint it has reached. -/
def Checkpoints.Agrees (c : Checkpoints) (chain : List StoredBlock) : Prop :=
  ∀ p ∈ c.points, ∀ s, chain[p.1]? = some s → s.hash = p.2

theorem Checkpoints.agrees_nil (c : Checkpoints) : c.Agrees [] := fun _ _ _ h => by cases h

theorem Checkpoints.Agrees.of_prefix {c : Checkpoints} {chain chain' : List StoredBlock}
    (h : c.Agrees chain) (hpre : chain' <+: chain) : c.Agrees chain' := by
  intro p hp s hs
  obtain ⟨rest, rfl⟩ := hpre
  refine h p hp s ?_
  rwa [List.getElem?_append_left (List.getElem?_eq_some_iff.mp hs).1]

namespace Blockchain

variable {env : Env} {D : Set Block} {root : Block} {now : Nat} {bc bc' : Blockchain}
  {main : List Block}

/-! ### Paths and entries -/

/-- The path of an alternative block: its height is its real height. -/
structure Placed (env : Env) (D : Set Block) (root : Block) (id : Hash) (bei : BlockExtendedInfo)
    (r : List Block) : Prop where
  path : ForkChoice.IsPath env.blockHash (fun b => b.prevId) root (r ++ [bei.bl])
  delivered : ∀ b ∈ r ++ [bei.bl], b ∈ D
  id_eq : id = env.blockHash bei.bl
  height : bei.height = r.length + 1

/-- The main chain is a path of known blocks above its first one and agrees with
the checkpoints, and every alternative block has a path. -/
structure Rooted (env : Env) (D : Set Block) (root : Block) (bc : Blockchain)
    (main : List Block) : Prop where
  stored : StoredPath env root bc.db.chain main
  path : ForkChoice.IsPath env.blockHash (fun b => b.prevId) root main
  delivered : ∀ b ∈ main, b ∈ D
  agrees : bc.checkpoints.Agrees bc.db.chain
  entries : ∀ id bei, bc.alternativeChains.lookup id = some bei →
    ∃ r, Placed env D root id bei r

/-- No alternative block has the height of a checkpoint. -/
def Unmarked (bc : Blockchain) : Prop :=
  ∀ id bei, bc.alternativeChains.lookup id = some bei →
    ∀ p ∈ bc.checkpoints.points, p.1 ≠ bei.height

/-- The checkpoints that the chain had passed are passed, by the same blocks. -/
def Keeps (bc bc' : Blockchain) : Prop :=
  ∀ p ∈ bc.checkpoints.points, p.1 < bc.db.height →
    bc'.db.chain.take (p.1 + 1) = bc.db.chain.take (p.1 + 1)

theorem Keeps.refl (bc : Blockchain) : Keeps bc bc := fun _ _ _ => rfl

theorem Keeps.trans {bc1 bc2 bc3 : Blockchain} (h : Keeps bc1 bc2) (h' : Keeps bc2 bc3)
    (hcp : bc2.checkpoints = bc1.checkpoints) : Keeps bc1 bc3 := by
  intro p hp hlt
  have heq := h p hp hlt
  have hlt' : p.1 < bc2.db.height := by
    have := congrArg List.length heq
    rw [List.length_take, List.length_take] at this
    rw [BlockchainDb.height] at hlt ⊢
    omega
  rw [h' p (by rwa [hcp]) hlt', heq]

/-- A chain that still has the blocks up to the height `k`, above which the chain
before had passed no checkpoint. -/
theorem keeps_of_take {k : Nat} (hk : ∀ p ∈ bc.checkpoints.points, p.1 < bc.db.height → p.1 ≤ k)
    (hlen : k < bc.db.height) (hpre : bc.db.chain.take (k + 1) <+: bc'.db.chain) :
    Keeps bc bc' := by
  intro p hp hlt
  have hle := hk p hp hlt
  obtain ⟨rest, hrest⟩ := hpre
  rw [BlockchainDb.height] at hlen
  rw [← hrest, List.take_append_of_le_length (by rw [List.length_take]; omega), List.take_take,
    Nat.min_eq_left (by omega)]

/-! ### Adding and removing blocks -/

theorem Accepted.agrees {b : Block} {s : TxLoop} {record : StoredBlock}
    (hacc : Accepted env now bc b (env.blockHash b) s record)
    (h : bc.checkpoints.Agrees bc.db.chain) :
    bc.checkpoints.Agrees (bc.afterBlock env s record).db.chain := by
  obtain ⟨hchain, -, hhash⟩ := hacc.chain_eq
  intro p hp r hget
  rw [hchain, List.getElem?_append] at hget
  split at hget
  · exact h p hp r hget
  have hheight : p.1 = bc.db.height := by
    have := (List.getElem?_eq_some_iff.mp hget).1
    rw [List.length_singleton] at this
    rw [BlockchainDb.height]
    omega
  rw [hheight, BlockchainDb.height, Nat.sub_self] at hget
  obtain rfl : record = r := Option.some.inj hget
  have hcheck := hacc.checkpoint
  rw [checkpointStep, ← hheight, if_pos (Checkpoints.isInCheckpointZone_of_mem hp),
    Checkpoints.checkBlock_of_mem hp, decide_eq_true_iff] at hcheck
  rw [hhash, hcheck]

/-- **One block on the main chain.** -/
theorem Accepted.rooted {b : Block} {s : TxLoop} {record : StoredBlock}
    (hacc : Accepted env now bc b (env.blockHash b) s record) (hr : Rooted env D root bc main)
    (hb : b ∈ D) (hne : env.blockHash b ≠ env.blockHash root) :
    Rooted env D root (bc.afterBlock env s record) (main ++ [b]) := by
  obtain ⟨hchain, hblk, hhash⟩ := hacc.chain_eq
  obtain ⟨halt, -, hcp, -⟩ := afterBlock_rest env bc s record
  refine ⟨?_, ?_, ?_, by rw [hcp]; exact hacc.agrees hr.agrees, by rw [halt]; exact hr.entries⟩
  · rw [hchain, ← hblk]
    exact hr.stored.concat (by rw [hhash, hblk])
  · refine ForkChoice.isPath_concat_iff.mpr ⟨hr.path, ?_, hne⟩
    rw [hacc.prev, hr.stored.topBlockHash]
  · exact forall_mem_concat.mpr ⟨hr.delivered, hb⟩

theorem Rooted.congr (hr : Rooted env D root bc main) (hchain : bc'.db.chain = bc.db.chain)
    (halt : bc'.alternativeChains = bc.alternativeChains)
    (hcp : bc'.checkpoints = bc.checkpoints) : Rooted env D root bc' main :=
  ⟨by rw [hchain]; exact hr.stored, hr.path, hr.delivered, by rw [hchain, hcp]; exact hr.agrees,
    by rw [halt]; exact hr.entries⟩

theorem Rooted.take (hr : Rooted env D root bc main) {k : Nat}
    (hchain : bc'.db.chain = bc.db.chain.take (k + 1))
    (halt : bc'.alternativeChains = bc.alternativeChains)
    (hcp : bc'.checkpoints = bc.checkpoints) : Rooted env D root bc' (main.take k) :=
  ⟨by rw [hchain]; exact hr.stored.take k, hr.path.of_prefix (List.take_prefix k main),
    fun b hb => hr.delivered b (List.mem_of_mem_take hb),
    by rw [hchain, hcp]; exact hr.agrees.of_prefix (List.take_prefix _ _),
    by rw [halt]; exact hr.entries⟩

/-- **Connecting blocks** until one is refused. -/
theorem connectBlocks_rooted : ∀ {blocks p : List Block} {bc bc' : Blockchain} {rest : List Block},
    Rooted env D root bc p →
    ForkChoice.IsPath env.blockHash (fun b => b.prevId) root (p ++ blocks) →
    (∀ b ∈ blocks, b ∈ D) → bc.connectBlocks env now blocks = (rest, bc') →
    ∃ pre, blocks = pre ++ rest ∧ Rooted env D root bc' (p ++ pre) ∧
      bc.db.chain <+: bc'.db.chain ∧ Kept bc bc'
  | [], p, bc, bc', rest, hr, _, _, h => by
    obtain ⟨rfl, rfl⟩ := Prod.mk.inj h
    exact ⟨[], rfl, by simpa using hr, List.prefix_refl _, .refl bc⟩
  | b :: blocks, p, bc, bc', rest, hr, hpath, hD, h => by
    have hassoc : p ++ b :: blocks = (p ++ [b]) ++ blocks := by simp
    rw [hassoc] at hpath
    have hb := (ForkChoice.isPath_concat_iff.mp (hpath.of_prefix (List.prefix_append _ _))).2.2
    rcases connectBlocks_cons env now bc b blocks with ⟨s, record, hacc, heq⟩ | ⟨bc1, hsame, heq⟩
    · have hr' := hacc.rooted hr (hD b (by simp)) hb
      obtain ⟨hchain, -⟩ := hacc.chain_eq
      rw [heq] at h
      obtain ⟨pre, hsplit, hr'', hpre, hkept⟩ := connectBlocks_rooted hr' hpath
        (fun c hc => hD c (by simp [hc])) h
      refine ⟨b :: pre, by rw [hsplit]; rfl, by simpa using hr'', ?_,
        (afterBlock_kept _ _ _ _).trans hkept⟩
      rw [hchain] at hpre
      exact (List.prefix_append _ _).trans hpre
    · rw [heq] at h
      obtain ⟨rfl, rfl⟩ := Prod.mk.inj h
      refine ⟨[], rfl, ?_, by rw [hsame.db], hsame.kept⟩
      rw [List.append_nil]
      exact hr.congr (by rw [hsame.db]) hsame.alternativeChains hsame.checkpoints

theorem reorganize_inv {n : Nat} (h : bc.reorganizeHardFork n = some bc') :
    bc'.db.chain = bc.db.chain ∧ bc' = { bc with hardfork := bc'.hardfork, db := bc'.db } := by
  obtain ⟨⟨r, hf, db⟩, hreorg, h⟩ := Option.bind_eq_some_iff.mp h
  cases h
  exact ⟨HardFork.reorganizeFrom_chain hreorg, rfl⟩

/-- **Rolling back** ends on the lower part of the chain, with blocks of the
original chain on top, whether it succeeds or not. -/
theorem rollback_rooted {p pre : List Block} {blocks : List Block} {r : Bool}
    (hr : Rooted env D root bc (p ++ pre))
    (hpath : ForkChoice.IsPath env.blockHash (fun b => b.prevId) root (p ++ blocks))
    (hD : ∀ b ∈ blocks, b ∈ D)
    (h : bc.rollbackBlockchainSwitching env now blocks (p.length + 1) = some (r, bc')) :
    (∃ main', Rooted env D root bc' main') ∧
      bc.db.chain.take (p.length + 1) <+: bc'.db.chain ∧ Kept bc bc' := by
  have hlen := hr.stored.length_eq
  rw [List.length_append] at hlen
  have hheight : bc.db.height = p.length + pre.length + 1 := hlen
  rcases rollback_inv h with
    ⟨hlow, -, -⟩ | ⟨-, bc1, bc2, bc3, rest, hpop, hreorg, hconn, hend⟩
  · omega
  rw [show bc.db.height - (p.length + 1) = pre.length by omega] at hpop
  obtain ⟨bc1', hpop', hchain1, hsame, -⟩ :
      ∃ bc1', bc.dropCache.popBlocks env now pre.length = some bc1' ∧
        bc1'.db.chain = bc.db.chain.take (p.length + 1) ∧ SameNode bc.dropCache bc1' ∧
        bc1'.cachedHeight = 0 :=
    popBlocks_of_chain (List.take_append_drop (p.length + 1) bc.db.chain).symm
      (by rw [List.length_drop]; omega) rfl
  rw [hpop] at hpop'
  obtain rfl := Option.some.inj hpop'
  have hkept1 : Kept bc bc1 := @Kept.trans bc bc.dropCache _ ⟨rfl, rfl, fun _ h => h⟩ hsame.kept
  have hr1 : Rooted env D root bc1 p := by
    have := hr.take hchain1 hkept1.alternativeChains hkept1.checkpoints
    rwa [List.take_left' rfl] at this
  obtain ⟨hchain2, heq2⟩ := reorganize_inv hreorg
  have hkept2 := kept_of_eq heq2
  have hr2 := hr1.congr hchain2 hkept2.alternativeChains hkept2.checkpoints
  obtain ⟨pre', -, hr3, hpre3, hkept3⟩ := connectBlocks_rooted hr2 hpath hD hconn
  have hkept := (hkept1.trans hkept2).trans hkept3
  rw [hchain2, hchain1] at hpre3
  rcases hend with ⟨-, -, hreorg'⟩ | ⟨-, -, rfl⟩
  · obtain ⟨hchain4, heq4⟩ := reorganize_inv hreorg'
    have hkept4 := kept_of_eq heq4
    exact ⟨⟨_, hr3.congr hchain4 hkept4.alternativeChains hkept4.checkpoints⟩,
      by rw [hchain4]; exact hpre3, hkept.trans hkept4⟩
  · exact ⟨⟨_, hr3⟩, hpre3, hkept⟩

/-! ### Switching -/

structure Secure (env : Env) (D : Set Block) (root : Block) (bc bc' : Blockchain) : Prop where
  rooted : ∃ main, Rooted env D root bc' main
  unmarked : Unmarked bc'
  keeps : Keeps bc bc'
  checkpoints : bc'.checkpoints = bc.checkpoints

theorem Secure.trans {bc1 bc2 bc3 : Blockchain} (h : Secure env D root bc1 bc2)
    (h' : Secure env D root bc2 bc3) : Secure env D root bc1 bc3 :=
  ⟨h'.rooted, h'.unmarked, h.keeps.trans h'.keeps h.checkpoints,
    h'.checkpoints.trans h.checkpoints⟩

theorem Secure.of_same (hr : Rooted env D root bc main) (hu : Unmarked bc)
    (hchain : bc'.db.chain = bc.db.chain) (halt : bc'.alternativeChains = bc.alternativeChains)
    (hcp : bc'.checkpoints = bc.checkpoints) : Secure env D root bc bc' :=
  ⟨⟨main, hr.congr hchain halt hcp⟩, by unfold Unmarked; rw [halt, hcp]; exact hu,
    fun p _ _ => by rw [hchain], hcp⟩

/-- A step that ends on the chain of `bc3` and keeps no alternative block at the height of a
checkpoint. -/
theorem Secure.of_lookup {bc3 : Blockchain} (hr : Rooted env D root bc3 main)
    (hkeeps : Keeps bc bc3) (hcp3 : bc3.checkpoints = bc.checkpoints)
    (hchain : bc'.db.chain = bc3.db.chain) (hcp : bc'.checkpoints = bc3.checkpoints)
    (hlookup : ∀ id bei, bc'.alternativeChains.lookup id = some bei →
      bc3.alternativeChains.lookup id = some bei ∧
        ∀ p ∈ bc.checkpoints.points, p.1 ≠ bei.height) : Secure env D root bc bc' where
  rooted := ⟨main, by rw [hchain]; exact hr.stored, hr.path, hr.delivered,
    by rw [hcp, hchain]; exact hr.agrees, fun id bei hl => hr.entries id bei (hlookup id bei hl).1⟩
  unmarked := by
    unfold Unmarked
    rw [hcp, hcp3]
    exact fun id bei hl => (hlookup id bei hl).2
  keeps := by
    unfold Keeps
    rwa [hchain]
  checkpoints := hcp.trans hcp3

/-- What is asked of the handler that nested calls go to. -/
def HandlerSecure (env : Env) (D : Set Block) (root : Block) (handler : AltHandler) : Prop :=
  ∀ bc b o bc' main, Rooted env D root bc main → Unmarked bc → b ∈ D →
    env.blockHash b ≠ env.blockHash root → handler bc b (env.blockHash b) = some (o, bc') →
    Secure env D root bc bc'

theorem pushAlts_secure {handler : AltHandler} (hh : HandlerSecure env D root handler) :
    ∀ {blocks : List Block} {bc bc' : Blockchain} {main : List Block} {r : List Bool},
      Rooted env D root bc main → Unmarked bc →
      (∀ b ∈ blocks, b ∈ D ∧ env.blockHash b ≠ env.blockHash root) →
      pushAlternatives env handler blocks bc = some (r, bc') → Secure env D root bc bc'
  | [], bc, bc', main, r, hr, hu, _, h => by
    cases h
    exact .of_same hr hu rfl rfl rfl
  | b :: rest, bc, bc', main, r, hr, hu, hb, h => by
    obtain ⟨⟨o, bc1⟩, h1, h⟩ := Option.bind_eq_some_iff.mp h
    obtain ⟨⟨r', bc2⟩, h2, h⟩ := Option.bind_eq_some_iff.mp h
    cases h
    have hs := hh bc b o bc1 main hr hu (hb b (by simp)).1 (hb b (by simp)).2 h1
    obtain ⟨main1, hr1⟩ := hs.rooted
    exact hs.trans (pushAlts_secure hh hr1 hs.unmarked (fun c hc => hb c (by simp [hc])) h2)

theorem ne_root {p : List Block} {b : Block}
    (hpath : ForkChoice.IsPath env.blockHash (fun b => b.prevId) root p) (hb : b ∈ p) :
    env.blockHash b ≠ env.blockHash root := by
  obtain ⟨r, t, rfl⟩ := List.append_of_mem hb
  exact (hpath r b ⟨t, by simp⟩).2

/-- The main chain is popped down to a block of it. -/
theorem popUntil_rooted (hinj : Set.InjOn env.blockHash D) (hr : Rooted env D root bc main) {k : Nat}
    (hk : k ≤ main.length) {disconnected : List Block} {bc1 : Blockchain}
    (h : popUntil env now (env.blockHash (ForkChoice.tip root (main.take k))) (bc.db.height + 1)
      bc.dropCache = some (disconnected, bc1)) :
    disconnected = main.drop k ∧ bc1.db.chain = bc.db.chain.take (k + 1) ∧ Kept bc bc1 ∧
      Rooted env D root bc1 (main.take k) := by
  have hr0 : Rooted env D root bc.dropCache main := hr.congr rfl rfl rfl
  obtain ⟨bc1', hpop, hchain, hsame⟩ :
      ∃ bc1', popUntil env now _ _ bc.dropCache = some (main.drop k, bc1') ∧ _ :=
    popUntil_stored hinj hr0.stored hr0.path hr0.delivered hk
  rw [show bc.dropCache.db.height = bc.db.height from rfl, h] at hpop
  obtain ⟨rfl, rfl⟩ := Prod.mk.inj (Option.some.inj hpop)
  have hkept : Kept bc bc1 := @Kept.trans bc bc.dropCache _ ⟨rfl, rfl, fun _ h => h⟩ hsame.kept
  exact ⟨rfl, hchain, hkept, hr0.take hchain hkept.alternativeChains hkept.checkpoints⟩

/-- **A switch** to a branch that leaves the main chain at height `k`, where no
checkpoint above `k` was passed. The last block of the branch is gone from the
alternative blocks afterwards; it may be one at a checkpoint height, and then
the disconnected blocks are discarded. -/
theorem switch_secure (hinj : Set.InjOn env.blockHash D) {handler : AltHandler}
    (hh : HandlerSecure env D root handler) {k : Nat} {branch : List AltEntry} {discard r : Bool}
    {rollbacks : List Bool} (hr : Rooted env D root bc main) (hk : k ≤ main.length)
    (hne : branch ≠ [])
    (hpath : ForkChoice.IsPath env.blockHash (fun b => b.prevId) root
      (main.take k ++ branch.map (·.2.bl)))
    (hD : ∀ e ∈ branch, e.2.bl ∈ D)
    (hfront : ∀ e ∈ branch.head?,
      e.2.bl.prevId = env.blockHash (ForkChoice.tip root (main.take k)))
    (hsplit : ∀ p ∈ bc.checkpoints.points, p.1 < bc.db.height → p.1 ≤ k)
    (hmarked : ∀ id bei, bc.alternativeChains.lookup id = some bei →
      (discard = true ∧ ∀ e ∈ branch.getLast?, id = e.1) ∨
        ∀ p ∈ bc.checkpoints.points, p.1 ≠ bei.height)
    (h : bc.switchToAlternativeBlockchain handler env now branch discard =
      some (r, rollbacks, bc')) :
    Secure env D root bc bc' := by
  have hlen := hr.stored.length_eq
  have hklt : k < bc.db.height := by rw [BlockchainDb.height]; omega
  have hpathMain : ∀ b ∈ main.drop k, b ∈ D ∧ env.blockHash b ≠ env.blockHash root :=
    fun b hb => ⟨hr.delivered b (List.mem_of_mem_drop hb), ne_root hr.path (List.mem_of_mem_drop hb)⟩
  rcases switch_inv h with
    ⟨hmissing, -⟩ | ⟨front, rest, disconnected, bc1, refused, bc2, hbr, -, hpop, hconn, hend⟩
  · -- the parent is there
    obtain ⟨front, rest, rfl⟩ := List.exists_cons_of_ne_nil hne
    obtain ⟨s, hs, -, hhash⟩ := hr.stored.getElem hk
    have hexists : bc.db.blockExists front.2.bl.prevId = true := by
      rw [hfront front (by simp), ← hhash]
      exact BlockchainDb.blockExists_iff.mpr ⟨s, List.mem_of_getElem? hs, rfl⟩
    rw [hmissing front (by simp)] at hexists
    cases hexists
  rw [hfront front (by simp [hbr])] at hpop
  obtain ⟨rfl, hchain1, hkept1, hr1⟩ := popUntil_rooted hinj hr hk hpop
  have hlen1 : (bc.db.chain.take (k + 1)).length = k + 1 := List.length_take_of_le hklt
  obtain ⟨pre, hparts, hr2, hpre2, hkept2⟩ := connectBlocks_rooted hr1 hpath
    (fun b hb => by obtain ⟨e, he, rfl⟩ := List.mem_map.mp hb; exact hD e he) hconn
  have hkept := hkept1.trans hkept2
  rw [hchain1] at hpre2
  have hkeeps2 : Keeps bc bc2 := keeps_of_take hsplit hklt hpre2
  rcases hend with ⟨-, -, bc3, hkeep, hreorg⟩ | ⟨hrefused, -, rolledBack, bc3, hroll, -, rfl⟩
  · -- connected: the disconnected blocks are kept or discarded
    have hsecure : (∃ main', Rooted env D root bc3 main') ∧ Keeps bc2 bc3 ∧
        bc3.checkpoints = bc2.checkpoints ∧ ∀ id bei, id ∉ branch.map Prod.fst →
          bc3.alternativeChains.lookup id = some bei →
          ∀ p ∈ bc2.checkpoints.points, p.1 ≠ bei.height := by
      cases discard with
      | true =>
        obtain ⟨-, rfl⟩ := Prod.mk.inj (Option.some.inj hkeep)
        refine ⟨⟨_, hr2⟩, .refl _, rfl, fun id bei hid hl => ?_⟩
        rw [hkept.alternativeChains] at hl
        rw [hkept.checkpoints]
        refine (hmarked id bei hl).resolve_left fun hlast => hid ?_
        rw [hlast.2 _ (List.getLast?_eq_some_getLast hne)]
        exact List.mem_map_of_mem (List.getLast_mem hne)
      | false =>
        have hu2 : Unmarked bc2 := by
          intro id bei hl
          rw [hkept.alternativeChains] at hl
          rw [hkept.checkpoints]
          exact (hmarked id bei hl).resolve_left fun hlast => by cases hlast.1
        have hs := pushAlts_secure hh hr2 hu2 hpathMain hkeep
        refine ⟨hs.rooted, hs.keeps, hs.checkpoints, fun id bei _ hl => ?_⟩
        rw [← hs.checkpoints]
        exact hs.unmarked id bei hl
    obtain ⟨⟨main3, hr3⟩, hkeeps3, hcp3, hu3⟩ := hsecure
    obtain ⟨hchain4, heq4⟩ := reorganize_inv hreorg
    have hkept4 := kept_of_eq heq4
    refine .of_lookup hr3 (hkeeps2.trans hkeeps3 hkept.checkpoints) (hcp3.trans hkept.checkpoints)
      hchain4 hkept4.checkpoints fun id bei hl => ?_
    rw [hkept4.alternativeChains, lookup_eraseAlts] at hl
    split at hl
    · cases hl
    · rename_i hid
      rw [← hkept.checkpoints]
      exact ⟨hl, hu3 id bei hid hl⟩
  · -- refused: rolled back
    rw [show bc1.db.height = (main.take k).length + 1 by
      rw [BlockchainDb.height, hchain1, hlen1, List.length_take_of_le hk]] at hroll
    obtain ⟨⟨main3, hr3⟩, hpre3, hkept3⟩ := rollback_rooted hr2
      (by rw [List.take_append_drop]; exact hr.path) (fun b hb => (hpathMain b hb).1) hroll
    obtain ⟨hdb, -, hcp, hlookup⟩ := markInvalid_spec bc3
      (branch.drop (branch.length - refused.length))
    have hkept' := hkept.trans hkept3
    have hpre : bc.db.chain.take (k + 1) <+: bc3.db.chain := by
      obtain ⟨t, ht⟩ := hpre2
      rwa [← ht, List.length_take_of_le hk, List.take_left' hlen1] at hpre3
    refine .of_lookup hr3 (keeps_of_take hsplit hklt hpre) hkept'.checkpoints (by rw [hdb]) hcp
      fun id bei hl => ?_
    rw [hlookup] at hl
    split at hl
    · cases hl
    rename_i hid
    refine ⟨hl, (hmarked id bei (by rwa [← hkept'.alternativeChains])).resolve_left fun hlast => ?_⟩
    -- the last block of the branch is among those that are marked invalid
    have hmem := List.getLast?_eq_some_getLast hne
    refine hid (List.mem_map.mpr ⟨_, List.mem_of_mem_getLast? ?_, (hlast.2 _ hmem).symm⟩)
    have hpos := Nat.sub_lt (List.length_pos_iff.mpr hne) (List.length_pos_iff.mpr hrefused)
    rwa [List.getLast?_drop, if_neg hpos.not_ge]

/-! ### Alternative blocks -/

/-- Where a branch leaves the main chain, and the heights along it. -/
structure SplitAt (env : Env) (D : Set Block) (root : Block) (bc : Blockchain) (main : List Block)
    (branch : List AltEntry) (prevId : Hash) (k : Nat) : Prop where
  le : k ≤ main.length
  path : ForkChoice.IsPath env.blockHash (fun b => b.prevId) root
    (main.take k ++ branch.map (·.2.bl))
  delivered : ∀ e ∈ branch, e.2.bl ∈ D
  split : splitId branch prevId = env.blockHash (ForkChoice.tip root (main.take k))
  prev : prevId = env.blockHash (ForkChoice.tip root (main.take k ++ branch.map (·.2.bl)))
  heights : ∀ i e, branch[i]? = some e → e.2.height = k + 1 + i
  height : bc.parentHeight branch prevId = k + branch.length

/-- The path of an entry of a linked list is the one through the list. -/
theorem placed_of_linked (hinj : Set.InjOn env.blockHash D)
    {alts : Finmap fun _ : Hash => BlockExtendedInfo}
    (hents : ∀ id bei, alts.lookup id = some bei → ∃ r, Placed env D root id bei r)
    {P : List Block} (hP : ForkChoice.IsPath env.blockHash (fun b => b.prevId) root P)
    (hPD : ∀ b ∈ P, b ∈ D) {branch : List AltEntry} (hlinked : Rules.Linked alts branch)
    (hfront : ∀ e ∈ branch.head?, e.2.bl.prevId = env.blockHash (ForkChoice.tip root P)) :
    ∀ pre e, pre ++ [e] <+: branch → Placed env D root e.1 e.2 (P ++ pre.map (·.2.bl)) := by
  intro pre
  induction pre using List.reverseRecOn with
  | nil =>
    intro e he
    obtain ⟨r, hr⟩ := hents e.1 e.2 (hlinked [] e he).1
    have hprev := hfront e (by obtain ⟨t, rfl⟩ := he; rfl)
    obtain ⟨hpr, hparent, -⟩ := ForkChoice.isPath_concat_iff.mp hr.path
    obtain rfl := hP.unique hinj hpr hPD (fun b hb => hr.delivered b (by simp [hb]))
      (hprev.symm.trans hparent)
    simpa using hr
  | append_singleton pre e' ih =>
    intro e he
    have he' := ih e' ((List.prefix_append _ _).trans he)
    obtain ⟨hl, hlast⟩ := hlinked (pre ++ [e']) e he
    obtain ⟨r, hr⟩ := hents e.1 e.2 hl
    obtain ⟨hpr, hparent, -⟩ := ForkChoice.isPath_concat_iff.mp hr.path
    -- the parent that the entry names is the last block so far
    have hprev : env.blockHash (ForkChoice.tip root (P ++ pre.map (·.2.bl) ++ [e'.2.bl])) =
        env.blockHash (ForkChoice.tip root r) := by
      rw [ForkChoice.tip_concat, ← he'.id_eq, ← hlast e' (by simp), hparent]
    obtain rfl := he'.path.unique hinj hpr he'.delivered
      (fun b hb => hr.delivered b (by simp [hb])) hprev
    simpa using hr

/-- **The branch of a connected parent** continues a front of the main chain. -/
theorem Connected.splitAt (hinj : Set.InjOn env.blockHash D) (hr : Rooted env D root bc main)
    {branch : List AltEntry} {prevId : Hash} (hconn : Connected bc branch prevId) :
    ∃ k, SplitAt env D root bc main branch prevId k := by
  obtain ⟨hlinked, hlast⟩ := hconn.linked
  have htake : ∀ k, ForkChoice.IsPath env.blockHash (fun b => b.prevId) root (main.take k) :=
    fun k => hr.path.of_prefix (List.take_prefix k main)
  have htakeD : ∀ k, ∀ b ∈ main.take k, b ∈ D :=
    fun k b hb => hr.delivered b (List.mem_of_mem_take hb)
  rcases List.eq_nil_or_concat' branch with rfl | ⟨pre, last, hbr⟩
  · -- the parent is on the main chain
    obtain ⟨k, hk, hid⟩ := hr.stored.exists_take (hconn.inMain rfl)
    refine ⟨k, hk, by simpa using htake k, by simp, hid, by simpa using hid, by simp, ?_⟩
    rw [parentHeight, List.getLast?_nil]
    dsimp only
    rw [hid, hr.stored.getBlockHeight hinj hr.path hr.delivered hk]
    rfl
  · obtain ⟨front, rest, hfr⟩ := List.exists_cons_of_ne_nil (show branch ≠ [] by simp [hbr])
    obtain ⟨r, hplaced⟩ := hr.entries front.1 front.2 (hlinked [] front ⟨rest, by rw [hfr]; rfl⟩).1
    have hconnects := hconn.front front (by simp [hfr])
    simp only [altConnects, Bool.and_eq_true, decide_eq_true_eq] at hconnects
    obtain ⟨⟨hbelow, -⟩, hhash⟩ := hconnects
    have hlen := hr.stored.length_eq
    have hk : r.length ≤ main.length := by
      rw [hplaced.height, BlockchainDb.height] at hbelow
      omega
    obtain ⟨hpr, hparent, -⟩ := ForkChoice.isPath_concat_iff.mp hplaced.path
    -- the front of the main chain of that height ends in the parent
    have hr_eq : main.take r.length = r := by
      obtain ⟨s, hs, -, hshash⟩ := hr.stored.getElem hk
      rw [hplaced.height, Nat.add_sub_cancel, BlockchainDb.getBlockHashFromHeight, hs] at hhash
      refine (htake r.length).unique hinj hpr (htakeD r.length)
        (fun b hb => hplaced.delivered b (by simp [hb])) ?_
      rw [← hshash, ← hparent]
      exact Option.some.inj hhash
    have hsplit : front.2.bl.prevId = env.blockHash (ForkChoice.tip root (main.take r.length)) := by
      rwa [hr_eq]
    have hall := placed_of_linked hinj hr.entries (htake r.length) (htakeD r.length) hlinked
      (fun e he => by
        obtain rfl : front = e := by simpa [hfr] using he
        exact hsplit)
    have hheights : ∀ i e, branch[i]? = some e → e.2.height = r.length + 1 + i := by
      intro i e he
      obtain ⟨hi, rfl⟩ := List.getElem?_eq_some_iff.mp he
      have := (hall (branch.take i) branch[i] (by
        rw [List.take_append_getElem]
        exact List.take_prefix _ _)).height
      rw [List.length_append, List.length_map, List.length_take_of_le hk,
        List.length_take_of_le hi.le] at this
      omega
    have hplacedLast := hall pre last (by rw [hbr])
    have hpath : main.take r.length ++ branch.map (·.2.bl) =
        main.take r.length ++ pre.map (·.2.bl) ++ [last.2.bl] := by simp [hbr]
    have hid : last.1 = prevId := hlast last (by simp [hbr])
    refine ⟨r.length, hk, ?_, ?_, by rw [hfr]; exact hsplit, ?_, hheights, ?_⟩
    · rw [hpath]
      exact hplacedLast.path
    · intro e he
      obtain ⟨i, hi, rfl⟩ := List.getElem_of_mem he
      exact (hall (branch.take i) branch[i] (by
        rw [List.take_append_getElem]
        exact List.take_prefix _ _)).delivered _ (by simp)
    · rw [hpath, ForkChoice.tip_concat, ← hid]
      exact hplacedLast.id_eq
    · rw [parentHeight, hbr, List.getLast?_concat]
      dsimp only
      rw [hplacedLast.height, List.length_append, List.length_map, List.length_take_of_le hk,
        List.length_append, List.length_singleton, Nat.add_assoc]

/-- **The split is above every checkpoint that was passed.** The new block is above
them, and no block of the branch is at one. -/
theorem SplitAt.above_checkpoints {branch : List AltEntry} {b : Block} {k height : Nat}
    (hsplit : SplitAt env D root bc main branch b.prevId k) (hu : Unmarked bc)
    (hlookup : ∀ e ∈ branch, bc.alternativeChains.lookup e.1 = some e.2)
    (hheight : height = bc.parentHeight branch b.prevId + 1)
    (hallowed : bc.checkpoints.isAlternativeBlockAllowed bc.db.height height = true) :
    ∀ p ∈ bc.checkpoints.points, p.1 < bc.db.height → p.1 ≤ k := by
  intro p hp hlt
  by_contra hle
  have habove := Checkpoints.lt_of_isAlternativeBlockAllowed hallowed hp hlt.le
  rw [hheight, hsplit.height] at habove
  -- the branch has a block at the checkpoint
  have hi : p.1 - (k + 1) < branch.length := by omega
  have hmem : branch[p.1 - (k + 1)] ∈ branch := List.getElem_mem hi
  refine hu _ _ (hlookup _ hmem) p hp ?_
  rw [hsplit.heights _ _ (List.getElem?_eq_getElem hi)]
  omega

/-- **Storing an alternative block** that passed its checks. -/
theorem storeAlt_secure {handler : AltHandler} {branch : List AltEntry}
    {bei : BlockExtendedInfo} {o : Outcome}
    (h : bc.storeAlternative handler env now branch bei (env.blockHash bei.bl)
      (bc.checkpoints.checkBlock bei.height (env.blockHash bei.bl)).2 = some (o, bc'))
    (hinj : Set.InjOn env.blockHash D) (hh : HandlerSecure env D root handler)
    (hr : Rooted env D root bc main) (hu : Unmarked bc) (hb : bei.bl ∈ D)
    (hne : env.blockHash bei.bl ≠ env.blockHash root) (hconn : Connected bc branch bei.bl.prevId)
    (hheight : bei.height = bc.parentHeight branch bei.bl.prevId + 1)
    (hallowed : bc.checkpoints.isAlternativeBlockAllowed bc.db.height bei.height = true) :
    Secure env D root bc bc' := by
  obtain ⟨k, hsplit⟩ := hconn.splitAt hinj hr
  obtain ⟨hlinked, -⟩ := hconn.linked
  have hplaced : Placed env D root (env.blockHash bei.bl) bei
      (main.take k ++ branch.map (·.2.bl)) := by
    refine ⟨ForkChoice.isPath_concat_iff.mpr ⟨hsplit.path, hsplit.prev, hne⟩, ?_, rfl, ?_⟩
    · intro c hc
      simp only [List.append_assoc, List.mem_append, List.mem_map, List.mem_singleton] at hc
      rcases hc with hc | ⟨e, he, rfl⟩ | rfl
      · exact hr.delivered c (List.mem_of_mem_take hc)
      · exact hsplit.delivered e he
      · exact hb
    · rwa [List.length_append, List.length_take_of_le hsplit.le, List.length_map, ← hsplit.height]
  have hr1 : Rooted env D root
      { bc with
        alternativeChains := bc.alternativeChains.insert (env.blockHash bei.bl) bei } main :=
    ⟨hr.stored, hr.path, hr.delivered, hr.agrees,
      Inverted.forall_lookup_insert hr.entries ⟨_, hplaced⟩⟩
  rcases storeAlt_inv h with ⟨-, rfl, -, -⟩ | ⟨hid, ⟨rfl, hno, -⟩ | ⟨-, -, hsw⟩⟩
  · exact .of_same hr hu rfl rfl rfl
  · exact ⟨⟨main, hr1⟩, Inverted.forall_lookup_insert hu fun p hp =>
      Checkpoints.ne_of_checkBlock hno hp, fun _ _ _ => rfl, rfl⟩
  · have hlookup : ∀ e ∈ branch, bc.alternativeChains.lookup e.1 = some e.2 := by
      intro e he
      obtain ⟨pre, post, rfl⟩ := List.append_of_mem he
      exact (hlinked pre e ⟨post, by simp⟩).1
    have happ : main.take k ++ (branch ++ [(env.blockHash bei.bl, bei)]).map (·.2.bl) =
        main.take k ++ branch.map (·.2.bl) ++ [bei.bl] := by simp
    have hfront : ∀ e ∈ (branch ++ [(env.blockHash bei.bl, bei)]).head?,
        e.2.bl.prevId = env.blockHash (ForkChoice.tip root (main.take k)) := by
      intro e he
      rw [← hsplit.split]
      cases branch with
      | nil =>
        obtain rfl := Option.some.inj he
        rfl
      | cons front rest =>
        obtain rfl := Option.some.inj he
        rfl
    have hs := switch_secure hinj hh hr1 hsplit.le (by simp) (by rw [happ]; exact hplaced.path)
      (forall_mem_concat.mpr ⟨hsplit.delivered, hb⟩) hfront
      (hsplit.above_checkpoints hu hlookup hheight hallowed)
      (Inverted.forall_lookup_insert (fun id bei hl => .inr (hu id bei hl)) (by
        by_cases hcp : (bc.checkpoints.checkBlock bei.height (env.blockHash bei.bl)).2 = true
        · exact .inl ⟨hcp, by simp⟩
        · exact .inr fun p hp =>
            Checkpoints.ne_of_checkBlock (Bool.eq_false_of_not_eq_true hcp) hp)) hsw
    exact ⟨hs.rooted, hs.unmarked, hs.keeps, hs.checkpoints⟩

/-- **`handle_alternative_block`**, at every depth of nesting. -/
theorem altBlock_secure (hinj : Set.InjOn env.blockHash D) : ∀ nesting : Nat,
    HandlerSecure env D root (handleAlternativeBlock env now nesting)
  | 0 => fun _ _ _ _ _ _ _ _ _ h => by cases h
  | nesting + 1 => by
    intro bc b o bc' main hr hu hb hne h
    have hr0 : Rooted env D root bc.dropCache main := hr.congr rfl rfl rfl
    have hdrop : Secure env D root bc bc.dropCache := .of_same hr hu rfl rfl rfl
    rcases altBlockWith_inv h with
      ⟨rfl, -⟩ | ⟨branch, hconn, -, hallowed, -, hext⟩
    · exact hdrop
    rcases extendBranch_inv hext with ⟨rfl, -⟩ | ⟨height, currentDiff, hacc, -, hstore⟩
    · exact hdrop
    · -- the height that the miner transaction claims is the real one
      rw [getBlockHeight_of_prevalidate hacc.miner] at hallowed
      exact hdrop.trans (storeAlt_secure hstore hinj (altBlock_secure hinj nesting) hr0
        hdrop.unmarked hb hne hconn hacc.height_eq hallowed)

/-! ### Runs -/

/-- A node whose database has no block has no alternative blocks either; otherwise
its chain is a path above its first block. -/
def CheckpointInv (env : Env) (D : Set Block) (bc : Blockchain) : Prop :=
  (bc.db.chain = [] ∧ bc.alternativeChains = ∅) ∨
    ∃ root main, Rooted env D root bc main ∧ Unmarked bc

theorem altBlock_empty {nesting : Nat} {b : Block} {id : Hash} {o : Outcome}
    (hchain : bc.db.chain = []) (halt : bc.alternativeChains = ∅)
    (h : handleAlternativeBlock env now nesting bc b id = some (o, bc')) : bc' = bc.dropCache := by
  cases nesting with
  | zero => cases h
  | succ nesting =>
    rcases altBlockWith_inv h with ⟨rfl, -⟩ | ⟨branch, hconn, -⟩
    · rfl
    have hnil : branch = [] := by
      rw [hconn.branch_eq, altChain, show bc.dropCache.alternativeChains = ∅ from halt]
      rfl
    have hexists := hconn.inMain hnil
    rw [BlockchainDb.blockExists, show bc.dropCache.db.chain = [] from hchain] at hexists
    cases hexists

/-- **One call of `add_new_block`.** -/
theorem addNewBlock_checkpointInv (hinj : Set.InjOn env.blockHash D) {nesting : Nat} {bl : Block}
    {o : Outcome} (hinv : CheckpointInv env D bc) (hb : bl ∈ D)
    (h : bc.addNewBlock env now nesting bl = some (o, bc')) :
    CheckpointInv env D bc' ∧ Keeps bc bc' ∧ bc'.checkpoints = bc.checkpoints := by
  unfold addNewBlock at h
  dsimp only at h
  rcases hinv with ⟨hchain, halt⟩ | ⟨root, main, hr, hu⟩
  · have hkeeps : ∀ bc'', Keeps bc bc'' := by
      intro bc'' p _ hlt
      rw [BlockchainDb.height, hchain] at hlt
      exact absurd hlt (Nat.not_lt_zero _)
    split at h
    · cases h
      exact ⟨.inl ⟨hchain, halt⟩, hkeeps _, rfl⟩
    split at h
    · rcases mainChain_inv env now bc bl (env.blockHash bl) with
        ⟨-, -, hsame⟩ | ⟨-, -, s, record, hacc, heq⟩
      · rw [Option.some.inj h] at hsame
        exact ⟨.inl ⟨by rw [hsame.db]; exact hchain, hsame.alternativeChains.trans halt⟩,
          hkeeps _, hsame.checkpoints⟩
      -- the first block becomes the root
      rw [Option.some.inj h] at heq
      obtain rfl : bc' = _ := heq
      obtain ⟨hchain', hblk, hhash⟩ := hacc.chain_eq
      obtain ⟨halt', -, hcp, -⟩ := afterBlock_rest env bc s record
      rw [hchain, List.nil_append] at hchain'
      have hnone : ∀ id bei,
          (bc.afterBlock env s record).alternativeChains.lookup id ≠ some bei := by
        intro id bei hl
        rw [halt', halt] at hl
        cases hl
      refine ⟨.inr ⟨bl, [], ⟨?_, ForkChoice.isPath_nil, by simp, ?_,
        fun id bei hl => absurd hl (hnone id bei)⟩, fun id bei hl => absurd hl (hnone id bei)⟩,
        hkeeps _, hcp⟩
      · rw [hchain']
        exact ⟨by simp [hblk], fun r hr => by rw [List.mem_singleton.mp hr, hhash, hblk]⟩
      · rw [hcp]
        exact hacc.agrees (by rw [hchain]; exact Checkpoints.agrees_nil _)
    · obtain ⟨⟨o', bc1⟩, h1, h⟩ := Option.bind_eq_some_iff.mp h
      cases h
      obtain rfl := altBlock_empty hchain halt h1
      exact ⟨.inl ⟨hchain, halt⟩, hkeeps _, rfl⟩
  · have hsecure : Secure env D root bc bc' := by
      split at h
      · cases h
        exact .of_same hr hu rfl rfl rfl
      rename_i hnew
      have hne : env.blockHash bl ≠ env.blockHash root := by
        intro heq
        obtain ⟨g, hg, -, hhash⟩ := hr.stored.getElem (Nat.zero_le _)
        refine absurd (haveBlock_eq_false.mp (Bool.eq_false_of_not_eq_true hnew)).1 ?_
        rw [Bool.not_eq_false, heq]
        exact BlockchainDb.blockExists_iff.mpr ⟨g, List.mem_of_getElem? hg, hhash⟩
      split at h
      · rcases mainChain_inv env now bc bl (env.blockHash bl) with
          ⟨-, -, hsame⟩ | ⟨-, -, s, record, hacc, heq⟩
        · rw [Option.some.inj h] at hsame
          exact .of_same hr hu (by rw [hsame.db]) hsame.alternativeChains hsame.checkpoints
        rw [Option.some.inj h] at heq
        obtain rfl : bc' = _ := heq
        have hr' := hacc.rooted hr hb hne
        obtain ⟨hchain', -⟩ := hacc.chain_eq
        obtain ⟨halt, -, hcp, -⟩ := afterBlock_rest env bc s record
        refine ⟨⟨_, hr'⟩, by unfold Unmarked; rw [halt, hcp]; exact hu, fun p hp hlt => ?_, hcp⟩
        rw [hchain', List.take_append_of_le_length hlt]
      · obtain ⟨⟨o', bc1⟩, h1, h⟩ := Option.bind_eq_some_iff.mp h
        cases h
        have hs := altBlock_secure hinj nesting bc bl _ bc1 main hr hu hb hne h1
        obtain ⟨main', hr'⟩ := hs.rooted
        exact hs.trans (.of_same hr' hs.unmarked rfl rfl rfl)
    exact ⟨.inr ⟨root, hsecure.rooted.choose, hsecure.rooted.choose_spec, hsecure.unmarked⟩,
      hsecure.keeps, hsecure.checkpoints⟩

/-- A chain as the storage keeps it: blocks under their ids, no id twice, each
block naming the one below it. -/
structure StoredChain (env : Env) (chain : List StoredBlock) : Prop where
  hashes : ∀ s ∈ chain, s.hash = env.blockHash s.blk
  nodup : (chain.map (·.hash)).Nodup
  linked : ∀ pre s t, pre ++ [s, t] <+: chain → t.blk.prevId = s.hash

theorem storedChain_nil : StoredChain env [] :=
  ⟨by simp, by simp, fun pre s t h => absurd (List.prefix_nil.mp h) (by simp)⟩

theorem StoredChain.isPath {chain : List StoredBlock} {g : StoredBlock} {rest : List StoredBlock}
    (h : StoredChain env chain) (hchain : chain = g :: rest) :
    StoredPath env g.blk chain (rest.map (·.blk)) ∧
      ForkChoice.IsPath env.blockHash (fun b => b.prevId) g.blk (rest.map (·.blk)) := by
  subst hchain
  refine ⟨⟨rfl, h.hashes⟩, ?_⟩
  induction rest using List.reverseRecOn with
  | nil => exact ForkChoice.isPath_nil
  | append_singleton rest t ih =>
    have hpre : g :: rest <+: g :: (rest ++ [t]) := ⟨[t], rfl⟩
    have hsub : StoredChain env (g :: rest) :=
      ⟨fun s hs => h.hashes s (hpre.subset hs), h.nodup.sublist (hpre.sublist.map _),
        fun pre s u hu => h.linked pre s u (hu.trans hpre)⟩
    rw [List.map_append, List.map_singleton]
    refine ForkChoice.isPath_concat_iff.mpr ⟨ih hsub, ?_, ?_⟩
    · -- the block below is the last one of `rest`, or the first block
      have hstored : StoredPath env g.blk (g :: rest) (rest.map (·.blk)) := ⟨rfl, hsub.hashes⟩
      obtain ⟨s, hs, -, hhash⟩ := hstored.getLast
      obtain ⟨front, hfront⟩ : ∃ front, g :: rest = front ++ [s] := by
        obtain ⟨front, last, hfl⟩ := (List.eq_nil_or_concat' (g :: rest)).resolve_left (by simp)
        rw [hfl, List.getLast?_concat] at hs
        exact ⟨front, by rw [hfl, Option.some.inj hs]⟩
      rw [← hhash]
      refine h.linked front s t ?_
      rw [← List.cons_append, hfront]
      exact ⟨[], by simp⟩
    · rw [← h.hashes t (by simp), ← h.hashes g (by simp)]
      have hnodup := h.nodup
      rw [List.map_cons, List.nodup_cons] at hnodup
      exact fun heq => hnodup.1 (heq ▸ List.mem_map_of_mem (by simp))

/-- One call of `add_new_block` with a block of `D`. -/
def Delivers (env : Env) (D : Set Block) (bc bc' : Blockchain) : Prop :=
  ∃ now nesting bl o, bl ∈ D ∧ bc.addNewBlock env now nesting bl = some (o, bc')

/-- **Checkpoints are final.** Start from any stored chain that agrees with the
checkpoints and deliver any blocks, where the ids of the blocks that ever occur do
not collide. The main chain always agrees with the checkpoints, and once it has
passed one, the blocks up to there stay. -/
theorem checkpoints_final (env : Env) (D : Set Block) (hinj : Set.InjOn env.blockHash D)
    {bc₀ bc : Blockchain} (hchain : StoredChain env bc₀.db.chain)
    (hD : ∀ s ∈ bc₀.db.chain, s.blk ∈ D) (halt : bc₀.alternativeChains = ∅)
    (hagrees : bc₀.checkpoints.Agrees bc₀.db.chain)
    (hrun : Relation.ReflTransGen (Delivers env D) bc₀ bc) :
    bc₀.checkpoints.Agrees bc.db.chain ∧
      ∀ bc', Relation.ReflTransGen (Delivers env D) bc bc' → ∀ p ∈ bc₀.checkpoints.points,
        p.1 < bc.db.height → bc'.db.chain.take (p.1 + 1) = bc.db.chain.take (p.1 + 1) := by
  have hinv₀ : CheckpointInv env D bc₀ := by
    have hnone : ∀ id bei, bc₀.alternativeChains.lookup id ≠ some bei := by
      intro id bei hl
      rw [halt] at hl
      cases hl
    rcases hc : bc₀.db.chain with _ | ⟨g, rest⟩
    · exact .inl ⟨hc, halt⟩
    · obtain ⟨hstored, hpath⟩ := hchain.isPath hc
      refine .inr ⟨g.blk, rest.map (·.blk), ⟨hstored, hpath, fun b hb => ?_, hagrees,
        fun id bei hl => absurd hl (hnone id bei)⟩, fun id bei hl => absurd hl (hnone id bei)⟩
      obtain ⟨s, hs, rfl⟩ := List.mem_map.mp hb
      exact hD s (by simp [hc, hs])
  -- a run keeps the invariant and the passed checkpoints
  have hruns : ∀ {bc₁ bc₂ : Blockchain}, CheckpointInv env D bc₁ →
      Relation.ReflTransGen (Delivers env D) bc₁ bc₂ →
      CheckpointInv env D bc₂ ∧ Keeps bc₁ bc₂ ∧ bc₂.checkpoints = bc₁.checkpoints := by
    intro bc₁ bc₂ hinv hrun
    induction hrun with
    | refl => exact ⟨hinv, .refl _, rfl⟩
    | tail _ hstep ih =>
      obtain ⟨hinv', hkeeps, hcp⟩ := ih
      obtain ⟨now, nesting, bl, o, hb, hcall⟩ := hstep
      obtain ⟨hinv'', hkeeps', hcp'⟩ := addNewBlock_checkpointInv hinj hinv' hb hcall
      exact ⟨hinv'', hkeeps.trans hkeeps' hcp, hcp'.trans hcp⟩
  obtain ⟨hinv, -, hcp⟩ := hruns hinv₀ hrun
  refine ⟨?_, fun bc' hrun' p hp hlt => ?_⟩
  · rcases hinv with ⟨hempty, -⟩ | ⟨root, main, hr, -⟩
    · rw [hempty]
      exact Checkpoints.agrees_nil _
    · rw [← hcp]
      exact hr.agrees
  · obtain ⟨-, hkeeps, -⟩ := hruns hinv hrun'
    exact hkeeps p (by rwa [hcp]) hlt

theorem delivers_of_deliver : ∀ {blocks : List Block} {bc : Blockchain}, (∀ b ∈ blocks, b ∈ D) →
    deliver env now bc blocks = some bc' → Relation.ReflTransGen (Delivers env D) bc bc'
  | [], bc, _, h => by
    cases h
    exact .refl
  | b :: rest, bc, hD, h => by
    obtain ⟨bc1, h1, h⟩ := Option.bind_eq_some_iff.mp h
    obtain ⟨⟨o, bc2⟩, hcall, rfl⟩ := Option.map_eq_some_iff.mp h1
    exact .head ⟨now, 2, b, o, hD b (by simp), hcall⟩
      (delivers_of_deliver (fun c hc => hD c (by simp [hc])) h)

def checkpointedNode : Blockchain :=
  { straddledNode with checkpoints := ⟨[(2, numberedHash 2)], by decide⟩ }

/-- A node that passed the checkpoint with its own side keeps it when the heavier
branch from below arrives. -/
theorem checkpoints_final_straddling : ∃ bc bc',
    deliver .permissive 10000 checkpointedNode (straddlingCommon ++ straddlingMain) = some bc ∧
    deliver .permissive 10000 bc straddlingBranch = some bc' ∧ bc.db.height = 4 ∧
    bc'.db.chain.take (2 + 1) = bc.db.chain.take (2 + 1) := by
  obtain ⟨bc, hbc, h⟩ := (Option.any_eq_true _ _).mp (by decide +kernel :
    (deliver .permissive 10000 checkpointedNode (straddlingCommon ++ straddlingMain)).any
      (fun bc => bc.db.height = 4 ∧
        (deliver .permissive 10000 bc straddlingBranch).isSome = true) = true)
  obtain ⟨hheight, h⟩ := of_decide_eq_true h
  obtain ⟨bc', hbc'⟩ := Option.isSome_iff_exists.mp h
  have hinj : Set.InjOn Env.permissive.blockHash
      {b | b ∈ straddlingCommon ++ straddlingMain ++ straddlingBranch} := fun a ha b hb heq =>
    List.inj_on_of_nodup_map (by decide : ((straddlingCommon ++ straddlingMain ++
      straddlingBranch).map Env.permissive.blockHash).Nodup) ha hb heq
  have hempty : checkpointedNode.db.chain = [] := rfl
  refine ⟨bc, bc', hbc, hbc', hheight, ?_⟩
  exact (checkpoints_final .permissive _ hinj storedChain_nil (by simp [hempty]) rfl
    (Checkpoints.agrees_nil _)
    (delivers_of_deliver (fun b hb => List.mem_append_left _ hb) hbc)).2 bc'
    (delivers_of_deliver (fun b hb => List.mem_append_right _ hb) hbc') (2, numberedHash 2)
    (by decide) (by rw [hheight]; decide)

theorem CheckpointInv.run (hinj : Set.InjOn env.blockHash D) (hinv : CheckpointInv env D bc)
    (hrun : Relation.ReflTransGen (Delivers env D) bc bc') :
    CheckpointInv env D bc' ∧ bc'.checkpoints = bc.checkpoints := by
  induction hrun with
  | refl => exact ⟨hinv, rfl⟩
  | tail _ hstep ih =>
    obtain ⟨now, nesting, bl, o, hb, hcall⟩ := hstep
    obtain ⟨hinv', -, hcp⟩ := addNewBlock_checkpointInv hinj ih.1 hb hcall
    exact ⟨hinv', hcp.trans ih.2⟩

/-- The path up to a checkpoint that was passed. -/
theorem CheckpointInv.passed (hinv : CheckpointInv env D bc) {p : Nat × Hash}
    (hp : p ∈ bc.checkpoints.points) (hlt : p.1 < bc.db.height) : ∃ root r,
      bc.db.getBlockFromHeight 0 = some root ∧
      (bc.db.chain.take (p.1 + 1)).map (·.blk) = root :: r ∧ (∀ b ∈ r, b ∈ D) ∧
      ForkChoice.IsPath env.blockHash (fun b => b.prevId) root r ∧
      env.blockHash (ForkChoice.tip root r) = p.2 := by
  rcases hinv with ⟨hchain, -⟩ | ⟨root, main, hr, -⟩
  · rw [BlockchainDb.height, hchain] at hlt
    cases hlt
  rw [BlockchainDb.height, hr.stored.length_eq, Nat.lt_succ_iff] at hlt
  obtain ⟨s, hs, -, hhash⟩ := hr.stored.getElem hlt
  have hroot : bc.db.getBlockFromHeight 0 = some root := by
    rw [BlockchainDb.getBlockFromHeight, ← List.getElem?_map, hr.stored.blocks]
    rfl
  exact ⟨root, main.take p.1, hroot, (hr.stored.take p.1).blocks,
    fun b hb => hr.delivered b (List.mem_of_mem_take hb),
    hr.path.of_prefix (List.take_prefix _ _), hhash ▸ hr.agrees p hp s hs⟩

/-- **Nodes agree below a checkpoint.** Nodes with the same checkpoints start on an empty database
and are sent any blocks, in any order. Two of them that have passed a checkpoint, above the same
genesis block, have the same blocks up to it. -/
theorem checkpoints_agree (env : Env) (D : Set Block) (hinj : Set.InjOn env.blockHash D)
    {bc₀ bc bc' : Blockchain} (hchain : bc₀.db.chain = []) (halt : bc₀.alternativeChains = ∅)
    (hrun : Relation.ReflTransGen (Delivers env D) bc₀ bc)
    (hrun' : Relation.ReflTransGen (Delivers env D) bc₀ bc') {p : Nat × Hash}
    (hp : p ∈ bc₀.checkpoints.points) (hlt : p.1 < bc.db.height) (hlt' : p.1 < bc'.db.height)
    (hgenesis : bc.db.getBlockFromHeight 0 = bc'.db.getBlockFromHeight 0) :
    (bc.db.chain.take (p.1 + 1)).map (·.blk) = (bc'.db.chain.take (p.1 + 1)).map (·.blk) := by
  obtain ⟨hinv, hcp⟩ := CheckpointInv.run hinj (.inl ⟨hchain, halt⟩) hrun
  obtain ⟨hinv', hcp'⟩ := CheckpointInv.run hinj (.inl ⟨hchain, halt⟩) hrun'
  obtain ⟨root, r, hroot, hblocks, hD, hpath, hid⟩ := hinv.passed (hcp ▸ hp) hlt
  obtain ⟨root', r', hroot', hblocks', hD', hpath', hid'⟩ := hinv'.passed (hcp' ▸ hp) hlt'
  obtain rfl := Option.some.inj (hroot.symm.trans (hgenesis.trans hroot'))
  rw [hblocks, hblocks', hpath.unique hinj hpath' hD hD' (hid.trans hid'.symm)]

/-- Blocks above the checkpoint that the first node is not sent. -/
def otherSide : List Block :=
  [straddlingBlock 2 1 2, straddlingBlock 23 2 3, straddlingBlock 24 23 4]

/-- Two nodes with different tops above the checkpoint at height 2. The second is sent a branch
below it first. -/
theorem checkpoints_agree_straddling : ∃ bc bc',
    deliver .permissive 10000 checkpointedNode (straddlingCommon ++ straddlingMain) = some bc ∧
    deliver .permissive 10000 checkpointedNode (straddlingCommon ++ straddlingBranch ++ otherSide) =
      some bc' ∧
    bc.db.topBlockHash = numberedHash 3 ∧ bc'.db.topBlockHash = numberedHash 24 ∧
    (bc.db.chain.take (2 + 1)).map (·.blk) = (bc'.db.chain.take (2 + 1)).map (·.blk) := by
  obtain ⟨bc, hbc, h⟩ := (Option.any_eq_true _ _).mp (by decide +kernel :
    (deliver .permissive 10000 checkpointedNode (straddlingCommon ++ straddlingMain)).any
      (fun bc => (2 < bc.db.height ∧ bc.db.topBlockHash = numberedHash 3) ∧
        bc.db.getBlockFromHeight 0 = some (straddlingBlock 0 0 0)) = true)
  obtain ⟨⟨hlt, htop⟩, hroot⟩ := of_decide_eq_true h
  obtain ⟨bc', hbc', h⟩ := (Option.any_eq_true _ _).mp (by decide +kernel :
    (deliver .permissive 10000 checkpointedNode
      (straddlingCommon ++ straddlingBranch ++ otherSide)).any
      (fun bc => (2 < bc.db.height ∧ bc.db.topBlockHash = numberedHash 24) ∧
        bc.db.getBlockFromHeight 0 = some (straddlingBlock 0 0 0)) = true)
  obtain ⟨⟨hlt', htop'⟩, hroot'⟩ := of_decide_eq_true h
  let blocks := straddlingCommon ++ straddlingMain ++ straddlingBranch ++ otherSide.tail
  have hinj : Set.InjOn Env.permissive.blockHash {b | b ∈ blocks} :=
    fun a ha b hb heq => List.inj_on_of_nodup_map (by decide : (blocks.map
      Env.permissive.blockHash).Nodup) ha hb heq
  exact ⟨bc, bc', hbc, hbc', htop, htop', checkpoints_agree .permissive _ hinj rfl rfl
    (delivers_of_deliver (by decide) hbc) (delivers_of_deliver (by decide) hbc')
    (p := (2, numberedHash 2)) (by decide) hlt hlt' (hroot.trans hroot'.symm)⟩

end Blockchain

end Lethean
