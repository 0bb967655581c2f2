import Lethean.CryptonoteBasic.HardFork
import Lethean.Lib.ForkChoice
import Lethean.Lib.Window

/-!
# Lethean.CryptonoteBasic.HardForkSound

The hard-fork state is a function of the chain: adding blocks one at a time,
rescanning at start-up and reorganizing after a chain change all lead to the
same votes, counters and fork index.

The function is `HardFork.after`. For the votes of a chain it keeps the last
`window_size` of them, their counts, and the index `activeIndex`, the running
maximum of what each window elects. Each path of the class is then compared
with `after` and never with another path:

* `add_after`: one `add` appends one vote;
* `rescan_after`: the start-up scan, which restarts the index from the version
  stored for the top block;
* `reorganize_after`: the rescan from a split height, which restarts the index
  by walking down from wherever it was.

`Tracks` is the invariant of a database filled by `add` calls only.
-/

namespace Lethean

namespace HardFork

/-! ### The state as a function of the votes -/

/-- The state whose window holds exactly the given votes. -/
def counted (hf : HardFork) (window : List Nat) (index : Nat) : HardFork :=
  { hf with
    versions := window
    lastVersions := Window.tally (2 ^ 32) window
    currentForkIndex := index }

/-- The state with a given history of votes (oldest first) and fork index. -/
def withVotes (hf : HardFork) (votes : List Nat) (index : Nat) : HardFork :=
  hf.counted (votes.rtake hf.windowSize) index

/-- The fork index after the given votes, newest first. -/
def activeIndex (hf : HardFork) : List Nat → Nat
  | [] => 0
  | v :: votes =>
    ((hf.withVotes (v :: votes).reverse (activeIndex hf votes)).applyVote
      (votes.length + 1)).currentForkIndex

/-- The state after the given votes, oldest first. -/
def after (hf : HardFork) (votes : List Nat) : HardFork :=
  hf.withVotes votes (hf.activeIndex votes.reverse)

def votes (hf : HardFork) (chain : List StoredBlock) : List Nat :=
  chain.map fun b => hf.effectiveVote b.blk.toBlockHeader

section

variable (hf : HardFork)
include hf

@[simp] theorem votes_append (c1 c2 : List StoredBlock) :
    hf.votes (c1 ++ c2) = hf.votes c1 ++ hf.votes c2 := List.map_append

@[simp] theorem length_votes (c : List StoredBlock) :
    (hf.votes c).length = c.length := List.length_map _

theorem after_forkIndex (vs : List Nat) :
    (hf.after vs).currentForkIndex = hf.activeIndex vs.reverse := rfl

theorem applyVote_eq (h : Nat) :
    hf.applyVote h = { hf with currentForkIndex := (hf.applyVote h).currentForkIndex } := by
  unfold applyVote
  dsimp only
  split <;> rfl

theorem currentForkIndex_le_applyVote (h : Nat) :
    hf.currentForkIndex ≤ (hf.applyVote h).currentForkIndex := by
  unfold applyVote
  dsimp only
  split
  · rename_i hlt
    exact hlt.le
  · exact le_rfl

/-- One more vote: count it, then let the new window decide. -/
theorem after_concat (vs : List Nat) (v : Nat) :
    hf.after (vs ++ [v]) =
      (hf.withVotes (vs ++ [v]) (hf.activeIndex vs.reverse)).applyVote (vs.length + 1) := by
  rw [applyVote_eq, after]
  simp [activeIndex, withVotes, counted]

theorem activeIndex_le_cons (v : Nat) (vs : List Nat) :
    hf.activeIndex vs ≤ hf.activeIndex (v :: vs) :=
  currentForkIndex_le_applyVote (hf.withVotes (v :: vs).reverse (hf.activeIndex vs)) _

/-- The fork index never goes back while the chain grows. -/
theorem after_index_mono (vs ws : List Nat) :
    (hf.after vs).currentForkIndex ≤ (hf.after (vs ++ ws)).currentForkIndex := by
  simp only [after_forkIndex, List.reverse_append]
  induction ws.reverse with
  | nil => exact le_rfl
  | cons w ws ih => exact ih.trans (activeIndex_le_cons hf w _)

end

/-! ### The index stays inside the table -/

variable {hf cfg : HardFork} {n : Nat} {db : BlockchainDb}

theorem votedLoop_lt {h : Nat} :
    ∀ {l : List ForkParams} {acc : Nat}, hf.votedLoop h l acc = some n → n < l.length
  | [], _, hn => by simp [votedLoop] at hn
  | p :: rest, acc, hn => by
    simp only [votedLoop] at hn
    split at hn
    · obtain rfl := Option.some.inj hn
      exact Nat.lt_succ_self _
    · exact (votedLoop_lt hn).trans (Nat.lt_succ_self _)

theorem getVotedForkIndex_lt (h : Nat) (hi : hf.currentForkIndex < hf.heights.entries.length) :
    hf.getVotedForkIndex h < hf.heights.entries.length := by
  unfold getVotedForkIndex
  cases hl : hf.votedLoop h hf.heights.entries.reverse 0 with
  | none => exact hi
  | some n => simpa using votedLoop_lt hl

theorem applyVote_index_lt (hf : HardFork) (h : Nat)
    (hi : hf.currentForkIndex < hf.heights.entries.length) :
    (hf.applyVote h).currentForkIndex < hf.heights.entries.length := by
  unfold applyVote
  dsimp only
  split
  · exact (Nat.mod_le _ _).trans_lt (getVotedForkIndex_lt h hi)
  · exact hi

theorem activeIndex_lt (hne : hf.heights.entries ≠ []) :
    ∀ vs, hf.activeIndex vs < hf.heights.entries.length
  | [] => List.length_pos_iff.mpr hne
  | v :: vs =>
    applyVote_index_lt (hf.withVotes (v :: vs).reverse (hf.activeIndex vs)) _
      (activeIndex_lt hne vs)

/-! ### One `add` -/

theorem pushVote_counted (hf : HardFork) (l : List Nat) (i v : Nat) :
    (hf.counted l i).pushVote v = hf.counted (l ++ [v]) i := by
  simp only [counted, pushVote, countUp, Window.tally_push]

/-- Making room in the window keeps the counters exact. -/
theorem dropOldVotes_tally {w : Nat} (hw : 0 < w) :
    ∀ l : List Nat, dropOldVotes w l (Window.tally (2 ^ 32) l) =
      (l.rtake (w - 1), Window.tally (2 ^ 32) (l.rtake (w - 1)))
  | [] => by simp [dropOldVotes]
  | old :: rest => by
    rw [dropOldVotes]
    split
    · rename_i hlen
      rw [List.length_cons] at hlen
      have hrt : (old :: rest).rtake (w - 1) = rest.rtake (w - 1) :=
        Window.rtake_append_of_le [old] rest (by omega)
      rw [countDown, Window.tally_pop (by decide), dropOldVotes_tally hw rest, hrt]
    · rename_i hlen
      rw [Window.rtake_eq_self (by omega)]

/-- `add` on the state after `vs`: it succeeds on the block's check alone, and
then leads to the state after one more vote. -/
theorem add_after (hf : HardFork) (vs : List Nat) (db : BlockchainDb) (b : BlockHeader) :
    (hf.after vs).add db b vs.length =
      if (hf.after vs).check b then
        some (hf.after (vs ++ [hf.effectiveVote b]),
          db.setHardForkVersion vs.length (hf.after vs).getCurrentVersion)
      else none := by
  have hslide : (vs.rtake hf.windowSize).rtake (hf.windowSize - 1) ++ [hf.effectiveVote b] =
      (vs ++ [hf.effectiveVote b]).rtake hf.windowSize := by
    rw [Window.rtake_rtake (Nat.sub_le _ _), Window.rtake_push _ hf.windowSize_pos]
  have hdrop := dropOldVotes_tally hf.windowSize_pos (vs.rtake hf.windowSize)
  have hpush := pushVote_counted hf ((vs.rtake hf.windowSize).rtake (hf.windowSize - 1))
    (hf.activeIndex vs.reverse) (hf.effectiveVote b)
  rw [hslide] at hpush
  rw [after_concat, withVotes, ← hpush]
  unfold add addVersion
  dsimp only [after, withVotes, counted]
  rw [hdrop]
  rfl

/-! ### Restarting the index from a stored version -/

/-- `rescan_from_block_height` finds the entry a stored version belongs to. -/
theorem raiseIndex_getElem : ∀ {l : List ForkParams}, l.Pairwise ForkParams.Before →
    ∀ {i : Nat} (hi : i < l.length), raiseIndex l[i].version l = i
  | [p], _, i, hi => by
    simp only [List.length_singleton] at hi
    obtain rfl : i = 0 := by omega
    rfl
  | p :: q :: rest, hl, i, hi => by
    obtain ⟨hp, hrest⟩ := List.pairwise_cons.mp hl
    cases i with
    | zero => simp [raiseIndex]
    | succ i =>
      have hi' : i < (q :: rest).length := by simpa using hi
      have hne : p.version ≠ ((q :: rest)[i]).version :=
        (hp _ (List.getElem_mem hi')).1.ne
      simp only [raiseIndex, List.getElem_cons_succ]
      rw [if_neg hne, raiseIndex_getElem hrest hi']

theorem raiseIndex_versionAt (t : ForkTable) {i : Nat} (hi : i < t.entries.length) :
    raiseIndex (t.versionAt i) t.entries = i := by
  simpa [ForkTable.versionAt, List.getElem?_eq_getElem hi] using raiseIndex_getElem t.pairwise hi

/-- `reorganize_from_block_height` walks down to the last entry whose version
is not above the stored one. -/
theorem lowerIndex_eq {t : ForkTable} {v i : Nat} (hv : i = 0 ∨ t.versionAt i ≤ v) :
    ∀ {j : Nat}, i ≤ j → (∀ n, i < n → n ≤ j → v < t.versionAt n) → lowerIndex t v j = i
  | 0, hij, _ => by simpa [lowerIndex] using (Nat.le_zero.mp hij).symm
  | j + 1, hij, habove => by
    rcases Nat.eq_or_lt_of_le hij with rfl | hlt
    · have hle := hv.resolve_left (Nat.succ_ne_zero j)
      rw [lowerIndex, if_neg hle.not_gt]
    · rw [lowerIndex, if_pos (habove _ hlt le_rfl)]
      exact lowerIndex_eq hv (by omega) fun n hn hnj => habove n hn (by omega)

theorem countVotes_counted (hf : HardFork) (i : Nat) (blocks : List StoredBlock) :
    ∀ l, (hf.counted l i).countVotes blocks = hf.counted (l ++ hf.votes blocks) i := by
  induction blocks with
  | nil =>
    intro l
    simp [countVotes, votes]
  | cons b blocks ih =>
    intro l
    have hstep : (hf.counted l i).countVotes (b :: blocks) =
        ((hf.counted l i).pushVote (hf.effectiveVote b.blk.toBlockHeader)).countVotes blocks :=
      rfl
    rw [hstep, pushVote_counted, ih]
    simp [votes]

/-! ### Databases filled by `add` -/

/-- The configuration of `hf` is that of `cfg`; the voting state may differ. -/
structure SameConfig (cfg hf : HardFork) : Prop where
  windowSize_eq : hf.windowSize = cfg.windowSize
  originalVersion_eq : hf.originalVersion = cfg.originalVersion
  heights_eq : hf.heights = cfg.heights

theorem SameConfig.counted_eq (h : SameConfig cfg hf) (l : List Nat) (i : Nat) :
    hf.counted l i = cfg.counted l i := by
  obtain ⟨hw, ho, ht⟩ := h
  simp only [counted, hw, ho, ht]

theorem sameConfig_after (cfg : HardFork) (vs : List Nat) : SameConfig cfg (cfg.after vs) :=
  ⟨rfl, rfl, rfl⟩

def afterChain (cfg : HardFork) (chain : List StoredBlock) : HardFork := cfg.after (cfg.votes chain)

/-- Every block of the chain passes the version check on the blocks before it. -/
def Accepts (cfg : HardFork) (chain : List StoredBlock) : Prop :=
  ∀ pre b, pre ++ [b] <+: chain → (cfg.afterChain pre).check b.blk.toBlockHeader = true

/-- The stored version of each block below `n` is the one it was checked against. -/
def Records (cfg : HardFork) (chain : List StoredBlock) (db : BlockchainDb) (n : Nat) : Prop :=
  ∀ h < n, db.getHardForkVersion h = some (cfg.afterChain (chain.take h)).getCurrentVersion

theorem afterChain_concat (cfg : HardFork) (c : List StoredBlock) (b : StoredBlock) :
    cfg.afterChain (c ++ [b]) = cfg.after (cfg.votes c ++ [cfg.effectiveVote b.blk.toBlockHeader]) := by
  simp [afterChain, votes]

/-- One more block on top of the chain `c`. -/
theorem add_afterChain (cfg : HardFork) (c : List StoredBlock) (b : StoredBlock)
    (db : BlockchainDb) :
    (cfg.afterChain c).add db b.blk.toBlockHeader c.length =
      if (cfg.afterChain c).check b.blk.toBlockHeader then
        some (cfg.afterChain (c ++ [b]),
          db.setHardForkVersion c.length (cfg.afterChain c).getCurrentVersion)
      else none := by
  have h := add_after cfg (cfg.votes c) db b.blk.toBlockHeader
  rw [length_votes] at h
  rwa [afterChain_concat]

theorem Records.set {chain : List StoredBlock} (h : Records cfg chain db n) :
    Records cfg chain
      (db.setHardForkVersion n (cfg.afterChain (chain.take n)).getCurrentVersion) (n + 1) := by
  intro k hk
  simp only [BlockchainDb.getHardForkVersion, BlockchainDb.setHardForkVersion]
  rcases Nat.lt_succ_iff_lt_or_eq.mp hk with hlt | rfl
  · rw [Function.update_of_ne hlt.ne]
    exact h k hlt
  · rw [Function.update_self]

/-- The last loop of `reorganize_from_block_height` re-adds accepted blocks
one by one, and records their versions on the way. -/
theorem addBlocks_afterChain (cfg : HardFork) :
    ∀ (rest pre : List StoredBlock) (db : BlockchainDb), Accepts cfg (pre ++ rest) →
      Records cfg (pre ++ rest) db pre.length →
      ∃ db', (cfg.afterChain pre).addBlocks db rest pre.length =
          (cfg.afterChain (pre ++ rest), db') ∧ db'.chain = db.chain ∧
        Records cfg (pre ++ rest) db' (pre ++ rest).length
  | [], pre, db, _, hrec => ⟨db, by simp [addBlocks], rfl, by simpa using hrec⟩
  | b :: rest, pre, db, hacc, hrec => by
    have happ : pre ++ b :: rest = (pre ++ [b]) ++ rest := by simp
    have hb := hacc pre b ⟨rest, happ.symm⟩
    have hrec' := hrec.set
    rw [List.take_left] at hrec'
    rw [happ] at hacc hrec' ⊢
    obtain ⟨db', hrun, hchain, hall⟩ :=
      addBlocks_afterChain cfg rest (pre ++ [b]) _ hacc (by simpa using hrec')
    refine ⟨db', ?_, hchain, hall⟩
    rw [addBlocks, add_afterChain, if_pos hb]
    simpa using hrun

/-! ### The three paths agree -/

theorem withVotes_votes (cfg : HardFork) (c : List StoredBlock) (i : Nat) :
    cfg.withVotes (cfg.votes c) i = cfg.counted (cfg.votes (c.rtake cfg.windowSize)) i := by
  simp [withVotes, votes]

theorem afterChain_eq_applyVote (cfg : HardFork) (c : List StoredBlock) (b : StoredBlock) :
    cfg.afterChain (c ++ [b]) =
      (cfg.counted (cfg.votes ((c ++ [b]).rtake cfg.windowSize))
        (cfg.afterChain c).currentForkIndex).applyVote (c.length + 1) := by
  rw [← withVotes_votes, afterChain_concat, after_concat, length_votes, votes_append]
  rfl

theorem afterChain_index_lt (hne : cfg.heights.entries ≠ []) (c : List StoredBlock) :
    (cfg.afterChain c).currentForkIndex < cfg.heights.entries.length :=
  activeIndex_lt hne _

section

variable (hcfg : SameConfig cfg hf)
include hcfg

theorem clearVotes_countVotes (blocks : List StoredBlock) (i : Nat) :
    ({ hf.clearVotes with currentForkIndex := i } : HardFork).countVotes blocks =
      cfg.counted (cfg.votes blocks) i := by
  have hclear : ({ hf.clearVotes with currentForkIndex := i } : HardFork) = cfg.counted [] i := by
    rw [← hcfg.counted_eq]
    simp [clearVotes, counted]
  rw [hclear, countVotes_counted, List.nil_append]

/-- **Start-up.** `rescan_from_block_height`, started where `init` starts it,
rebuilds the state after the stored chain. -/
theorem rescan_after (hne : cfg.heights.entries ≠ []) {c : List StoredBlock} {b : StoredBlock}
    (hchain : db.chain = c ++ [b]) (hrec : Records cfg db.chain db db.height) :
    hf.rescanFromBlockHeight db (db.height - cfg.windowSize) =
      some (true, cfg.afterChain db.chain) := by
  have hlen : db.height = c.length + 1 := by simp [BlockchainDb.height, hchain]
  have hpos := cfg.windowSize_pos
  have hlast := hrec (db.height - 1) (by omega)
  rw [hchain, hlen, Nat.add_sub_cancel, List.take_left] at hlast
  have hcount : hf.clearVotes.countVotes (db.chain.drop (db.height - cfg.windowSize)) =
      cfg.counted (cfg.votes (db.chain.rtake cfg.windowSize)) hf.currentForkIndex :=
    clearVotes_countVotes hcfg _ _
  unfold rescanFromBlockHeight
  rw [if_neg (by omega), hcount, hlen, Nat.add_sub_cancel, hlast, hchain, afterChain_eq_applyVote]
  simp only [Option.bind_eq_bind, Option.bind_some, getCurrentVersion, counted]
  rw [show (cfg.afterChain c).heights = cfg.heights from rfl,
    raiseIndex_versionAt _ (afterChain_index_lt hne c)]

/-- The walk of `reorganize_from_block_height` stops at the index that the
block at the split was checked with. -/
theorem lowerIndex_startVersion (horig : cfg.originalVersion ≤ cfg.heights.versionAt 0)
    (hn : n < db.height) (hrec : Records cfg db.chain db (n + 1))
    (hlow : (cfg.afterChain (db.chain.take n)).currentForkIndex ≤ hf.currentForkIndex)
    (hhigh : hf.currentForkIndex < cfg.heights.entries.length) :
    ∃ v, hf.startVersion db n = some v ∧
      lowerIndex hf.heights v hf.currentForkIndex =
        (cfg.afterChain (db.chain.take n)).currentForkIndex := by
  have habove : ∀ {i m : Nat}, i < m → m ≤ hf.currentForkIndex →
      cfg.heights.versionAt i < cfg.heights.versionAt m :=
    fun him hm => ForkTable.versionAt_lt him (hm.trans_lt hhigh)
  unfold startVersion
  rw [hcfg.heights_eq, hcfg.originalVersion_eq]
  by_cases h0 : n = 0
  · subst h0
    refine ⟨_, if_pos rfl, ?_⟩
    exact lowerIndex_eq (Or.inl rfl) (Nat.zero_le _) fun m hm hmj => horig.trans_lt (habove hm hmj)
  · refine ⟨_, (if_neg h0).trans (hrec n (Nat.lt_succ_self n)), ?_⟩
    exact lowerIndex_eq (Or.inr le_rfl) hlow fun m hm hmj => habove hm hmj

theorem drop_rescanHeight {l : List StoredBlock} (hl : l.length = n + 1) :
    l.drop (hf.rescanHeight n) = l.rtake cfg.windowSize := by
  have hpos := cfg.windowSize_pos
  rw [List.rtake, rescanHeight, hcfg.windowSize_eq, hl]
  congr 1
  split <;> omega

/-- **Reorganization.** From a split height `n` below which the database was
not touched, `reorganize_from_block_height` rebuilds the state after the stored
chain, whatever votes the object held before, as long as its index had not
fallen behind the split point. -/
theorem reorganize_after (horig : cfg.originalVersion ≤ cfg.heights.versionAt 0)
    (hn : n < db.height) (hacc : Accepts cfg db.chain) (hrec : Records cfg db.chain db (n + 1))
    (hlow : (cfg.afterChain (db.chain.take n)).currentForkIndex ≤ hf.currentForkIndex)
    (hhigh : hf.currentForkIndex < cfg.heights.entries.length) :
    ∃ db', hf.reorganizeFromBlockHeight db n = some (true, cfg.afterChain db.chain, db') ∧
      db'.chain = db.chain ∧ Records cfg db.chain db' db.height := by
  obtain ⟨v, hv, hindex⟩ := lowerIndex_startVersion hcfg horig hn hrec hlow hhigh
  have hsplit : db.chain.take (n + 1) = db.chain.take n ++ [db.chain.get ⟨n, hn⟩] := by
    rw [List.get_eq_getElem, List.take_append_getElem]
  have hlen : (db.chain.take (n + 1)).length = n + 1 := List.length_take_of_le hn
  have hlen' : (db.chain.take n).length = n := List.length_take_of_le (Nat.le_of_lt hn)
  have hwhole : db.chain.take (n + 1) ++ db.chain.drop (n + 1) = db.chain :=
    List.take_append_drop _ _
  obtain ⟨db', hrun, hsame, hall⟩ :=
    addBlocks_afterChain cfg (db.chain.drop (n + 1)) (db.chain.take (n + 1)) db
      (by rwa [hwhole]) (by rwa [hwhole, hlen])
  rw [hwhole] at hrun hall
  refine ⟨db', ?_, hsame, hall⟩
  -- up to the split the votes are counted, above it the blocks are added again
  have hcount : (({ hf.clearVotes with
        currentForkIndex := lowerIndex hf.heights v hf.currentForkIndex } : HardFork).countVotes
          ((db.chain.take (n + 1)).drop (hf.rescanHeight n))).applyVote (n + 1) =
      cfg.afterChain (db.chain.take (n + 1)) := by
    rw [clearVotes_countVotes hcfg, hindex, drop_rescanHeight hcfg hlen, hsplit,
      afterChain_eq_applyVote, hlen']
  rw [hlen, ← hcount] at hrun
  unfold reorganizeFromBlockHeight
  rw [if_neg (Nat.not_le.mpr hn), hv]
  exact congrArg (fun r => some (true, r)) hrun

end

/-! ### Chains grown from genesis -/

/-- One block on top of the database, accepted by `add`. -/
def grow (s : HardFork × BlockchainDb) (b : StoredBlock) : Option (HardFork × BlockchainDb) :=
  s.1.add (s.2.push b) b.blk.toBlockHeader s.2.height

/-- A chain added block by block, every `add` succeeding. -/
def growAll (s : HardFork × BlockchainDb) (chain : List StoredBlock) :
    Option (HardFork × BlockchainDb) :=
  chain.foldlM grow s

/-- What holds of an object and its database after a chain was grown. -/
structure Tracks (cfg hf : HardFork) (db : BlockchainDb) : Prop where
  state : hf = cfg.afterChain db.chain
  accepts : Accepts cfg db.chain
  records : Records cfg db.chain db db.height
  populated : (db.getHardForkVersion 0).isSome

theorem Accepts.concat {cfg : HardFork} {c : List StoredBlock} {b : StoredBlock}
    (h : Accepts cfg c) (hb : (cfg.afterChain c).check b.blk.toBlockHeader = true) :
    Accepts cfg (c ++ [b]) :=
  ForkChoice.forall_prefix_concat_iff.mpr ⟨h, hb⟩

theorem Tracks.grow {cfg hf hf' : HardFork} {db db' : BlockchainDb} {b : StoredBlock}
    (h : Tracks cfg hf db) (hg : HardFork.grow (hf, db) b = some (hf', db')) :
    Tracks cfg hf' db' ∧ db'.chain = db.chain ++ [b] := by
  rw [HardFork.grow, h.state, show (hf, db).2.height = db.chain.length from rfl,
    add_afterChain] at hg
  split at hg
  · rename_i hb
    obtain ⟨rfl, rfl⟩ := Prod.mk.inj (Option.some.inj hg)
    have hrec : Records cfg (db.chain ++ [b]) (db.push b) db.chain.length := by
      intro k hk
      rw [List.take_append_of_le_length hk.le]
      exact h.records k hk
    refine ⟨⟨rfl, h.accepts.concat hb, ?_, ?_⟩, rfl⟩
    · simpa [BlockchainDb.height] using hrec.set
    · simp only [BlockchainDb.getHardForkVersion, BlockchainDb.setHardForkVersion]
      by_cases h0 : 0 = db.chain.length
      · simp [← h0]
      · rw [Function.update_of_ne h0]
        exact h.populated
  · cases hg

theorem Tracks.growAll : ∀ {chain : List StoredBlock} {hf hf' : HardFork}
    {db db' : BlockchainDb}, Tracks cfg hf db →
    HardFork.growAll (hf, db) chain = some (hf', db') →
    Tracks cfg hf' db' ∧ db'.chain = db.chain ++ chain
  | [], hf, hf', db, db', h, hg => by
    obtain ⟨rfl, rfl⟩ := Prod.mk.inj (Option.some.inj hg)
    exact ⟨h, (List.append_nil _).symm⟩
  | b :: chain, hf, hf', db, db', h, hg => by
    obtain ⟨⟨hf1, db1⟩, h1, h2⟩ := Option.bind_eq_some_iff.mp hg
    obtain ⟨ht, hc⟩ := h.grow h1
    obtain ⟨ht', hc'⟩ := Tracks.growAll ht h2
    exact ⟨ht', by rw [hc', hc, List.append_assoc, List.singleton_append]⟩

theorem reset_entries_ne_nil (hf : HardFork) : hf.reset.heights.entries ≠ [] := by
  unfold reset
  split
  · simp [placeholder]
  · assumption

/-- `init` on an empty database leaves the reset object and marks height 0. -/
theorem init_empty (hf : HardFork) :
    hf.init BlockchainDb.empty =
      some (hf.reset, BlockchainDb.empty.setHardForkVersion 0 hf.originalVersion) := rfl

theorem tracks_empty (hf : HardFork) :
    Tracks hf.reset hf.reset (BlockchainDb.empty.setHardForkVersion 0 hf.originalVersion) where
  state := by simp [afterChain, after, withVotes, counted, votes, activeIndex, reset, clearVotes,
    BlockchainDb.empty]
  accepts := by
    intro pre b hpre
    exact absurd (List.prefix_nil.mp hpre) (by simp)
  records := fun h hh => absurd hh (Nat.not_lt_zero h)
  populated := by
    simp [BlockchainDb.getHardForkVersion, BlockchainDb.setHardForkVersion]

/-- Restarting on a tracked database gives back the object and the database. -/
theorem Tracks.init (h : Tracks cfg.reset hf db) : cfg.init db = some (hf, db) := by
  obtain ⟨v, hv⟩ := Option.isSome_iff_exists.mp h.populated
  unfold HardFork.init
  rw [hv]
  rcases List.eq_nil_or_concat' db.chain with hnil | ⟨c, b, hc⟩
  · -- nothing to rescan: the reset object is the state of the empty chain
    have hheight : db.height = 0 := by rw [BlockchainDb.height, hnil]; rfl
    have hstate : hf = cfg.reset := by
      rw [h.state, hnil]
      exact (tracks_empty cfg).state.symm
    simp [hheight, rescanFromChainHeight, rescanFromBlockHeight, hstate]
  · have hlen : db.height = c.length + 1 := by simp [BlockchainDb.height, hc]
    have hpos := cfg.reset.windowSize_pos
    have hscan := rescan_after ⟨rfl, rfl, rfl⟩ (reset_entries_ne_nil cfg) hc h.records
    have hstart : (if cfg.reset.windowSize < db.height then
        db.height - (cfg.reset.windowSize - 1) else 1) = db.height - cfg.reset.windowSize + 1 := by
      split <;> omega
    dsimp only
    rw [hstart, rescanFromChainHeight, if_neg (Nat.succ_ne_zero _), Nat.add_sub_cancel, hscan,
      ← h.state]
    rfl

/-- Reorganizing a tracked object onto a chain that shares its first `k`
blocks. The stored versions from height `k` on may be anything: a pop leaves
those of the old chain. -/
theorem Tracks.reorganize {hf' : HardFork} {db' dbx : BlockchainDb} (hcfg : cfg.originalVersion = 1)
    (hne : cfg.heights.entries ≠ []) (h : Tracks cfg hf db) (h' : Tracks cfg hf' db') {k : Nat}
    (hk : 1 ≤ k) (hkle : k ≤ db'.height) (hpre : db'.chain.take k <+: db.chain)
    (hchain : dbx.chain = db'.chain)
    (hkeep : ∀ i < k, dbx.getHardForkVersion i = db.getHardForkVersion i) :
    ∃ dby, hf.reorganizeFromChainHeight dbx k = some (true, hf', dby) ∧
      dby.chain = db'.chain ∧
      ∀ i < db'.height, dby.getHardForkVersion i = db'.getHardForkVersion i := by
  have hheight : dbx.height = db'.height := by rw [BlockchainDb.height, hchain]; rfl
  have hlen : (db'.chain.take k).length = k := List.length_take_of_le hkle
  have hkdb : k ≤ db.height := by
    have := hpre.length_le
    rwa [hlen] at this
  -- below the split both chains have the same blocks
  have hsame : ∀ i ≤ k, db.chain.take i = dbx.chain.take i := by
    intro i hi
    obtain ⟨rest, hrest⟩ := hpre
    rw [← hrest, List.take_append_of_le_length (by omega), List.take_take, hchain,
      Nat.min_eq_left hi]
  have hrec : Records cfg dbx.chain dbx (k - 1 + 1) := by
    intro i hi
    rw [hkeep i (by omega), h.records i (by omega), hsame i (by omega)]
  have hlow : (cfg.afterChain (dbx.chain.take (k - 1))).currentForkIndex ≤ hf.currentForkIndex := by
    rw [h.state, ← hsame (k - 1) (Nat.sub_le _ _)]
    conv_rhs => rw [← List.take_append_drop (k - 1) db.chain]
    rw [afterChain, afterChain, votes_append]
    exact after_index_mono _ _ _
  have hhigh : hf.currentForkIndex < cfg.heights.entries.length := by
    rw [h.state]
    exact afterChain_index_lt hne _
  have hsc : SameConfig cfg hf := by
    rw [h.state]
    exact sameConfig_after _ _
  have horig : cfg.originalVersion ≤ cfg.heights.versionAt 0 := by
    rw [hcfg]
    exact ForkTable.versionAt_pos (List.length_pos_iff.mpr hne)
  obtain ⟨dby, hrun, hdby, hall⟩ := reorganize_after hsc horig (by omega : k - 1 < dbx.height)
    (by rw [hchain]; exact h'.accepts) hrec hlow hhigh
  refine ⟨dby, ?_, hdby.trans hchain, ?_⟩
  · rw [reorganizeFromChainHeight, if_neg (by omega), hrun, hchain, ← h'.state]
  · intro i hi
    rw [hall i (by omega), h'.records i hi, hchain]

/-- **The hard-fork state is a function of the chain.** Take any table, any
window size and a chain grown block by block. Then (a) a restarted node rebuilds
the same object from the database, and (b) an object that had followed any other
chain agreeing with this one below height `k` reaches the same state through
`reorganize_from_chain_height(k)`, once the database holds this chain; in
particular when the other chain is longer and its top blocks were removed. -/
theorem hardFork_state_determined (table : ForkTable) (w : Nat) (hw : 0 < w)
    {s₀ : HardFork × BlockchainDb} (h₀ : (new table w hw).init BlockchainDb.empty = some s₀)
    {chain : List StoredBlock} {hf : HardFork} {db : BlockchainDb}
    (hgrow : growAll s₀ chain = some (hf, db)) :
    (new table w hw).init db = some (hf, db) ∧
    ∀ {other : List StoredBlock} {hf' : HardFork} {db' : BlockchainDb},
      growAll s₀ other = some (hf', db') →
      ∀ k, 1 ≤ k → k ≤ chain.length → chain.take k <+: other →
      ∀ dbx : BlockchainDb, dbx.chain = chain →
        (∀ i < k, dbx.getHardForkVersion i = db'.getHardForkVersion i) →
        ∃ dby, hf'.reorganizeFromChainHeight dbx k = some (true, hf, dby) ∧
          dby.chain = chain ∧
          ∀ i < chain.length, dby.getHardForkVersion i = db.getHardForkVersion i := by
  rw [init_empty] at h₀
  obtain rfl := Option.some.inj h₀
  obtain ⟨ht, hc⟩ := (tracks_empty (new table w hw)).growAll hgrow
  replace hc : db.chain = chain := hc
  refine ⟨ht.init, ?_⟩
  intro other hf' db' hother k hk hkle hpre dbx hdbx hkeep
  obtain ⟨ht', hc'⟩ := (tracks_empty (new table w hw)).growAll hother
  replace hc' : db'.chain = other := hc'
  subst hc hc'
  exact ht'.reorganize rfl (reset_entries_ne_nil _) ht hk hkle hpre hdbx hkeep

/-- A block of major version 4 or more that votes for `vote`. -/
def votingBlock (version vote : Nat) : StoredBlock :=
  .ofHeader ⟨version, vote, 0, nullHash, 0⟩ nullHash

def votedTable : ForkTable :=
  ⟨[⟨4, 0, 0, 0⟩, ⟨5, 100, 2, 1⟩], by decide, by decide, by decide, by decide⟩

/-- An object for `votedTable`, as it is after `init` on an empty database. -/
def votedStart : HardFork × BlockchainDb :=
  ((new votedTable 2 Nat.two_pos).reset, BlockchainDb.empty.setHardForkVersion 0 1)

/-- A chain that votes the second fork in, cut back below the fork. -/
theorem hardFork_state_determined_voted :
    ∃ hf db hf' db',
      growAll votedStart [votingBlock 4 4, votingBlock 4 5] = some (hf, db) ∧
      growAll votedStart [votingBlock 4 4, votingBlock 4 5, votingBlock 4 5, votingBlock 5 5] =
        some (hf', db') ∧
      (new votedTable 2 Nat.two_pos).init db = some (hf, db) ∧
      ∃ dby, hf'.reorganizeFromChainHeight
          { db' with chain := [votingBlock 4 4, votingBlock 4 5] } 2 = some (true, hf, dby) := by
  obtain ⟨⟨hf, db⟩, h⟩ := Option.isSome_iff_exists.mp (by decide +kernel :
    (growAll votedStart [votingBlock 4 4, votingBlock 4 5]).isSome)
  obtain ⟨⟨hf', db'⟩, h'⟩ := Option.isSome_iff_exists.mp (by decide +kernel :
    (growAll votedStart
      [votingBlock 4 4, votingBlock 4 5, votingBlock 4 5, votingBlock 5 5]).isSome)
  obtain ⟨hinit, hreorg⟩ :=
    hardFork_state_determined votedTable 2 Nat.two_pos (init_empty _) h
  obtain ⟨dby, hrun, -⟩ := hreorg h' 2 (by decide) (by decide) (by decide)
    { db' with chain := [votingBlock 4 4, votingBlock 4 5] } rfl (fun _ _ => rfl)
  exact ⟨hf, db, hf', db', h, h', hinit, dby, hrun⟩

end HardFork

end Lethean
