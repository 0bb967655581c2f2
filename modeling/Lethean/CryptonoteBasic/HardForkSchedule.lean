import Lethean.CryptonoteBasic.HardForkSound

/-!
# Lethean.CryptonoteBasic.HardForkSchedule

Fork tables without voting: every threshold is 0, as in both tables of the
source. The active fork is then a function of the height, `scheduledIndex`, as
long as the object only ever follows one growing chain. One `add` raises the
index to what is scheduled for the next height and never lowers it.
-/

namespace Lethean

namespace ForkTable

/-- Every fork activates by height alone. -/
def NoVoting (t : ForkTable) : Prop := ∀ p ∈ t.entries, p.threshold = 0

instance (t : ForkTable) : Decidable t.NoVoting := inferInstanceAs (Decidable (∀ p ∈ _, _))

/-- How many forks after the first entry are due at a height. -/
def scheduledIndex (t : ForkTable) (height : Nat) : Nat :=
  t.entries.tail.countP fun p => p.height ≤ height

def scheduledVersion (t : ForkTable) (height : Nat) : Nat := t.versionAt (t.scheduledIndex height)

theorem scheduledIndex_mono (t : ForkTable) {h h' : Nat} (hle : h ≤ h') :
    t.scheduledIndex h ≤ t.scheduledIndex h' := by
  refine List.countP_mono_left fun p _ hp => ?_
  simp only [decide_eq_true_eq] at hp ⊢
  exact hp.trans hle

theorem scheduledIndex_lt {t : ForkTable} (hne : t.entries ≠ []) (h : Nat) :
    t.scheduledIndex h < t.entries.length := by
  have hle : t.scheduledIndex h ≤ t.entries.tail.length := List.countP_le_length
  have hpos := List.length_pos_iff.mpr hne
  rw [List.length_tail] at hle
  omega

theorem scheduledIndex_zero (t : ForkTable) : t.scheduledIndex 0 = 0 := by
  refine List.countP_eq_zero.mpr fun p hp => ?_
  obtain ⟨e, rest, hent⟩ := List.exists_cons_of_ne_nil
    (List.ne_nil_of_mem (List.mem_of_mem_tail hp))
  rw [hent, List.tail_cons] at hp
  have hbefore := (List.pairwise_cons.mp (hent ▸ t.pairwise)).1 p hp
  have := hbefore.2.1
  simp only [decide_eq_true_eq]
  omega

theorem scheduledIndex_eq_iff (t : ForkTable) {h h' : Nat} (hle : h ≤ h') :
    t.scheduledIndex h = t.scheduledIndex h' ↔
      ∀ p ∈ t.entries.tail, ¬ (h < p.height ∧ p.height ≤ h') := by
  unfold scheduledIndex
  induction t.entries.tail with
  | nil => simp
  | cons p rest ih =>
    have hmono : rest.countP (fun p => p.height ≤ h) ≤ rest.countP (fun p => p.height ≤ h') := by
      refine List.countP_mono_left fun q _ hq => ?_
      simp only [decide_eq_true_eq] at hq ⊢
      exact hq.trans hle
    simp only [List.countP_cons, List.mem_cons, forall_eq_or_imp, ← ih, decide_eq_true_eq]
    constructor
    · intro heq
      split_ifs at heq with h1 h2 h2 <;> omega
    · rintro ⟨hp, heq⟩
      split_ifs with h1 h2 h2 <;> omega

end ForkTable

namespace HardFork

/-! ### Votes do not matter -/

theorem voteThreshold_eq_zero (hf : HardFork) {p : ForkParams} (hp : p.threshold = 0) :
    hf.voteThreshold p = 0 := by
  rw [voteThreshold, hp, Nat.mul_zero]
  rfl

theorem countP_due_concat {h : Nat} {l : List ForkParams} {p : ForkParams}
    (hl : (l ++ [p]).Pairwise ForkParams.Before) :
    (l ++ [p]).countP (fun p => p.height ≤ h) =
      if p.height ≤ h then l.length + 1 else l.countP (fun p => p.height ≤ h) := by
  obtain ⟨-, -, hbefore⟩ := List.pairwise_append.mp hl
  rw [List.countP_append, List.countP_singleton]
  by_cases hdue : p.height ≤ h
  · have hall : l.countP (fun p => p.height ≤ h) = l.length := by
      refine List.countP_eq_length.mpr fun q hq => ?_
      have := (hbefore q hq p (by simp)).2.1
      simp only [decide_eq_true_eq]
      omega
    simp [hdue, hall]
  · simp [hdue]

/-- Without thresholds the loop of `get_voted_fork_index` stops at the last
entry that is due. -/
theorem votedLoop_noVoting {hf : HardFork} {h : Nat} :
    ∀ {l : List ForkParams}, l.Pairwise ForkParams.Before → (∀ p ∈ l, p.threshold = 0) →
      ∀ acc, hf.votedLoop h l.reverse acc =
        if l.countP (fun p => p.height ≤ h) = 0 then none
        else some (l.countP (fun p => p.height ≤ h) - 1) := by
  intro l
  induction l using List.reverseRecOn with
  | nil => intros; rfl
  | append_singleton l p ih =>
    intro hl ht acc
    have hp : hf.voteThreshold p = 0 := voteThreshold_eq_zero hf (ht p (by simp))
    rw [List.reverse_append, List.reverse_singleton, List.singleton_append, votedLoop, hp,
      countP_due_concat hl]
    by_cases hdue : p.height ≤ h
    · simp [hdue]
    · rw [if_neg (fun hc => hdue hc.1), ih (List.pairwise_append.mp hl).1
        (fun q hq => ht q (by simp [hq])), if_neg hdue]

theorem countP_entries (t : ForkTable) (h : Nat) :
    t.entries.countP (fun p => p.height ≤ h) = 0 ∧ t.scheduledIndex h = 0 ∨
      t.entries.countP (fun p => p.height ≤ h) = t.scheduledIndex h + 1 := by
  unfold ForkTable.scheduledIndex
  cases hent : t.entries with
  | nil => exact .inl ⟨rfl, rfl⟩
  | cons e rest =>
    rw [List.tail_cons, List.countP_cons]
    by_cases hdue : e.height ≤ h
    · exact .inr (by simp [hdue])
    have hnone : rest.countP (fun p => p.height ≤ h) = 0 := by
      refine List.countP_eq_zero.mpr fun p hp => ?_
      have := ((List.pairwise_cons.mp (hent ▸ t.pairwise)).1 p hp).2.1
      simp only [decide_eq_true_eq]
      omega
    exact .inl (by simp [hdue, hnone])

theorem find_reverse_due (h : Nat) : ∀ {l : List ForkParams}, l.Pairwise ForkParams.Before →
    l.reverse.find? (fun p => p.height ≤ h) =
      if l.countP (fun p => p.height ≤ h) = 0 then none
      else l[l.countP (fun p => p.height ≤ h) - 1]? := by
  intro l
  induction l using List.reverseRecOn with
  | nil => intro; rfl
  | append_singleton l p ih =>
    intro hl
    rw [List.reverse_append, List.reverse_singleton, List.singleton_append, List.find?_cons,
      countP_due_concat hl]
    by_cases hdue : p.height ≤ h
    · simp [hdue]
    rw [ih (List.pairwise_append.mp hl).1]
    simp only [hdue, decide_false, if_false]
    split
    · rfl
    · have hle : l.countP (fun p => p.height ≤ h) ≤ l.length := List.countP_le_length
      rw [List.getElem?_append_left (by omega)]

/-- `get_ideal_version` knows the schedule, but below the second fork it answers
with the original version. -/
theorem getIdealVersion_eq (hf : HardFork) (h : Nat) :
    hf.getIdealVersion h = if hf.heights.scheduledIndex h = 0 then hf.originalVersion
      else hf.heights.scheduledVersion h := by
  have htail : hf.heights.entries.tail.Pairwise ForkParams.Before := hf.heights.pairwise.tail
  have hgetD : hf.getIdealVersion h =
      ((hf.heights.entries.tail.reverse.find? fun p => p.height ≤ h).map (·.version)).getD
        hf.originalVersion := by
    unfold getIdealVersion
    split
    · rename_i p hp
      rw [hp]
      rfl
    · rename_i hnone
      rw [hnone]
      rfl
  have hfind : hf.heights.entries.tail.reverse.find? (fun p => p.height ≤ h) =
      if hf.heights.scheduledIndex h = 0 then none
      else hf.heights.entries.tail[hf.heights.scheduledIndex h - 1]? := find_reverse_due h htail
  rw [hgetD, hfind]
  by_cases h0 : hf.heights.scheduledIndex h = 0
  · rw [if_pos h0, if_pos h0]
    rfl
  -- entry `n` of the table is entry `n - 1` of its tail
  have hlt : hf.heights.scheduledIndex h < hf.heights.entries.length := by
    have hle : hf.heights.scheduledIndex h ≤ hf.heights.entries.tail.length :=
      List.countP_le_length
    rw [List.length_tail] at hle
    omega
  rw [if_neg h0, if_neg h0, List.getElem?_tail, Nat.sub_add_cancel (Nat.pos_of_ne_zero h0),
    ForkTable.scheduledVersion, ForkTable.versionAt, List.getElem?_eq_getElem hlt]
  rfl

/-- The jump at the end of `add`, without voting. -/
theorem applyVote_noVoting (hf : HardFork) (ht : hf.heights.NoVoting) (h : Nat) :
    (hf.applyVote h).currentForkIndex =
      max hf.currentForkIndex (hf.heights.scheduledIndex h) := by
  unfold applyVote getVotedForkIndex
  rw [votedLoop_noVoting hf.heights.pairwise ht]
  rcases countP_entries hf.heights h with ⟨hnone, hsched⟩ | hsome
  · have hmod := Nat.mod_le hf.currentForkIndex 256
    simp only [hnone, hsched, if_true, Option.getD_none]
    split <;> simp; omega
  have hlt : hf.heights.scheduledIndex h < 256 := by
    have hle : hf.heights.scheduledIndex h ≤ hf.heights.entries.tail.length :=
      List.countP_le_length
    have := hf.heights.length_lt
    rw [List.length_tail] at hle
    omega
  simp only [hsome, Nat.add_one_ne_zero, if_false, Option.getD_some, Nat.add_sub_cancel,
    Nat.mod_eq_of_lt hlt]
  split <;> simp <;> omega

theorem applyVote_sameConfig (hf : HardFork) (h : Nat) : SameConfig hf (hf.applyVote h) := by
  rw [applyVote_eq]
  exact ⟨rfl, rfl, rfl⟩

theorem SameConfig.trans {hf1 hf2 hf3 : HardFork} (h : SameConfig hf1 hf2)
    (h' : SameConfig hf2 hf3) : SameConfig hf1 hf3 :=
  ⟨h'.windowSize_eq.trans h.windowSize_eq, h'.originalVersion_eq.trans h.originalVersion_eq,
    h'.heights_eq.trans h.heights_eq⟩

/-- One `add` without voting: whatever the votes were, the index rises to what
is scheduled for the next height. -/
theorem add_noVoting {hf hf' : HardFork} {db db' : BlockchainDb} {b : BlockHeader} {height : Nat}
    (ht : hf.heights.NoVoting) (h : hf.add db b height = some (hf', db')) :
    SameConfig hf hf' ∧
      hf'.currentForkIndex = max hf.currentForkIndex (hf.heights.scheduledIndex (height + 1)) := by
  obtain ⟨-, versions, last, rfl⟩ := add_inv h
  have hvotes : SameConfig hf { hf with versions := versions, lastVersions := last } :=
    ⟨rfl, rfl, rfl⟩
  refine ⟨hvotes.trans (applyVote_sameConfig _ _), ?_⟩
  exact applyVote_noVoting { hf with versions := versions, lastVersions := last } ht _

theorem afterChain_index_noVoting {cfg : HardFork} (ht : cfg.heights.NoVoting)
    (c : List StoredBlock) :
    (cfg.afterChain c).currentForkIndex = cfg.heights.scheduledIndex c.length := by
  induction c using List.reverseRecOn with
  | nil => exact (ForkTable.scheduledIndex_zero _).symm
  | append_singleton c b ih =>
    have happly := applyVote_noVoting (cfg.counted (cfg.votes ((c ++ [b]).rtake cfg.windowSize))
      (cfg.afterChain c).currentForkIndex) ht (c.length + 1)
    rw [afterChain_eq_applyVote, happly, List.length_append, List.length_singleton]
    change max (cfg.afterChain c).currentForkIndex (cfg.heights.scheduledIndex _) = _
    rw [ih]
    exact max_eq_right (ForkTable.scheduledIndex_mono _ (Nat.le_succ _))

theorem afterChain_version_noVoting {cfg : HardFork} (ht : cfg.heights.NoVoting)
    (c : List StoredBlock) :
    (cfg.afterChain c).getCurrentVersion = cfg.heights.scheduledVersion c.length := by
  rw [getCurrentVersion, afterChain_index_noVoting ht]
  rfl

theorem growAll_noVoting {hf0 hf : HardFork} {db : BlockchainDb} {s0 : HardFork × BlockchainDb}
    (h0 : hf0.init BlockchainDb.empty = some s0) (ht : hf0.reset.heights.NoVoting)
    {c : List StoredBlock} (h : growAll s0 c = some (hf, db)) :
    db.chain = c ∧ SameConfig hf0.reset hf ∧
      hf.currentForkIndex = hf0.reset.heights.scheduledIndex c.length := by
  rw [init_empty] at h0
  obtain rfl := Option.some.inj h0
  obtain ⟨htr, hchain⟩ := (tracks_empty hf0).growAll h
  replace hchain : db.chain = c := hchain
  refine ⟨hchain, ?_, ?_⟩
  · rw [htr.state]
    exact ⟨rfl, rfl, rfl⟩
  · rw [htr.state, afterChain_index_noVoting ht, hchain]

end HardFork

end Lethean
