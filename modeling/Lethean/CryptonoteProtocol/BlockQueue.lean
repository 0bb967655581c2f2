import Lethean.Common.IntUtil
import Lethean.CryptonoteBasic.Types
import Lethean.Lib.KeySet

/-!
# Lethean.CryptonoteProtocol.BlockQueue

`class block_queue`: the spans of blocks that are requested from peers or have
arrived and wait to be added. The queue is a `std::set` ordered by the start
height of a span only, so a span is dropped when another one starts at its height,
and no caller is told.

The download rate of a span is left out: only the choice of peers by speed reads
it. The time is in microseconds and not set for a span with blocks.
-/

namespace Lethean

/-- `boost::uuids::uuid`, the id of a connection. -/
abbrev ConnectionId := Blob 16

structure BlockCompleteEntry where
  block : List UInt8
  txs : List (List UInt8)
  deriving DecidableEq

structure Span where
  startBlockHeight : Nat
  hashes : List Hash
  blocks : List BlockCompleteEntry
  connectionId : ConnectionId
  nblocks : Nat
  size : Nat
  time : Option Nat
  deriving DecidableEq

namespace Span

def filled (startBlockHeight : Nat) (blocks : List BlockCompleteEntry) (connectionId : ConnectionId)
    (size : Nat) : Span :=
  { startBlockHeight, hashes := [], blocks, connectionId, nblocks := blocks.length, size
    time := none }

def scheduled (startBlockHeight nblocks : Nat) (connectionId : ConnectionId) (time : Nat) : Span :=
  { startBlockHeight, hashes := [], blocks := [], connectionId, nblocks, size := 0
    time := some time }

def withHashes (span : Span) (hashes : List Hash) : Span := { span with hashes := hashes }

end Span

/-- `class block_queue`. -/
abbrev BlockQueue := KeySet Span Nat Span.startBlockHeight

namespace BlockQueue

/-- `set_span_hashes`: in the span of the connection that starts at the height. -/
def setSpanHashes (queue : BlockQueue) (startHeight : Nat) (connectionId : ConnectionId)
    (hashes : List Hash) : BlockQueue :=
  match queue.elems.find? fun s =>
      s.startBlockHeight = startHeight && s.connectionId = connectionId with
  | none => queue
  | some s => (queue.filter (· ≠ s)).insert (s.withHashes hashes)

/-- `remove_span`: the hashes of the span, if there is one. -/
def removeSpan (queue : BlockQueue) (startBlockHeight : Nat) : Option (List Hash) × BlockQueue :=
  match queue.elems.find? (·.startBlockHeight = startBlockHeight) with
  | none => (none, queue)
  | some s => (some s.hashes, queue.filter (· ≠ s))

/-- `add_blocks` with blocks: in place of the span at this height, whose hashes it
takes over. -/
def addBlocks (queue : BlockQueue) (height : Nat) (bcel : List BlockCompleteEntry)
    (connectionId : ConnectionId) (size : Nat) : BlockQueue :=
  match queue.removeSpan height with
  | (none, queue) => queue.insert (.filled height bcel connectionId size)
  | (some hashes, queue) =>
    setSpanHashes (queue.insert (.filled height bcel connectionId size)) height connectionId hashes

/-- `add_blocks` without blocks. -/
def scheduleBlocks (queue : BlockQueue) (height nblocks : Nat) (connectionId : ConnectionId)
    (time : Nat) : BlockQueue :=
  queue.insert (.scheduled height nblocks connectionId time)

def flushSpans (queue : BlockQueue) (connectionId : ConnectionId) (all : Bool) : BlockQueue :=
  queue.filter fun s => !(s.connectionId = connectionId && (all || s.blocks = []))

def removeSpans (queue : BlockQueue) (connectionId : ConnectionId) (startBlockHeight : Nat) :
    BlockQueue :=
  queue.filter fun s => !(s.connectionId = connectionId && s.startBlockHeight ≤ startBlockHeight)

def requested (queue : BlockQueue) (hash : Hash) : Bool := queue.elems.any fun s => hash ∈ s.hashes

/-- The first loop of `reserve_span`: the hashes behind those already requested,
and the height of the first of them. -/
def skipRequested (queue : BlockQueue) : Nat → List Hash → Nat × List Hash
  | spanStartHeight, [] => (spanStartHeight, [])
  | spanStartHeight, hash :: rest =>
    if queue.requested hash then queue.skipRequested (u64 (spanStartHeight + 1)) rest
    else (spanStartHeight, hash :: rest)

/-- `reserve_span`: the start height and the length of the span, and the queue. -/
def reserveSpan (queue : BlockQueue) (firstBlockHeight lastBlockHeight maxBlocks : Nat)
    (connectionId : ConnectionId) (blockHashes : List Hash) (time : Nat) :
    (Nat × Nat) × BlockQueue :=
  if lastBlockHeight < firstBlockHeight ∨ maxBlocks = 0 then ((0, 0), queue)
  else
    let (spanStartHeight, rest) :=
      queue.skipRequested (u64 (subU64 lastBlockHeight blockHashes.length + 1)) blockHashes
    let hashes := rest.take maxBlocks
    let spanLength := hashes.length
    if spanLength = 0 then ((0, 0), queue)
    else
      ((spanStartHeight, spanLength),
        (queue.scheduleBlocks spanStartHeight spanLength connectionId time).setSpanHashes
          spanStartHeight connectionId hashes)

/-! ### What the operations do to the spans -/

variable {queue : BlockQueue} {connectionId : ConnectionId} {hashes blockHashes : List Hash}
  {start nblocks time : Nat}

theorem mem_setSpanHashes {startHeight : Nat} {s : Span} (hs : s ∈ queue)
    (hstart : s.startBlockHeight = startHeight) (hconnection : s.connectionId = connectionId)
    {t : Span} :
    t ∈ queue.setSpanHashes startHeight connectionId hashes ↔
      t ∈ queue ∧ t ≠ s ∨ t = s.withHashes hashes := by
  have hfind : queue.elems.find? (fun s => s.startBlockHeight = startHeight &&
      s.connectionId = connectionId) = some s := by
    refine KeySet.find?_eq_some hs (by simp [hstart, hconnection]) fun t ht => ?_
    simp only [Bool.and_eq_true, decide_eq_true_eq] at ht
    exact ht.1.trans hstart.symm
  rw [setSpanHashes, hfind]
  simp only [KeySet.mem_insert, KeySet.mem_filter, decide_eq_true_eq]
  refine or_congr_right (and_iff_left fun c hc heq => ?_)
  -- no other span starts there
  exact hc.2 (KeySet.eq_of_key_eq hc.1 hs heq)

theorem setSpanHashes_of_none {startHeight : Nat}
    (h : ∀ s ∈ queue, s.startBlockHeight = startHeight → s.connectionId ≠ connectionId) :
    queue.setSpanHashes startHeight connectionId hashes = queue := by
  have hfind : queue.elems.find? (fun s => s.startBlockHeight = startHeight &&
      s.connectionId = connectionId) = none := by
    refine List.find?_eq_none.mpr fun s hs => ?_
    simpa using h s hs
  rw [setSpanHashes, hfind]

/-- Where no span starts, the new one is there afterwards, beside the others. -/
theorem mem_reserve_of_free (hfree : ∀ s ∈ queue, s.startBlockHeight ≠ start) {t : Span} :
    t ∈ (queue.scheduleBlocks start nblocks connectionId time).setSpanHashes start connectionId
        hashes ↔
      t ∈ queue ∨ t = (Span.scheduled start nblocks connectionId time).withHashes hashes := by
  have hnew : Span.scheduled start nblocks connectionId time ∈
      queue.scheduleBlocks start nblocks connectionId time :=
    KeySet.mem_insert.mpr (.inr ⟨rfl, hfree⟩)
  refine (mem_setSpanHashes hnew rfl rfl).trans ?_
  rw [scheduleBlocks, KeySet.mem_insert]
  refine or_congr_left ⟨?_, fun ht => ⟨.inl ht, ?_⟩⟩
  · rintro ⟨ht | ⟨ht, -⟩, hne⟩
    · exact ht
    · exact absurd ht hne
  · rintro rfl
    exact hfree _ ht rfl

theorem scheduleBlocks_of_mem {s : Span} (hs : s ∈ queue) (hstart : s.startBlockHeight = start) :
    queue.scheduleBlocks start nblocks connectionId time = queue := by
  refine KeySet.ext fun t => ?_
  rw [scheduleBlocks, KeySet.mem_insert]
  exact or_iff_left fun h => h.2 s hs hstart

/-- A span that starts there gets the hashes, or stays, if it belongs to another
connection. -/
theorem mem_reserve_of_taken {s : Span} (hs : s ∈ queue) (hstart : s.startBlockHeight = start) :
    let queue' := (queue.scheduleBlocks start nblocks connectionId time).setSpanHashes start
      connectionId hashes
    s.connectionId = connectionId ∧ s.withHashes hashes ∈ queue' ∨
      s.connectionId ≠ connectionId ∧ s ∈ queue' := by
  rw [scheduleBlocks_of_mem hs hstart]
  by_cases hconnection : s.connectionId = connectionId
  · exact .inl ⟨hconnection, (mem_setSpanHashes hs hstart hconnection).mpr (.inr rfl)⟩
  · refine .inr ⟨hconnection, ?_⟩
    rw [setSpanHashes_of_none]
    · exact hs
    · intro t ht htstart
      rwa [KeySet.eq_of_key_eq ht hs (htstart.trans hstart.symm)]

/-! ### The hashes to reserve -/

def requestedCount (queue : BlockQueue) (blockHashes : List Hash) : Nat :=
  (blockHashes.takeWhile queue.requested).length

/-- The hashes `reserve_span` asks for. -/
def wantedHashes (queue : BlockQueue) (maxBlocks : Nat) (blockHashes : List Hash) : List Hash :=
  (blockHashes.drop (queue.requestedCount blockHashes)).take maxBlocks

theorem skipRequested_eq (queue : BlockQueue) (blockHashes : List Hash) (hstart : start < 2 ^ 64) :
    queue.skipRequested start blockHashes =
      (u64 (start + queue.requestedCount blockHashes),
        blockHashes.drop (queue.requestedCount blockHashes)) := by
  induction blockHashes generalizing start with
  | nil => simp [skipRequested, requestedCount, u64_of_lt hstart]
  | cons hash rest ih =>
    rw [skipRequested]
    by_cases hrequested : queue.requested hash = true
    · have hcount : queue.requestedCount (hash :: rest) = queue.requestedCount rest + 1 := by
        rw [requestedCount, List.takeWhile_cons_of_pos hrequested, List.length_cons]
        rfl
      have hwrap : u64 (u64 (start + 1) + queue.requestedCount rest) =
          u64 (start + (queue.requestedCount rest + 1)) := by
        rw [u64, u64, u64, Nat.mod_add_mod, Nat.add_assoc, Nat.add_comm 1]
      rw [if_pos hrequested, ih (u64_lt _), hcount, hwrap, List.drop_succ_cons]
    · have hcount : queue.requestedCount (hash :: rest) = 0 := by
        rw [requestedCount, List.takeWhile_cons_of_neg (by simpa using hrequested),
          List.length_nil]
      rw [if_neg hrequested, hcount, Nat.add_zero, u64_of_lt hstart, List.drop_zero]

def firstHeight (lastBlockHeight : Nat) (blockHashes : List Hash) : Nat :=
  lastBlockHeight + 1 - blockHashes.length

def wantedStart (queue : BlockQueue) (lastBlockHeight : Nat) (blockHashes : List Hash) : Nat :=
  firstHeight lastBlockHeight blockHashes + queue.requestedCount blockHashes

/-- What a successful `reserve_span` returns and does. -/
theorem reserveSpan_inv {queue' : BlockQueue} {first last maxBlocks s n : Nat}
    (hlast : last < 2 ^ 64) (hlength : blockHashes.length ≤ last + 1) (hn : 0 < n)
    (h : queue.reserveSpan first last maxBlocks connectionId blockHashes time = ((s, n), queue')) :
    s = queue.wantedStart last blockHashes ∧
      n = (queue.wantedHashes maxBlocks blockHashes).length ∧
      queue' = (queue.scheduleBlocks s n connectionId time).setSpanHashes s connectionId
        (queue.wantedHashes maxBlocks blockHashes) := by
  unfold reserveSpan at h
  split at h
  · cases h
    exact absurd hn (Nat.lt_irrefl 0)
  have hbase : u64 (subU64 last blockHashes.length + 1) = u64 (firstHeight last blockHashes) := by
    simp only [u64, subU64, firstHeight]
    omega
  rw [hbase, skipRequested_eq queue blockHashes (u64_lt _)] at h
  dsimp only at h
  split at h
  · cases h
    exact absurd hn (Nat.lt_irrefl 0)
  rename_i hwanted
  have hcount : queue.requestedCount blockHashes < blockHashes.length := by
    by_contra hge
    exact hwanted (by simp [List.drop_eq_nil_of_le (Nat.le_of_not_lt hge)])
  have hstart : u64 (u64 (firstHeight last blockHashes) + queue.requestedCount blockHashes) =
      queue.wantedStart last blockHashes := by
    simp only [u64, wantedStart, firstHeight]
    omega
  rw [hstart] at h
  cases h
  exact ⟨rfl, rfl, rfl⟩

/-! ### Reservation -/

/-- The span is reserved: it is there, with the hashes of its heights, alone in
asking for them, and nothing else has changed. -/
structure Reserved (queue queue' : BlockQueue) (lastBlockHeight : Nat) (connectionId : ConnectionId)
    (blockHashes : List Hash) (time s n : Nat) : Prop where
  present : ∃ span ∈ queue', span.startBlockHeight = s ∧ span.nblocks = n ∧
    span.connectionId = connectionId ∧ span.time = some time ∧ span.blocks = [] ∧
    firstHeight lastBlockHeight blockHashes ≤ s ∧
    span.hashes = (blockHashes.drop (s - firstHeight lastBlockHeight blockHashes)).take n ∧
    span.hashes.length = n
  unique : ∀ t ∈ queue', ∀ u ∈ queue', t.startBlockHeight = s → u.startBlockHeight = s → t = u
  alone : ∀ t ∈ queue', t.startBlockHeight ≠ s → ∀ hash ∈
    (blockHashes.drop (s - firstHeight lastBlockHeight blockHashes)).take n, hash ∉ t.hashes
  others : ∀ t : Span, t.startBlockHeight ≠ s → (t ∈ queue' ↔ t ∈ queue)

/-- The queue has room for the span: where it is to start there is none yet, or
only one just like it, and no span that starts elsewhere has any of its hashes. -/
structure Room (queue : BlockQueue) (lastBlockHeight maxBlocks : Nat) (connectionId : ConnectionId)
    (blockHashes : List Hash) (time : Nat) : Prop where
  start : ∀ t ∈ queue, t.startBlockHeight = queue.wantedStart lastBlockHeight blockHashes →
    t.nblocks = (queue.wantedHashes maxBlocks blockHashes).length ∧
      t.connectionId = connectionId ∧ t.time = some time ∧ t.blocks = []
  hashes : ∀ t ∈ queue, t.startBlockHeight ≠ queue.wantedStart lastBlockHeight blockHashes →
    ∀ hash ∈ queue.wantedHashes maxBlocks blockHashes, hash ∉ t.hashes

theorem wantedHashes_eq (queue : BlockQueue) (last maxBlocks : Nat) (blockHashes : List Hash) :
    (blockHashes.drop (queue.wantedStart last blockHashes - firstHeight last blockHashes)).take
        (queue.wantedHashes maxBlocks blockHashes).length =
      queue.wantedHashes maxBlocks blockHashes := by
  rw [wantedStart, Nat.add_sub_cancel_left]
  exact (List.prefix_iff_eq_take.mp (List.take_prefix _ _)).symm

/-- With room, the spans afterwards are the others and the one reserved. -/
theorem Room.exists_own {last maxBlocks : Nat}
    (h : Room queue last maxBlocks connectionId blockHashes time) :
    let s := queue.wantedStart last blockHashes
    let hashes := queue.wantedHashes maxBlocks blockHashes
    ∃ own : Span, own.startBlockHeight = s ∧ own.nblocks = hashes.length ∧
      own.connectionId = connectionId ∧ own.time = some time ∧ own.blocks = [] ∧
      own.hashes = hashes ∧
      ∀ t, t ∈ (queue.scheduleBlocks s hashes.length connectionId time).setSpanHashes s
          connectionId hashes ↔
        t ∈ queue ∧ t.startBlockHeight ≠ s ∨ t = own := by
  intro s hashes
  by_cases htaken : ∃ t ∈ queue, t.startBlockHeight = s
  · -- the span that is there is like the new one, and gets its hashes
    obtain ⟨t, ht, hstart⟩ := htaken
    obtain ⟨hnblocks, hconnection, htime, hblocks⟩ := h.start t ht hstart
    refine ⟨t.withHashes hashes, hstart, hnblocks, hconnection, htime, hblocks, rfl, fun u => ?_⟩
    rw [scheduleBlocks_of_mem ht hstart, mem_setSpanHashes ht hstart hconnection]
    refine or_congr_left (and_congr_right fun hu => not_congr ⟨?_, fun hsame => ?_⟩)
    · rintro rfl
      exact hstart
    · exact KeySet.eq_of_key_eq hu ht (hsame.trans hstart.symm)
  · have hfree : ∀ t ∈ queue, t.startBlockHeight ≠ s := fun t ht hstart =>
      htaken ⟨t, ht, hstart⟩
    refine ⟨(Span.scheduled s hashes.length connectionId time).withHashes hashes, rfl, rfl, rfl, rfl,
      rfl, rfl, fun t => ?_⟩
    rw [mem_reserve_of_free hfree]
    exact or_congr_left (and_iff_left_of_imp (hfree t)).symm

/-- A span that `reserve_span` returns is reserved exactly if there was room for it. -/
theorem reserved_iff_room (queue queue' : BlockQueue) (first last maxBlocks : Nat)
    (connectionId : ConnectionId) (blockHashes : List Hash) (time s n : Nat)
    (hlast : last < 2 ^ 64) (hlength : blockHashes.length ≤ last + 1) (hn : 0 < n)
    (h : queue.reserveSpan first last maxBlocks connectionId blockHashes time =
      ((s, n), queue')) :
    Reserved queue queue' last connectionId blockHashes time s n ↔
      Room queue last maxBlocks connectionId blockHashes time := by
  obtain ⟨rfl, rfl, rfl⟩ := reserveSpan_inv hlast hlength hn h
  have hwanted := wantedHashes_eq queue last maxBlocks blockHashes
  constructor
  · intro hreserved
    obtain ⟨span, hspan, hstart, hnblocks, hconnection, htime, hblocks, -⟩ := hreserved.present
    refine ⟨fun t ht htstart => ?_, fun t ht htstart => ?_⟩
    · rcases mem_reserve_of_taken ht htstart with ⟨-, hmem⟩ | ⟨hother, hmem⟩
      · obtain rfl := KeySet.eq_of_key_eq hspan hmem (hstart.trans htstart.symm)
        exact ⟨hnblocks, hconnection, htime, hblocks⟩
      · obtain rfl := KeySet.eq_of_key_eq hspan hmem (hstart.trans htstart.symm)
        exact absurd hconnection hother
    · have halone := hreserved.alone t ((hreserved.others t htstart).mpr ht) htstart
      rwa [hwanted] at halone
  · intro hroom
    obtain ⟨own, hstart, hnblocks, hconnection, htime, hblocks, hhashes, hmem⟩ := hroom.exists_own
    refine ⟨⟨own, (hmem own).mpr (.inr rfl), hstart, hnblocks, hconnection, htime, hblocks,
      Nat.le_add_right _ _, hhashes.trans hwanted.symm, by rw [hhashes]⟩, ?_, ?_, ?_⟩
    · intro t ht u hu htstart hustart
      exact KeySet.eq_of_key_eq ht hu (htstart.trans hustart.symm)
    · intro t ht htstart
      rw [hwanted]
      rcases (hmem t).mp ht with ⟨ht, -⟩ | rfl
      · exact hroom.hashes t ht htstart
      · exact absurd hstart htstart
    · intro t htstart
      rw [hmem t]
      constructor
      · rintro (⟨ht, -⟩ | rfl)
        · exact ht
        · exact absurd hstart htstart
      · exact fun ht => .inl ⟨ht, htstart⟩

/-! ### Two peers on different branches -/

def connection (n : Nat) : ConnectionId := ⟨UInt8.ofNat n :: List.replicate 15 0, rfl⟩

def reservedOnce : BlockQueue :=
  (reserveSpan .empty 1 1 10 (connection 1) [numberedHash 7] 0).2

/-- A second peer on the same branch reserves the two blocks behind the one the first has. -/
theorem reserved_iff_room_behind :
    ∃ queue' : BlockQueue, reservedOnce.reserveSpan 1 3 10 (connection 2)
        [numberedHash 7, numberedHash 8, numberedHash 9] 0 = ((2, 2), queue') ∧
      Reserved reservedOnce queue' 3 (connection 2)
        [numberedHash 7, numberedHash 8, numberedHash 9] 0 2 2 := by
  have hspans : ∀ span ∈ reservedOnce.elems,
      span.startBlockHeight = 1 ∧ span.hashes = [numberedHash 7] := by decide +kernel
  have hwanted : ∀ hash ∈ [numberedHash 8, numberedHash 9], hash ∉ [numberedHash 7] :=
    List.forall_mem_cons.mpr
      ⟨by decide +kernel, List.forall_mem_singleton.mpr (by decide +kernel)⟩
  refine ⟨_, rfl, (reserved_iff_room reservedOnce _ 1 3 10 (connection 2)
    [numberedHash 7, numberedHash 8, numberedHash 9] 0 2 2
    (by decide) (by decide) (by decide) rfl).mpr ⟨fun t ht htstart => ?_, fun t ht _ => ?_⟩⟩
  · have hone := (hspans t ht).1
    rw [htstart] at hone
    exact absurd hone (by decide +kernel)
  · rw [(hspans t ht).2]
    exact hwanted

/-- A second peer, whose block at height 1 is block 8, is told that it has reserved
it, and the queue is as before. -/
theorem reserve_span_drops_second_branch :
    reservedOnce.reserveSpan 1 1 10 (connection 2) [numberedHash 8] 0 = ((1, 1), reservedOnce) ∧
      ¬ Reserved reservedOnce reservedOnce 1 (connection 2) [numberedHash 8] 0 1 1 := by
  refine ⟨rfl, fun hreserved => ?_⟩
  have hconnections : ∀ span ∈ reservedOnce.elems, span.connectionId ≠ connection 2 := by decide
  obtain ⟨span, hspan, -, -, hconnection, -⟩ := hreserved.present
  exact hconnections span hspan hconnection

end BlockQueue

end Lethean
