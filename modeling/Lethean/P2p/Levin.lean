import Lethean.Common.IntUtil
import Lethean.Lib.Framing

/-!
# Lethean.P2p.Levin

`handle_recv` of the levin protocol cuts the byte stream of a connection into packets: a
`bucket_head2`, and a body of the size that it announces. What is not a whole head or body
waits in `m_cache_in_buffer`. What the handlers do with a packet is left open, except that they
may have the connection closed. A chunk is refused if the buffer would exceed the limit for a
packet, which is checked before a head is taken off it.
-/

namespace Lethean.Levin

open Framing

/-- `sizeof(bucket_head2)`, which is packed. -/
def bucketHeadSize : Nat := 33

def levinSignature : Nat := 0x0101010101012101

/-- `m_signature`, from the bytes of a head. -/
def signature (head : List UInt8) : Nat := ofLittleEndian (head.take 8)

/-- `m_cb`, the size of the body. -/
def bodySize (head : List UInt8) : Nat := ofLittleEndian ((head.drop 8).take 8)

structure State where
  /-- `m_current_head` in `stream_state_body`, and nothing in `stream_state_head`. -/
  currentHead : Option (List UInt8)
  /-- The heads and bodies that the handlers were given. -/
  packets : List (List UInt8 × List UInt8)

def State.start : State := ⟨none, []⟩

section

variable (maxPacketSize : Nat) (goesOn : List (List UInt8 × List UInt8) → Bool)

/-- The loop of `handle_recv`. To return `false` closes the connection; `goesOn` is what the
handlers say to the last packet. -/
def machine : Machine UInt8 State where
  need st := st.currentHead.elim bucketHeadSize bodySize
  take st x :=
    match st.currentHead with
    | some head =>
      if goesOn (st.packets ++ [(head, x)]) then some ⟨none, st.packets ++ [(head, x)]⟩ else none
    | none =>
      if signature x ≠ levinSignature ∨ maxPacketSize < bodySize x then none
      else some ⟨some x, st.packets⟩
  refuses st x := st.currentHead.isNone && 8 ≤ x.length && signature x ≠ levinSignature
  weight st := st.currentHead.elim 0 fun _ => 1
  weight_lt := by
    rintro ⟨_ | head, packets⟩ s' x hneed htake
    · cases hneed
    · dsimp only at htake
      split at htake <;> cases htake
      exact Nat.zero_lt_one

def handleRecv : List UInt8 × State → List UInt8 → Option (List UInt8 × State) :=
  (machine maxPacketSize goesOn).receive maxPacketSize

/-- What `notify` puts before a body of `cb` bytes. -/
def bucketHead (command : UInt32) (cb : Nat) : List UInt8 :=
  littleEndian 8 levinSignature ++ (littleEndian 8 cb ++ (0 :: (littleEndian 4 command.toNat ++
    (littleEndian 4 0 ++ (littleEndian 4 1 ++ littleEndian 4 1)))))

/-- What `notify` sends, as long as the size of the body is an `int`. -/
def notify (command : UInt32) (body : List UInt8) : List UInt8 :=
  bucketHead command body.length ++ body

end

variable {maxPacketSize : Nat} {goesOn : List (List UInt8 × List UInt8) → Bool} {st : State}
  {waiting : List UInt8} {chunks : List (List UInt8)}

/-- A head that is not refused. -/
def HeadOk (maxPacketSize : Nat) (head : List UInt8) : Prop :=
  head.length = bucketHeadSize ∧ signature head = levinSignature ∧ bodySize head ≤ maxPacketSize

/-- The packets and the head in front are the bytes that were taken off, cut at the sizes that
the heads announce. -/
structure Framed (maxPacketSize : Nat) (taken : List UInt8) (st : State) : Prop where
  bytes : taken = st.packets.flatMap (fun p => p.1 ++ p.2) ++ st.currentHead.getD []
  head : ∀ head ∈ st.currentHead, HeadOk maxPacketSize head
  packets : ∀ p ∈ st.packets, HeadOk maxPacketSize p.1 ∧ p.2.length = bodySize p.1

theorem Framed.take {taken x : List UInt8} {st' : State} (hc : Framed maxPacketSize taken st)
    (hx : x.length = (machine maxPacketSize goesOn).need st)
    (h : (machine maxPacketSize goesOn).take st x = some st') :
    Framed maxPacketSize (taken ++ x) st' := by
  obtain ⟨_ | head, packets⟩ := st <;> simp only [machine] at h hx <;> split at h <;> cases h
  · rename_i hok
    rw [not_or, not_ne_iff, not_lt] at hok
    exact ⟨by simp [hc.bytes], by simpa [HeadOk] using ⟨hx, hok⟩, hc.packets⟩
  · refine ⟨by simp [hc.bytes], nofun, List.forall_mem_append.mpr ⟨hc.packets, ?_⟩⟩
    simpa using ⟨hc.head head rfl, hx⟩

theorem run_start : (machine maxPacketSize goesOn).run [] .start = some ([], .start) := by
  rw [Machine.run]
  rfl

/-- **The chunks do not matter.** Whatever chunks the bytes of a connection come in, if none is
refused, the packets and what waits behind them are these bytes, cut at the sizes in the heads,
and no whole packet waits. In other chunks, the same bytes are the same packets. -/
theorem packets_independent_of_chunks
    (h : chunks.foldlM (handleRecv maxPacketSize goesOn) ([], .start) = some (waiting, st)) :
    (∃ taken, chunks.flatten = taken ++ waiting ∧ Framed maxPacketSize taken st) ∧
      waiting.length < st.currentHead.elim bucketHeadSize bodySize ∧
      ∀ (chunks' : List (List UInt8)) c, chunks'.flatten = chunks.flatten →
        chunks'.foldlM (handleRecv maxPacketSize goesOn) ([], .start) = some c →
          c = (waiting, st) := by
  have hall := Machine.run_flatten run_start h
  have hstart : Framed maxPacketSize [] .start := ⟨rfl, nofun, nofun⟩
  obtain ⟨taken, hbytes, hshort, hframed⟩ := Machine.run_induction Framed.take hstart hall
  refine ⟨⟨taken, hbytes, hframed⟩, hshort, fun chunks' c hflatten h' => ?_⟩
  have hall' := Machine.run_flatten run_start h'
  rw [hflatten, hall] at hall'
  exact (Option.some.inj hall').symm

theorem headOk_bucketHead {command : UInt32} {cb : Nat} (hcb : cb ≤ maxPacketSize)
    (hmax : maxPacketSize < 2 ^ 31) :
    HeadOk maxPacketSize (bucketHead command cb) ∧ bodySize (bucketHead command cb) = cb := by
  have hsize : bodySize (bucketHead command cb) = cb := by
    rw [bodySize, bucketHead, List.drop_left' (length_littleEndian ..),
      List.take_left' (length_littleEndian ..), ofLittleEndian_littleEndian (by omega)]
  refine ⟨⟨by simp [bucketHead, length_littleEndian, bucketHeadSize], ?_, hsize.trans_le hcb⟩, hsize⟩
  rw [signature, bucketHead, List.take_left' (length_littleEndian ..)]
  decide

/-- A run takes the packet in front. -/
theorem run_append_packet {head body : List UInt8} (rest : List UInt8)
    (packets : List (List UInt8 × List UInt8)) (hok : HeadOk maxPacketSize head)
    (hbody : body.length = bodySize head) :
    (machine maxPacketSize goesOn).run (head ++ (body ++ rest)) ⟨none, packets⟩ =
      ((machine maxPacketSize goesOn).take ⟨some head, packets⟩ body).bind
        ((machine maxPacketSize goesOn).run rest) := by
  obtain ⟨hlength, hsig, hmax⟩ := hok
  have hhead : (machine maxPacketSize goesOn).take ⟨none, packets⟩ head =
      some ⟨some head, packets⟩ := by simp [machine, hsig, hmax]
  rw [Machine.run_append_of_take hlength, hhead, Option.bind_some,
    Machine.run_append_of_take hbody]

/-- A run hands out the packet in front. -/
theorem run_packet {head body rest : List UInt8} {packets : List (List UInt8 × List UInt8)}
    (hok : HeadOk maxPacketSize head) (hbody : body.length = bodySize head)
    (h : (machine maxPacketSize goesOn).run (head ++ (body ++ rest)) ⟨none, packets⟩ =
      some (waiting, st)) :
    (machine maxPacketSize goesOn).run rest ⟨none, packets ++ [(head, body)]⟩ =
      some (waiting, st) := by
  rw [run_append_packet rest packets hok hbody] at h
  obtain ⟨st', htake, h⟩ := Option.bind_eq_some_iff.mp h
  simp only [machine] at htake
  split at htake <;> cases htake
  exact h

/-- **Messages are delivered once, and in order.** What a peer sends with `notify`, one message
after the other, is what the handlers are given, whatever chunks it comes in: if none is refused,
nothing is lost, added or left over. -/
theorem notify_delivered {msgs : List (UInt32 × List UInt8)} (hmax : maxPacketSize < 2 ^ 31)
    (hsize : ∀ m ∈ msgs, m.2.length ≤ maxPacketSize)
    (hsent : chunks.flatten = msgs.flatMap fun m => notify m.1 m.2)
    (h : chunks.foldlM (handleRecv maxPacketSize goesOn) ([], .start) = some (waiting, st)) :
    waiting = [] ∧ st = ⟨none, msgs.map fun m => (bucketHead m.1 m.2.length, m.2)⟩ := by
  have hall := Machine.run_flatten run_start h
  rw [hsent, List.nil_append] at hall
  clear h hsent
  suffices hfrom : ∀ packets, (machine maxPacketSize goesOn).run
      (msgs.flatMap fun m => notify m.1 m.2) ⟨none, packets⟩ = some (waiting, st) →
      waiting = [] ∧ st = ⟨none, packets ++ msgs.map fun m => (bucketHead m.1 m.2.length, m.2)⟩ from
    hfrom [] hall
  clear hall
  induction msgs with
  | nil =>
    intro packets h
    rw [List.flatMap_nil, Machine.run] at h
    cases h
    exact ⟨rfl, by simp⟩
  | cons m msgs ih =>
    intro packets h
    rw [List.flatMap_cons, notify, List.append_assoc] at h
    rw [List.forall_mem_cons] at hsize
    obtain ⟨hok, hcb⟩ := headOk_bucketHead hsize.1 hmax
    simpa using ih hsize.2 _ (run_packet hok hcb.symm h)

def sampleMessages : List (UInt32 × List UInt8) := [(7, [5]), (8, [6, 1])]

/-- Two messages in three chunks: the second chunk ends inside the head of the second message. -/
def sampleChunks : List (List UInt8) :=
  [(notify 7 [5]).take 5, (notify 7 [5]).drop 5 ++ (notify 8 [6, 1]).take 11,
    (notify 8 [6, 1]).drop 11]

theorem run_notify (command : UInt32) (body rest : List UInt8)
    (packets : List (List UInt8 × List UInt8)) (hsize : body.length ≤ 100) :
    (machine 100 fun _ => true).run (notify command body ++ rest) ⟨none, packets⟩ =
      (machine 100 fun _ => true).run rest
        ⟨none, packets ++ [(bucketHead command body.length, body)]⟩ := by
  obtain ⟨hok, hcb⟩ : HeadOk 100 (bucketHead command body.length) ∧ _ :=
    headOk_bucketHead hsize (by decide)
  rw [notify, List.append_assoc, run_append_packet rest packets hok hcb.symm]
  rfl

theorem handleRecv_sampleChunks : sampleChunks.foldlM (handleRecv 100 fun _ => true) ([], .start) =
    some ([], ⟨none, sampleMessages.map fun m => (bucketHead m.1 m.2.length, m.2)⟩) := by
  have hfirst : handleRecv 100 (fun _ => true) ([], .start) ((notify 7 [5]).take 5) =
      some ((notify 7 [5]).take 5, .start) := by
    rw [handleRecv, Machine.receive, if_neg (by decide), Machine.run]
    rfl
  have hsecond : handleRecv 100 (fun _ => true) ((notify 7 [5]).take 5, .start)
      ((notify 7 [5]).drop 5 ++ (notify 8 [6, 1]).take 11) =
      some ((notify 8 [6, 1]).take 11, ⟨none, [(bucketHead 7 1, [5])]⟩) := by
    rw [handleRecv, Machine.receive, if_neg (by decide), ← List.append_assoc,
      List.take_append_drop, State.start, run_notify 7 [5] _ [] (by decide), Machine.run]
    rfl
  have hthird : handleRecv 100 (fun _ => true)
      ((notify 8 [6, 1]).take 11, ⟨none, [(bucketHead 7 1, [5])]⟩) ((notify 8 [6, 1]).drop 11) =
      some ([], ⟨none, [(bucketHead 7 1, [5]), (bucketHead 8 2, [6, 1])]⟩) := by
    rw [handleRecv, Machine.receive, if_neg (by decide), List.take_append_drop,
      ← List.append_nil (notify 8 [6, 1]), run_notify 8 [6, 1] [] _ (by decide), Machine.run]
    rfl
  simp [sampleChunks, sampleMessages, hfirst, hsecond, hthird]

theorem packets_independent_of_chunks_sample :
    ∃ taken, sampleChunks.flatten = taken ++ [] ∧ Framed 100 taken
      ⟨none, sampleMessages.map fun m => (bucketHead m.1 m.2.length, m.2)⟩ :=
  (packets_independent_of_chunks handleRecv_sampleChunks).1

theorem notify_delivered_sample :
    sampleChunks.flatten = (sampleMessages.flatMap fun m => notify m.1 m.2) ∧
      ∃ waiting st, sampleChunks.foldlM (handleRecv 100 fun _ => true) ([], .start) =
          some (waiting, st) ∧
        waiting = [] ∧ st = ⟨none, sampleMessages.map fun m => (bucketHead m.1 m.2.length, m.2)⟩ :=
  ⟨by decide, _, _, handleRecv_sampleChunks,
    notify_delivered (by decide) (by decide) (by decide) handleRecv_sampleChunks⟩

end Lethean.Levin
