import Lethean.CryptonoteBasic.BlockSerialization
import Lethean.CryptonoteProtocol.BlockQueue

/-!
# Lethean.CryptonoteProtocol.ResponseObjects

`handle_response_get_objects`: a peer answers a request for blocks. Every block
must be one of those that were requested, and all requested ones must be there;
then the blocks go into the queue as one span, whose start is the height that the
first block claims.

Three things go wrong. A response without blocks passes when nothing was
requested. The start height is taken from the first block whose claimed height
is not 2⁶⁴ - 1, as that number stands for "not set yet". And all blocks are
parsed into the same variable, so what a block leaves out keeps the value of the
block before it, and its id may be another one than when it is parsed alone.
-/

namespace Lethean

open Codec BinaryArchive Crypto

/-! ### The handler -/

/-- The part of `cryptonote_connection_context` that is read here. -/
structure ConnectionContext where
  connectionId : ConnectionId
  requestedObjects : Finset Hash
  lastResponseHeight : Nat

/-- `NOTIFY_RESPONSE_GET_OBJECTS::request`. Its single transactions and missed ids
only count for the download rate. -/
structure ResponseGetObjects where
  blocks : List BlockCompleteEntry
  currentBlockchainHeight : Nat

/-- `std::numeric_limits<uint64_t>::max()`, the start height that is not set yet. -/
def noStartHeight : Nat := 2 ^ 64 - 1

structure BlocksSeen where
  startHeight : Nat
  b : Block
  requestedObjects : Finset Hash

def blocksSize (blocks : List BlockCompleteEntry) : Nat :=
  (blocks.map fun entry => entry.block.length + (entry.txs.map List.length).sum).sum

section Handler

variable (c : Crypto)

/-- The body of the loop, or `none` where the connection is dropped. -/
def checkEntry (seen : BlocksSeen) (entry : BlockCompleteEntry) : Option BlocksSeen :=
  match parseAndValidateBlockFromBlob seen.b entry.block with
  | none => none
  | some b =>
    match b.minerTx.vin with
    | [.gen height] =>
      let startHeight := if seen.startHeight = noStartHeight then height else seen.startHeight
      if c.getBlockHash b ∉ seen.requestedObjects then none
      else if b.txHashes.length ≠ entry.txs.length then none
      else some ⟨startHeight, b, seen.requestedObjects.erase (c.getBlockHash b)⟩
    | _ => none

inductive LoopEnd
  | stopped
  | wrong
  | finished (seen : BlocksSeen)

/-- The loop. `m_stopping` is looked at before each block. -/
def checkEntries (stopping : Nat → Bool) : Nat → BlocksSeen → List BlockCompleteEntry → LoopEnd
  | _, seen, [] => .finished seen
  | i, seen, entry :: entries =>
    if stopping i then .stopped
    else
      match checkEntry c seen entry with
      | none => .wrong
      | some seen => checkEntries stopping (i + 1) seen entries

/-- What the handler does with the queue: nothing, the spans of a dropped connection
go, those of old blocks go, or `add_blocks` is called. -/
inductive ObjectsOutcome
  | stopped
  | dropped (queue : BlockQueue)
  | ignored (queue : BlockQueue)
  | added (startHeight : Nat) (queue : BlockQueue)

/-- `handle_response_get_objects`, up to `try_add_next_blocks`. -/
def handleResponseGetObjects (haveBlock : Hash → Bool) (stopping : Nat → Bool)
    (context : ConnectionContext) (queue : BlockQueue) (arg : ResponseGetObjects) :
    ObjectsOutcome :=
  let drop := ObjectsOutcome.dropped (queue.flushSpans context.connectionId false)
  if arg.currentBlockchainHeight < context.lastResponseHeight then drop
  else
    match checkEntries c stopping 0 ⟨noStartHeight, .null, context.requestedObjects⟩ arg.blocks with
    | .stopped => .stopped
    | .wrong => drop
    | .finished seen =>
      if seen.requestedObjects ≠ ∅ then drop
      else if haveBlock (c.getBlockHash seen.b) then
        .ignored (queue.removeSpans context.connectionId seen.startHeight)
      else
        .added seen.startHeight
          (queue.addBlocks seen.startHeight arg.blocks context.connectionId
            (blocksSize arg.blocks))

end Handler

/-! ### Parsing into a block that was used before -/

theorem agree_rctSignatures (rv rv' : RctSig) (first : TxIn) (inputs outputs : Nat) :
    Agree (fun _ _ => True) (serializeRctSignatures rv first inputs outputs)
      (serializeRctSignatures rv' first inputs outputs) := by
  have hbase : Agree (fun v v' : RctSig => v.type = v'.type)
      (serializeRctsigBase rv inputs outputs) (serializeRctsigBase rv' inputs outputs) := by
    apply Agree.bind_same
    intro type
    dsimp only
    refine Agree.ite (Agree.pure rfl) ?_
    apply Agree.bind_same
    intro _
    apply Agree.bind_same
    intro txnFee
    -- the pseudo outputs of the full type are those of the target
    have hpseudo : Agree (fun _ _ => True)
        (serializePseudoOuts { rv with type := type.toNat } inputs)
        (serializePseudoOuts { rv' with type := type.toNat } inputs) :=
      Agree.ite ((Agree.refl _).mono fun _ _ _ => trivial) (Agree.pure trivial)
    apply hpseudo.bind
    intro _ _ _
    exact Agree.bind_same fun _ => Agree.bind_same fun _ => Agree.pure rfl
  apply hbase.bind
  intro v v' htype
  have hdata : v.carriesData = v'.carriesData := by rw [RctSig.carriesData, RctSig.carriesData, htype]
  have hcolumns : v.mgSs2Elements inputs = v'.mgSs2Elements inputs := by
    rw [RctSig.mgSs2Elements, RctSig.mgSs2Elements, htype]
  have helements : v.mgElements inputs = v'.mgElements inputs := by
    rw [RctSig.mgElements, RctSig.mgElements, htype]
  unfold serializeRctsigPrunable
  rw [htype, hdata, hcolumns, helements]
  refine Agree.ite (Agree.pure trivial) ?_
  exact Agree.bind_same fun _ => Agree.bind_same fun _ => Agree.bind_same fun _ =>
    Agree.pure trivial

theorem agree_transaction {tx0 tx0' : Transaction} (hflag : tx0.isMmTx = tx0'.isMmTx) :
    Agree (fun tx tx' : Transaction => tx.toTransactionPrefix = tx'.toTransactionPrefix)
      (serializeTransaction tx0) (serializeTransaction tx0') := by
  unfold serializeTransaction
  rw [hflag]
  apply Agree.bind_same
  intro txPrefix
  apply Agree.ite
  · exact Agree.bind_same fun _ => Agree.pure rfl
  · cases txPrefix.vin with
    | nil => exact Agree.pure rfl
    | cons first vin =>
      exact (agree_rctSignatures _ _ _ _ _).bind fun _ _ _ => Agree.pure rfl

/-- The same block, as far as the handler looks at it apart from its id. -/
def SameBody (b b' : Block) : Prop :=
  b.minerTx.vin = b'.minerTx.vin ∧ b.txHashes = b'.txHashes

theorem agree_parent {b0 b0' : Block} {header header' : BlockHeader}
    (hversion : header.majorVersion = header'.majorVersion) :
    Agree (fun _ _ => True) (serializeParent b0 header) (serializeParent b0' header') := by
  have hmined : isMergeMined header = isMergeMined header' := by
    rw [isMergeMined, isMergeMined, hversion]
  unfold serializeParent
  rw [hmined]
  apply Agree.ite
  · have hhead : Agree (fun head head' : Nat × BytecoinBlock =>
        head.2.minerTx.extra = head'.2.minerTx.extra)
        (serializeParentHead b0.parentBlock) (serializeParentHead b0'.parentBlock) := by
      iterate 8
        apply Agree.bind_same
        intro _
      -- both targets have the flag of a parent's miner transaction
      have hflag : b0.parentBlock.minerTx.asMmTx.isMmTx =
          b0'.parentBlock.minerTx.asMmTx.isMmTx := rfl
      apply (agree_transaction hflag).bind
      intro tx tx' hprefix
      exact Agree.pure (congrArg TransactionPrefix.extra hprefix)
    apply hhead.bind
    intro head head' hextra
    unfold serializeBlockchainBranch
    rw [hextra]
    exact Agree.bind_same fun _ => Agree.pure trivial
  · exact Agree.pure trivial

theorem agree_block {b0 b0' : Block} (hflag : b0.minerTx.isMmTx = b0'.minerTx.isMmTx) :
    Agree SameBody (serializeBlock b0) (serializeBlock b0') := by
  have hheader : Agree (fun h h' : BlockHeader => h.majorVersion = h'.majorVersion)
      (serializeBlockHeader b0.toBlockHeader) (serializeBlockHeader b0'.toBlockHeader) := by
    apply Agree.bind_same
    intro majorVersion
    apply Agree.bind_same
    intro _
    apply Agree.bind_same
    intro minorVersion
    cases hasOwnNonce majorVersion with
    | true =>
      exact Agree.bind_same fun _ => Agree.bind_same fun _ => Agree.bind_same fun _ =>
        Agree.pure rfl
    | false =>
      exact (Agree.pure (R := fun _ _ => True) trivial).bind fun _ _ _ =>
        Agree.bind_same fun _ => (Agree.pure (R := fun _ _ => True) trivial).bind fun _ _ _ =>
          Agree.pure rfl
  apply hheader.bind
  intro header header' hversion
  apply (agree_parent hversion).bind
  intro _ _ _
  apply (agree_transaction hflag).bind
  intro tx tx' hprefix
  exact Agree.bind_same fun txHashes =>
    Agree.pure ⟨congrArg TransactionPrefix.vin hprefix, rfl⟩

theorem parse_of_parse {b0 b : Block} (b0' : Block)
    (hflag : b0.minerTx.isMmTx = b0'.minerTx.isMmTx) {blob : List UInt8}
    (h : parseAndValidateBlockFromBlob b0 blob = some b) :
    ∃ b', parseAndValidateBlockFromBlob b0' blob = some b' ∧ SameBody b b' := by
  have hread : serializeBlock b0 false blob = some (b, []) := serializeBlock_of_parse h
  obtain ⟨b', hread', hsame⟩ := (agree_block hflag).some_of_some hread
  refine ⟨b', ?_, hsame⟩
  rw [parseAndValidateBlockFromBlob, hread']

theorem isMmTx_of_parse {b0 b : Block} {blob : List UInt8}
    (h : parseAndValidateBlockFromBlob b0 blob = some b) :
    b.minerTx.isMmTx = b0.minerTx.isMmTx := by
  obtain ⟨header, rest, -, hread⟩ := Reader.bind_some (serializeBlock_of_parse h)
  obtain ⟨parent, rest, -, hread⟩ := Reader.bind_some hread
  obtain ⟨minerTx, rest, htx, hread⟩ := Reader.bind_some hread
  obtain ⟨txHashes, rest, -, hread⟩ := Reader.bind_some hread
  cases hread
  exact isMmTx_of_transaction htx

/-! ### The loop -/

/-- The values the handler's block variable takes, one after the other. -/
def parseInTurn : Block → List BlockCompleteEntry → List Block
  | _, [] => []
  | b, entry :: entries =>
    match parseAndValidateBlockFromBlob b entry.block with
    | none => []
    | some b' => b' :: parseInTurn b' entries

section Loop

variable {c : Crypto} {stopping : Nat → Bool} {i : Nat} {seen seen' : BlocksSeen}
  {entry : BlockCompleteEntry} {entries : List BlockCompleteEntry}

/-- What an iteration that goes on has found, and what it leaves. -/
theorem checkEntry_inv (h : checkEntry c seen entry = some seen') :
    ∃ b height, parseAndValidateBlockFromBlob seen.b entry.block = some b ∧
      b.minerTx.vin = [.gen height] ∧ c.getBlockHash b ∈ seen.requestedObjects ∧
      b.txHashes.length = entry.txs.length ∧
      seen' = ⟨if seen.startHeight = noStartHeight then height else seen.startHeight, b,
        seen.requestedObjects.erase (c.getBlockHash b)⟩ := by
  unfold checkEntry at h
  split at h
  · cases h
  rename_i b hparse
  split at h
  · rename_i height hvin
    by_cases hid : c.getBlockHash b ∈ seen.requestedObjects
    · rw [if_neg (not_not.mpr hid)] at h
      by_cases htxs : b.txHashes.length = entry.txs.length
      · rw [if_neg (not_not.mpr htxs)] at h
        exact ⟨b, height, hparse, hvin, hid, htxs, (Option.some.inj h).symm⟩
      · rw [if_pos htxs] at h
        cases h
    · rw [if_pos hid] at h
      cases h
  · cases h

theorem checkEntries_cons_inv
    (h : checkEntries c stopping i seen (entry :: entries) = .finished seen') :
    ∃ mid, checkEntry c seen entry = some mid ∧
      checkEntries c stopping (i + 1) mid entries = .finished seen' := by
  rw [checkEntries] at h
  split at h
  · cases h
  split at h
  · cases h
  rename_i mid hentry
  exact ⟨mid, hentry, h⟩

theorem startHeight_of_checkEntries (hset : seen.startHeight ≠ noStartHeight)
    (h : checkEntries c stopping i seen entries = .finished seen') :
    seen'.startHeight = seen.startHeight := by
  induction entries generalizing i seen with
  | nil =>
    cases h
    rfl
  | cons entry entries ih =>
    obtain ⟨mid, hentry, hrest⟩ := checkEntries_cons_inv h
    obtain ⟨b, height, -, -, -, -, hmid⟩ := checkEntry_inv hentry
    have hstart : mid.startHeight = seen.startHeight := by
      rw [hmid]
      exact if_neg hset
    rw [ih (hstart ▸ hset) hrest, hstart]

/-- The requested ids are those still missing and those of the blocks. -/
theorem mem_requested_of_checkEntries
    (h : checkEntries c stopping i seen entries = .finished seen') (hash : Hash) :
    hash ∈ seen.requestedObjects ↔ hash ∈ seen'.requestedObjects ∨
      ∃ b ∈ parseInTurn seen.b entries, c.getBlockHash b = hash := by
  induction entries generalizing i seen with
  | nil =>
    cases h
    simp [parseInTurn]
  | cons entry entries ih =>
    obtain ⟨mid, hentry, hrest⟩ := checkEntries_cons_inv h
    obtain ⟨b, height, hparse, -, hid, -, hmid⟩ := checkEntry_inv hentry
    have hmidBlock : mid.b = b := by rw [hmid]
    have hmidRequested : mid.requestedObjects =
        seen.requestedObjects.erase (c.getBlockHash b) := by rw [hmid]
    have htail := ih hrest
    rw [hmidBlock, hmidRequested, Finset.mem_erase] at htail
    rw [parseInTurn, hparse]
    simp only [List.mem_cons, exists_eq_or_imp]
    -- the id of this block is taken out before the others are looked up
    by_cases hown : c.getBlockHash b = hash
    · simp [hown, hown ▸ hid]
    · simp only [hown, false_or, ← htail, ne_eq, Ne.symm hown, not_false_eq_true, true_and]

/-- The blocks parse on their own too, and have as many hashes as there are
transactions. -/
theorem txs_of_checkEntries (hflag : seen.b.minerTx.isMmTx = false)
    (h : checkEntries c stopping i seen entries = .finished seen') :
    ∀ entry ∈ entries, ∃ b, parseAndValidateBlockFromBlob .null entry.block = some b ∧
      b.txHashes.length = entry.txs.length := by
  induction entries generalizing i seen with
  | nil => exact fun _ hentry => absurd hentry List.not_mem_nil
  | cons first entries ih =>
    obtain ⟨mid, hentry, hrest⟩ := checkEntries_cons_inv h
    obtain ⟨b, height, hparse, -, -, htxs, hmid⟩ := checkEntry_inv hentry
    intro entry hmem
    rcases List.mem_cons.mp hmem with heq | htail
    · obtain ⟨b', hparse', hsame⟩ := parse_of_parse .null hflag hparse
      rw [heq]
      exact ⟨b', hparse', by rw [← hsame.2, htxs]⟩
    · have hmidFlag : mid.b.minerTx.isMmTx = false := by
        rw [hmid]
        exact (isMmTx_of_parse hparse).trans hflag
      exact ih hmidFlag hrest entry htail

end Loop

/-! ### Spans that enter the queue -/

/-- The span is one that was asked for: it has blocks, their ids are the requested
ones, each has its transactions, it starts where its first block claims to be, and
its last height does not wrap around. -/
structure Solicited (c : Crypto) (requested : Finset Hash) (startHeight : Nat)
    (blocks : List BlockCompleteEntry) : Prop where
  nonempty : blocks ≠ []
  ids : ∀ hash, hash ∈ requested ↔ ∃ entry ∈ blocks, ∃ b,
    parseAndValidateBlockFromBlob .null entry.block = some b ∧ c.getBlockHash b = hash
  txs : ∀ entry ∈ blocks, ∃ b, parseAndValidateBlockFromBlob .null entry.block = some b ∧
    b.txHashes.length = entry.txs.length
  start : ∃ entry ∈ blocks.head?, ∃ b,
    parseAndValidateBlockFromBlob .null entry.block = some b ∧ b.minerTx.vin = [.gen startHeight]
  noWrap : startHeight + blocks.length - 1 < 2 ^ 64

/-- The blocks of a response have the same ids each on its own and when they are
parsed one after the other into the same variable. -/
def SameIds (c : Crypto) (blocks : List BlockCompleteEntry) : Prop :=
  ∀ hash, (∃ entry ∈ blocks, ∃ b,
      parseAndValidateBlockFromBlob .null entry.block = some b ∧ c.getBlockHash b = hash) ↔
    ∃ b ∈ parseInTurn .null blocks, c.getBlockHash b = hash

/-- A response whose span can be trusted: it has blocks, the height the first one
claims leaves room for all of them below 2⁶⁴, and no id depends on the blocks
before. -/
structure Wellbehaved (c : Crypto) (blocks : List BlockCompleteEntry) : Prop where
  nonempty : blocks ≠ []
  height : ∀ entry ∈ blocks.head?, ∀ b,
    parseAndValidateBlockFromBlob .null entry.block = some b →
      ∀ height, b.minerTx.vin = [.gen height] → height + blocks.length ≤ 2 ^ 64
  sameIds : SameIds c blocks

/-- The run of the loop behind a call of `add_blocks`. -/
theorem handleResponseGetObjects_added {c : Crypto} {haveBlock : Hash → Bool}
    {stopping : Nat → Bool} {context : ConnectionContext} {queue queue' : BlockQueue}
    {arg : ResponseGetObjects} {startHeight : Nat}
    (h : handleResponseGetObjects c haveBlock stopping context queue arg =
      .added startHeight queue') :
    ∃ seen, checkEntries c stopping 0 ⟨noStartHeight, .null, context.requestedObjects⟩ arg.blocks =
        .finished seen ∧
      seen.requestedObjects = ∅ ∧ seen.startHeight = startHeight := by
  unfold handleResponseGetObjects at h
  dsimp only at h
  split at h
  · cases h
  cases hloop : checkEntries c stopping 0 ⟨noStartHeight, .null, context.requestedObjects⟩
      arg.blocks with
  | stopped =>
    rw [hloop] at h
    cases h
  | wrong =>
    rw [hloop] at h
    cases h
  | finished seen =>
    rw [hloop] at h
    dsimp only at h
    split at h
    · cases h
    rename_i hempty
    split at h
    · cases h
    · cases h
      exact ⟨seen, rfl, not_not.mp hempty, rfl⟩

/-- The start height is the claim of the first block, unless that is the number that
stands for "not set" and another block follows. -/
theorem startHeight_of_first {c : Crypto} {stopping : Nat → Bool} {i : Nat}
    {requested : Finset Hash} {seen : BlocksSeen} {entry : BlockCompleteEntry}
    {entries : List BlockCompleteEntry}
    (h : checkEntries c stopping i ⟨noStartHeight, .null, requested⟩ (entry :: entries) =
      .finished seen) :
    ∃ b height, parseAndValidateBlockFromBlob .null entry.block = some b ∧
      b.minerTx.vin = [.gen height] ∧
      (height ≠ noStartHeight ∨ entries = [] → seen.startHeight = height) := by
  obtain ⟨mid, hentry, hrest⟩ := checkEntries_cons_inv h
  obtain ⟨b, height, hparse, hvin, -, -, hmid⟩ := checkEntry_inv hentry
  have hstart : mid.startHeight = height := by
    rw [hmid]
    simp
  refine ⟨b, height, hparse, hvin, fun hcase => ?_⟩
  rcases hcase with hne | hnil
  · rw [startHeight_of_checkEntries (hstart ▸ hne) hrest, hstart]
  · rw [hnil] at hrest
    cases hrest
    exact hstart

/-- **Solicited spans.** When the handler calls `add_blocks`, the span is one that was
asked for exactly if the response is well behaved. -/
theorem added_span_solicited_iff (c : Crypto) (haveBlock : Hash → Bool) (stopping : Nat → Bool)
    (context : ConnectionContext) (queue queue' : BlockQueue) (arg : ResponseGetObjects)
    (startHeight : Nat)
    (h : handleResponseGetObjects c haveBlock stopping context queue arg =
      .added startHeight queue') :
    Solicited c context.requestedObjects startHeight arg.blocks ↔ Wellbehaved c arg.blocks := by
  obtain ⟨seen, hloop, hnone, hstart⟩ := handleResponseGetObjects_added h
  -- nothing is missing at the end, so the requested ids are those seen on the way
  have hrequested : ∀ hash, hash ∈ context.requestedObjects ↔
      ∃ b ∈ parseInTurn .null arg.blocks, c.getBlockHash b = hash := by
    intro hash
    have hmem := mem_requested_of_checkEntries hloop hash
    rw [hnone] at hmem
    simpa using hmem
  constructor
  · intro hsolicited
    obtain ⟨entry, hentry, b, hparse, hvin⟩ := hsolicited.start
    refine ⟨hsolicited.nonempty, ?_, fun hash => ?_⟩
    · intro entry' hentry' b' hparse' height hvin'
      obtain rfl := Option.mem_unique hentry hentry'
      rw [hparse] at hparse'
      cases hparse'
      rw [hvin] at hvin'
      cases hvin'
      have hpos : 0 < arg.blocks.length := List.length_pos_iff.mpr hsolicited.nonempty
      have hwrap := hsolicited.noWrap
      omega
    · rw [← hsolicited.ids hash, hrequested hash]
  · intro hwell
    cases hblocks : arg.blocks with
    | nil => exact absurd hblocks hwell.nonempty
    | cons entry entries =>
      rw [hblocks] at hloop
      obtain ⟨b, height, hparse, hvin, hclaim⟩ := startHeight_of_first hloop
      have hbound : height + (entry :: entries).length ≤ 2 ^ 64 := by
        rw [← hblocks]
        exact hwell.height entry (by simp [hblocks]) b hparse height hvin
      rw [List.length_cons] at hbound
      -- the reserved number is only claimed where no other block follows
      have hheight : startHeight = height := by
        rw [← hstart]
        apply hclaim
        by_cases hreserved : height = noStartHeight
        · right
          apply List.eq_nil_of_length_eq_zero
          unfold noStartHeight at hreserved
          omega
        · exact .inl hreserved
      refine ⟨by simp, fun hash => ?_, txs_of_checkEntries rfl hloop, ?_, ?_⟩
      · rw [← hblocks, hrequested hash]
        exact (hwell.sameIds hash).symm
      · exact ⟨entry, rfl, b, hparse, by rw [hvin, hheight]⟩
      · rw [List.length_cons, hheight]
        omega

/-! ### Responses -/

def lengthCrypto : Crypto :=
  { cnFastHash := fun data => numberedHash (data.length + 1)
    cnSlowHash := fun data _ _ => numberedHash (data.length + 1)
    chukwaSlowHashV2 := fun data => numberedHash (data.length + 1)
    genesisBlockHash := numberedHash 1 }

def requesting (requestedObjects : Finset Hash) : ConnectionContext :=
  ⟨nullBlob 16, requestedObjects, 0⟩

def claimingBlock (height : Nat) : Block :=
  { Block.ofHeader ⟨1, 0, 0, nullHash, 0⟩ with
    minerTx := { Transaction.null with vin := [.gen height], signatures := [[]] } }

def claimingMergeMined (height : Nat) (parentMinerTx : Transaction) : Block :=
  { Block.ofHeader ⟨2, 0, 0, nullHash, 0⟩ with
    parentBlock :=
      { BytecoinBlock.null with numberOfTransactions := 1, minerTx := parentMinerTx.asMmTx }
    minerTx := { Transaction.null with vin := [.gen height], signatures := [[]] } }

def tagExtra : List UInt8 := 3 :: 33 :: List.replicate 33 0

def fullMinerTx : Transaction :=
  { Transaction.null with
    version := 2, vin := [.gen 0], extra := tagExtra
    rctSignatures :=
      { RctSig.null with
        type := rctTypeFull, mgs := [⟨[[nullBlob 32, nullBlob 32]], nullBlob 32⟩] } }

def emptyMinerTx : Transaction := { Transaction.null with version := 2, extra := tagExtra }

def response (blocks : List Block) : ResponseGetObjects :=
  ⟨blocks.map fun b => ⟨blockToBlob b, []⟩, 10⟩

/-- The height that `add_blocks` is called with. -/
def ObjectsOutcome.addedAt : ObjectsOutcome → Option Nat
  | .added startHeight _ => some startHeight
  | _ => none

theorem ObjectsOutcome.exists_of_addedAt {outcome : ObjectsOutcome} {startHeight : Nat}
    (h : outcome.addedAt = some startHeight) : ∃ queue, outcome = .added startHeight queue := by
  cases outcome with
  | added height queue =>
    cases h
    exact ⟨queue, rfl⟩
  | stopped => cases h
  | dropped queue => cases h
  | ignored queue => cases h

/-- What a fresh node does with the answer to its request. -/
def answer (requested : Finset Hash) (blocks : List Block) : ObjectsOutcome :=
  handleResponseGetObjects lengthCrypto (fun _ => false) (fun _ => false) (requesting requested)
    .empty (response blocks)

def laterBlock : Block := { claimingBlock 6 with timestamp := 200 }

/-- A response of two blocks, both asked for. -/
theorem added_span_solicited_iff_two :
    let requested : Finset Hash :=
      {lengthCrypto.getBlockHash (claimingBlock 5), lengthCrypto.getBlockHash laterBlock}
    requested.card = 2 ∧
      ∃ queue', answer requested [claimingBlock 5, laterBlock] = .added 5 queue' ∧
        Solicited lengthCrypto requested 5 (response [claimingBlock 5, laterBlock]).blocks := by
  intro requested
  have hfirst : parseAndValidateBlockFromBlob .null (blockToBlob (claimingBlock 5)) =
      some (claimingBlock 5) := by decide +kernel
  have hsecond : parseAndValidateBlockFromBlob .null (blockToBlob laterBlock) =
      some laterBlock := by decide +kernel
  have hinTurn : parseAndValidateBlockFromBlob (claimingBlock 5) (blockToBlob laterBlock) =
      some laterBlock := by decide +kernel
  obtain ⟨queue', hrun⟩ := ObjectsOutcome.exists_of_addedAt
    (show (answer requested [claimingBlock 5, laterBlock]).addedAt = some 5 by decide +kernel)
  refine ⟨by decide +kernel, queue', hrun, (added_span_solicited_iff _ _ _ _ _ _ _ _ hrun).mpr
    ⟨by simp [response], ?_, fun hash => ?_⟩⟩
  · intro entry hentry b hb height hvin
    obtain rfl := Option.some.inj hentry
    rw [hfirst] at hb
    cases hb
    cases hvin
    decide
  · simp [response, parseInTurn, hfirst, hsecond, hinTurn]

/-- The blocks of a response that has an unexpected id: the second has no RingCT part
in its parent, and keeps the one of the first. -/
def staleBlocks : List Block :=
  [claimingMergeMined 5 fullMinerTx, claimingMergeMined 6 emptyMinerTx]

def staleRequest : Finset Hash :=
  {lengthCrypto.getBlockHash (claimingMergeMined 5 fullMinerTx), nullHash}

/-- A response without blocks, when nothing was requested, adds a span without blocks
at height 2⁶⁴ - 1. And a block that has an id of its own is taken for one with
the null id, because it is parsed after another one. -/
theorem unsolicited_spans_added :
    (∃ queue', answer ∅ [] = .added (2 ^ 64 - 1) queue' ∧
      ¬ Solicited lengthCrypto ∅ (2 ^ 64 - 1) (response []).blocks) ∧
    ∃ queue', answer staleRequest staleBlocks = .added 5 queue' ∧
      ¬ Solicited lengthCrypto staleRequest 5 (response staleBlocks).blocks := by
  constructor
  · obtain ⟨queue', hrun⟩ := ObjectsOutcome.exists_of_addedAt
      (show (answer ∅ []).addedAt = some (2 ^ 64 - 1) by decide +kernel)
    exact ⟨queue', hrun, fun hsolicited => hsolicited.nonempty rfl⟩
  · obtain ⟨queue', hrun⟩ := ObjectsOutcome.exists_of_addedAt
      (show (answer staleRequest staleBlocks).addedAt = some 5 by decide +kernel)
    refine ⟨queue', hrun, fun hsolicited => ?_⟩
    have hids : ∀ entry ∈ (response staleBlocks).blocks,
        (parseAndValidateBlockFromBlob .null entry.block).map lengthCrypto.getBlockHash ≠
          some nullHash := by decide +kernel
    -- the null id was requested, and no block has it
    have hnull : nullHash ∈ staleRequest := by simp [staleRequest]
    obtain ⟨entry, hentry, b, hparse, hid⟩ := (hsolicited.ids nullHash).mp hnull
    exact hids entry hentry (by rw [hparse, Option.map_some, hid])

end Lethean
