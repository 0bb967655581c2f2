import Mathlib.Data.List.Sort

/-!
# Lethean.P2p.Peerlist

The white and the gray list of `peerlist_manager`. A `peers_indexed` is the list of its
entries in the order of `by_time`; its index `by_addr` is unique and compares addresses
by their `m_full_id`. Beside the lists stand the trims they went through.
-/

namespace Lethean

def p2pLocalWhitePeerlistLimit : Nat := 1000

def p2pLocalGrayPeerlistLimit : Nat := 5000

/-- What the lists ask of a `network_address_base`. -/
class NetworkAddress (A : Type) where
  fullId : A → UInt64
  isLoopback : A → Bool
  isLocal : A → Bool

structure PeerlistEntry (A : Type) where
  adr : A
  id : UInt64
  lastSeen : Int

abbrev PeersIndexed (A : Type) := List (PeerlistEntry A)

variable {A : Type} [NetworkAddress A]

def PeerlistEntry.key (e : PeerlistEntry A) : UInt64 := NetworkAddress.fullId e.adr

namespace PeersIndexed

section

variable (l : PeersIndexed A) (ple : PeerlistEntry A) (key : UInt64) (limit : Nat)

/-- `insert` of an entry whose address is new, behind those last seen at its time. -/
def insert : PeersIndexed A := l.orderedInsert (·.lastSeen < ·.lastSeen) ple

/-- `erase` of what `find` gives for the address, if it gives something. -/
def erase : PeersIndexed A := l.filter (·.key ≠ key)

/-- `replace` of the entry with the address of `ple`. The new one stays in its place if
the order allows it, and is linked in again otherwise. -/
def replace : PeersIndexed A :=
  let inPlace := l.map fun e => if e.key = ple.key then ple else e
  if inPlace.Pairwise (·.lastSeen ≤ ·.lastSeen) then inPlace else (l.erase ple.key).insert ple

/-- The loop that erases at `begin()` of `by_time`: what it drops, and what it leaves. -/
def trim : PeersIndexed A × PeersIndexed A :=
  (l.take (l.length - limit), l.drop (l.length - limit))

/-- The entry is replaced, or inserted before a trim. -/
def put : PeersIndexed A × List (PeersIndexed A × PeersIndexed A) :=
  if ∃ e ∈ l, e.key = ple.key then (l.replace ple, [])
  else (((l.insert ple).trim limit).2, [(l.insert ple).trim limit])

end

end PeersIndexed

structure PeerlistManager (A : Type) where
  allowLocalIp : Bool
  white : PeersIndexed A
  gray : PeersIndexed A
  trims : List (PeersIndexed A × PeersIndexed A)

inductive PeerlistCall (A : Type)
  | mergePeerlist (outer : List (PeerlistEntry A))
  | appendWithPeerWhite (ple : PeerlistEntry A)
  | appendWithPeerGray (ple : PeerlistEntry A)
  | setPeerJustSeen (peer : UInt64) (addr : A) (now : Int)
  | removeFromPeerGray (pe : PeerlistEntry A)

namespace PeerlistManager

section

variable (m : PeerlistManager A)

def isHostAllowed (allowLocalIp : Bool) (adr : A) : Bool :=
  !NetworkAddress.isLoopback adr && (allowLocalIp || !NetworkAddress.isLocal adr)

def appendWithPeerWhite (ple : PeerlistEntry A) : PeerlistManager A :=
  if isHostAllowed m.allowLocalIp ple.adr then
    let (white, trims) := m.white.put ple p2pLocalWhitePeerlistLimit
    { m with white, gray := m.gray.erase ple.key, trims := trims ++ m.trims }
  else m

def appendWithPeerGray (ple : PeerlistEntry A) : PeerlistManager A :=
  if isHostAllowed m.allowLocalIp ple.adr ∧ ∀ e ∈ m.white, e.key ≠ ple.key then
    let (gray, trims) := m.gray.put ple p2pLocalGrayPeerlistLimit
    { m with gray, trims := trims ++ m.trims }
  else m

def trimGrayPeerlist : PeerlistManager A :=
  let cut := m.gray.trim p2pLocalGrayPeerlistLimit
  { m with gray := cut.2, trims := cut :: m.trims }

def mergePeerlist (outer : List (PeerlistEntry A)) : PeerlistManager A :=
  (outer.foldl appendWithPeerGray m).trimGrayPeerlist

def removeFromPeerGray (pe : PeerlistEntry A) : PeerlistManager A :=
  { m with gray := m.gray.erase pe.key }

def call : PeerlistCall A → PeerlistManager A
  | .mergePeerlist outer => m.mergePeerlist outer
  | .appendWithPeerWhite ple => m.appendWithPeerWhite ple
  | .appendWithPeerGray ple => m.appendWithPeerGray ple
  | .setPeerJustSeen peer addr now => m.appendWithPeerWhite ⟨addr, peer, now⟩
  | .removeFromPeerGray pe => m.removeFromPeerGray pe

end

end PeerlistManager

/-! ### One list -/

namespace PeersIndexed

variable {l l' : PeersIndexed A} {ple : PeerlistEntry A} {ok : A → Bool} {limit : Nat}

/-- The entries are in order, no address occurs twice and every host is allowed. -/
structure Valid (ok : A → Bool) (l : PeersIndexed A) : Prop where
  sorted : l.Pairwise (·.lastSeen ≤ ·.lastSeen)
  once : (l.map (·.key)).Nodup
  allowed : ∀ e ∈ l, ok e.adr = true

theorem Valid.sublist (h : Valid ok l) (hsub : l'.Sublist l) : Valid ok l' :=
  ⟨h.sorted.sublist hsub, h.once.sublist (hsub.map _), fun e he => h.allowed e (hsub.subset he)⟩

omit [NetworkAddress A] in
theorem insert_perm : (l.insert ple).Perm (ple :: l) := List.perm_orderedInsert _ _ _

omit [NetworkAddress A] in
theorem mem_insert {e : PeerlistEntry A} : e ∈ l.insert ple ↔ e = ple ∨ e ∈ l :=
  insert_perm.mem_iff.trans List.mem_cons

omit [NetworkAddress A] in
theorem insert_sorted (h : l.Pairwise (·.lastSeen ≤ ·.lastSeen)) :
    (l.insert ple).Pairwise (·.lastSeen ≤ ·.lastSeen) := by
  induction l with
  | nil => exact List.pairwise_singleton _ _
  | cons e l ih =>
    obtain ⟨hfirst, hrest⟩ := List.pairwise_cons.mp h
    rw [insert, List.orderedInsert_cons]
    split
    · rename_i hlt
      refine List.pairwise_cons.mpr ⟨fun f hf => ?_, h⟩
      rcases List.mem_cons.mp hf with rfl | hf
      · exact hlt.le
      · exact hlt.le.trans (hfirst f hf)
    · rename_i hle
      refine List.pairwise_cons.mpr ⟨fun f hf => ?_, ih hrest⟩
      rcases mem_insert.mp hf with rfl | hf
      · exact not_lt.mp hle
      · exact hfirst f hf

theorem Valid.insert (h : Valid ok l) (hnew : ∀ e ∈ l, e.key ≠ ple.key)
    (hok : ok ple.adr = true) : Valid ok (l.insert ple) where
  sorted := insert_sorted h.sorted
  once := by
    rw [(insert_perm.map _).nodup_iff, List.map_cons, List.nodup_cons]
    exact ⟨by simpa using hnew, h.once⟩
  allowed e he := (mem_insert.mp he).elim (fun heq => heq ▸ hok) (h.allowed e)

theorem Valid.replace_spec (h : Valid ok l) (hok : ok ple.adr = true)
    (hfound : ∃ e ∈ l, e.key = ple.key) : Valid ok (l.replace ple) ∧
      (l.replace ple).length ≤ l.length ∧ ∀ e ∈ l.replace ple, e = ple ∨ e ∈ l := by
  have hmem : ∀ e ∈ l.map (fun e => if e.key = ple.key then ple else e), e = ple ∨ e ∈ l := by
    intro e he
    obtain ⟨old, hold, rfl⟩ := List.mem_map.mp he
    split
    · exact .inl rfl
    · exact .inr hold
  unfold replace
  dsimp only
  split
  · rename_i hsorted
    refine ⟨⟨hsorted, ?_, fun e he => ?_⟩, by simp, hmem⟩
    · have hkeys : ∀ e ∈ l, (if e.key = ple.key then ple else e).key = e.key := by
        intro e _
        split <;> simp [*]
      rw [List.map_map]
      exact List.map_congr_left hkeys ▸ h.once
    · exact (hmem e he).elim (fun heq => heq ▸ hok) (h.allowed e)
  · have herased : (l.erase ple.key).length < l.length :=
      List.length_filter_lt_length_iff_exists.mpr (by simpa using hfound)
    refine ⟨(h.sublist List.filter_sublist).insert (by simp) hok,
      insert_perm.length_eq.trans_le herased, fun e he => ?_⟩
    exact (mem_insert.mp he).imp_right List.mem_of_mem_filter

/-- None of the entries a trim drops was seen later than one it leaves. -/
def OldestDropped (cut : PeersIndexed A × PeersIndexed A) : Prop :=
  ∀ e ∈ cut.1, ∀ f ∈ cut.2, e.lastSeen ≤ f.lastSeen

theorem Valid.trim_spec (h : Valid ok l) (limit : Nat) :
    (l.trim limit).2.Sublist l ∧ (l.trim limit).2.length ≤ limit ∧
      OldestDropped (l.trim limit) := by
  refine ⟨List.drop_sublist _ _, by simp [trim]; omega, ?_⟩
  have hpairs := h.sorted
  rw [← List.take_append_drop (l.length - limit) l] at hpairs
  exact (List.pairwise_append.mp hpairs).2.2

theorem Valid.put_spec (h : Valid ok l) (hok : ok ple.adr = true) (hlen : l.length ≤ limit) :
    Valid ok (l.put ple limit).1 ∧ (l.put ple limit).1.length ≤ limit ∧
      (∀ e ∈ (l.put ple limit).1, e = ple ∨ e ∈ l) ∧
      ∀ cut ∈ (l.put ple limit).2, OldestDropped cut := by
  unfold put
  split
  · rename_i hfound
    obtain ⟨hvalid, hle, hmem⟩ := h.replace_spec hok hfound
    exact ⟨hvalid, hle.trans hlen, hmem, nofun⟩
  · rename_i hnew
    have hvalid := h.insert (fun e he hkey => hnew ⟨e, he, hkey⟩) hok
    obtain ⟨hsub, hle, hcut⟩ := hvalid.trim_spec limit
    exact ⟨hvalid.sublist hsub, hle, fun e he => mem_insert.mp (hsub.subset he), by simpa using hcut⟩

end PeersIndexed

/-! ### Both lists -/

namespace PeerlistManager

open PeersIndexed (Valid OldestDropped)

variable {m : PeerlistManager A}

structure Consistent (m : PeerlistManager A) : Prop where
  white : Valid (isHostAllowed m.allowLocalIp) m.white
  gray : Valid (isHostAllowed m.allowLocalIp) m.gray
  white_le : m.white.length ≤ p2pLocalWhitePeerlistLimit
  gray_le : m.gray.length ≤ p2pLocalGrayPeerlistLimit
  disjoint : ∀ e ∈ m.white, ∀ f ∈ m.gray, e.key ≠ f.key
  trims : ∀ cut ∈ m.trims, OldestDropped cut

namespace Consistent

variable (h : m.Consistent)
include h

theorem removeFromPeerGray (pe : PeerlistEntry A) : (m.removeFromPeerGray pe).Consistent := by
  have hsub : (m.gray.erase pe.key).Sublist m.gray := List.filter_sublist
  exact ⟨h.white, h.gray.sublist hsub, h.white_le, hsub.length_le.trans h.gray_le,
    fun e he f hf => h.disjoint e he f (hsub.subset hf), h.trims⟩

theorem appendWithPeerWhite (ple : PeerlistEntry A) : (m.appendWithPeerWhite ple).Consistent := by
  unfold PeerlistManager.appendWithPeerWhite
  split
  · rename_i hok
    obtain ⟨hwhite, hle, hmem, htrims⟩ := h.white.put_spec hok h.white_le
    obtain ⟨-, hgray, -, hgray_le, hdisjoint, -⟩ := h.removeFromPeerGray ple
    refine ⟨hwhite, hgray, hle, hgray_le, fun e he f hf => ?_,
      List.forall_mem_append.mpr ⟨htrims, h.trims⟩⟩
    rcases hmem e he with rfl | he
    · exact (of_decide_eq_true (List.mem_filter.mp hf).2).symm
    · exact hdisjoint e he f hf
  · exact h

theorem appendWithPeerGray (ple : PeerlistEntry A) : (m.appendWithPeerGray ple).Consistent := by
  unfold PeerlistManager.appendWithPeerGray
  split
  · rename_i hok
    obtain ⟨hgray, hle, hmem, htrims⟩ := h.gray.put_spec hok.1 h.gray_le
    refine ⟨h.white, hgray, h.white_le, hle, fun e he f hf => ?_,
      List.forall_mem_append.mpr ⟨htrims, h.trims⟩⟩
    rcases hmem f hf with rfl | hf
    · exact hok.2 e he
    · exact h.disjoint e he f hf
  · exact h

theorem trimGrayPeerlist : m.trimGrayPeerlist.Consistent := by
  unfold PeerlistManager.trimGrayPeerlist
  have hspec := h.gray.trim_spec p2pLocalGrayPeerlistLimit
  generalize m.gray.trim p2pLocalGrayPeerlistLimit = cut at hspec ⊢
  obtain ⟨hsub, hle, hcut⟩ := hspec
  exact ⟨h.white, h.gray.sublist hsub, h.white_le, hle,
    fun e he f hf => h.disjoint e he f (hsub.subset hf), List.forall_mem_cons.mpr ⟨hcut, h.trims⟩⟩

theorem call (c : PeerlistCall A) : (m.call c).Consistent := by
  cases c with
  | mergePeerlist outer =>
    refine trimGrayPeerlist ?_
    induction outer generalizing m with
    | nil => exact h
    | cons be outer ih => exact ih (h.appendWithPeerGray be)
  | appendWithPeerWhite ple => exact h.appendWithPeerWhite ple
  | appendWithPeerGray ple => exact h.appendWithPeerGray ple
  | setPeerJustSeen peer addr now => exact h.appendWithPeerWhite _
  | removeFromPeerGray pe => exact h.removeFromPeerGray pe

end Consistent

/-- **The peer lists stay disjoint and bounded.** Whatever is called, the lists that were
empty at first share no address and have none twice, are within their limits and hold
allowed hosts only, and every trim dropped the entries that were seen the longest ago. -/
theorem peerlists_consistent (allowLocalIp : Bool) (calls : List (PeerlistCall A)) :
    (calls.foldl call ⟨allowLocalIp, [], [], []⟩).Consistent := by
  have hempty : Consistent (⟨allowLocalIp, [], [], []⟩ : PeerlistManager A) :=
    ⟨⟨.nil, .nil, nofun⟩, ⟨.nil, .nil, nofun⟩, Nat.zero_le _, Nat.zero_le _, nofun, nofun⟩
  generalize PeerlistManager.mk allowLocalIp [] [] [] = m at hempty ⊢
  induction calls generalizing m with
  | nil => exact hempty
  | cons c calls ih => exact ih _ (hempty.call c)

end PeerlistManager

end Lethean
