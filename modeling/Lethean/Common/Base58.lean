import Lethean.Lib.BlockCode
import Lethean.Lib.Limbs
import Lethean.Common.IntUtil
import Lethean.Common.Strings

/-!
# Lethean.Common.Base58

`common/base58.cpp`. The bytes are taken in blocks of eight; a block is a number
in network order, and its digits to the base 58 fill a field whose width depends
on the size of the block only. The tables of the source are computed as there,
and so are its words: the decoder detects overflow from a product of two words
and a wrapped sum.

An encoder that ran out of its field would write in front of it; the model returns
`none` there, and `encode_isSome` says that it never happens.
-/

namespace Lethean

namespace Base58

/-! ### The tables -/

def alphabet : List UInt8 :=
  literal "123456789ABCDEFGHJKLMNPQRSTUVWXYZabcdefghijkmnopqrstuvwxyz"

def alphabetSize : Nat := 58

def encodedBlockSizes : List Nat := [0, 2, 3, 5, 6, 7, 9, 10, 11]

def fullBlockSize : Nat := 8

def fullEncodedBlockSize : Nat := 11

def addrChecksumSize : Nat := 4

/-- The digit `i` of the alphabet. -/
def letter (i : Nat) : UInt8 := alphabet.getD i 0

/-- The constructor of `reverse_alphabet`. -/
def reverseAlphabetData : List Int :=
  (List.range alphabetSize).foldl
    (fun data i => data.set ((letter i).toNat - (letter 0).toNat) i)
    (List.replicate ((letter (alphabetSize - 1)).toNat - (letter 0).toNat + 1) (-1))

/-- `reverse_alphabet::operator()`. A `char` is signed, and an index below zero is
a large `size_t`. -/
def reverseAlphabet (l : UInt8) : Int :=
  let idx := ((l.toInt8.toInt - (letter 0).toNat) % 2 ^ 64).toNat
  if idx < reverseAlphabetData.length then reverseAlphabetData.getD idx (-1) else -1

/-- The constructor of `decoded_block_sizes`. -/
def decodedBlockSizesData : List Int :=
  (List.range (fullBlockSize + 1)).foldl (fun data i => data.set (encodedBlockSizes.getD i 0) i)
    (List.replicate (encodedBlockSizes.getD fullBlockSize 0 + 1) (-1))

/-- `decoded_block_sizes::operator()`. -/
def decodedBlockSizes (encodedBlockSize : Nat) : Int :=
  decodedBlockSizesData.getD encodedBlockSize (-1)

/-! ### Blocks -/

def uint8beTo64 (data : List UInt8) : Nat :=
  data.foldl (fun res b => u64 (res <<< 8) ||| b.toNat) 0

/-- The bytes of a number, the highest first: `SWAP64BE` in memory for eight bytes. -/
def swapBE : Nat → Nat → List UInt8
  | 0, _ => []
  | n + 1, num => swapBE n (num >>> 8) ++ [UInt8.ofNat num]

def uint64To8be (num size : Nat) : List UInt8 := (swapBE 8 num).drop (8 - size)

/-- The loop of `encode_block`, below index `i + 1` of the field. -/
def encodeBlockLoop : Nat → Nat → List UInt8 → Option (List UInt8)
  | 0, num, res => if 0 < num then none else some res
  | i + 1, num, res =>
    if 0 < num then
      encodeBlockLoop i (num / alphabetSize) (res.set i (letter (num % alphabetSize)))
    else some res

/-- `encode_block`, on a field of the lowest digit. -/
def encodeBlock (block : List UInt8) : Option (List UInt8) :=
  let num := uint8beTo64 block
  let size := encodedBlockSizes.getD block.length 0
  encodeBlockLoop size num (List.replicate size (letter 0))

/-- The loop of `decode_block`, from index `i` down. -/
def decodeBlockLoop (block : List UInt8) : Nat → Nat → Nat → Option Nat
  | 0, resNum, _ => some resNum
  | i + 1, resNum, order =>
    let digit := reverseAlphabet (block.getD i 0)
    if digit < 0 then none
    else
      let product := mul128 order digit.toNat
      let tmp := u64 (resNum + product.1)
      if tmp < resNum ∨ product.2 ≠ 0 then none
      else decodeBlockLoop block i tmp (u64 (order * alphabetSize))

def decodeBlock (block : List UInt8) : Option (List UInt8) :=
  let resSize := decodedBlockSizes block.length
  if resSize ≤ 0 then none
  else
    match decodeBlockLoop block block.length 0 1 with
    | none => none
    | some resNum =>
      if resSize < fullBlockSize ∧ 2 ^ (8 * resSize.toNat) ≤ resNum then none
      else some (uint64To8be resNum resSize.toNat)

/-! ### Strings -/

def encode (data : List UInt8) : Option (List UInt8) :=
  if data.isEmpty then some []
  else BlockCode.mapBlocks fullBlockSize encodeBlock (data.length / fullBlockSize) data

def decode (enc : List UInt8) : Option (List UInt8) :=
  if enc.isEmpty then some []
  else if decodedBlockSizes (enc.length % fullEncodedBlockSize) < 0 then none
  else
    BlockCode.mapBlocks fullEncodedBlockSize decodeBlock (enc.length / fullEncodedBlockSize) enc

/-! ### What the tables say -/

theorem reverseAlphabet_letter : ∀ d < 58, reverseAlphabet (letter d) = d := by decide +kernel

theorem letter_reverseAlphabet (l : UInt8) (h : 0 ≤ reverseAlphabet l) :
    (reverseAlphabet l).toNat < 58 ∧ letter (reverseAlphabet l).toNat = l := by
  have hall : ∀ n < 256, 0 ≤ reverseAlphabet (UInt8.ofNat n) →
      (reverseAlphabet (UInt8.ofNat n)).toNat < 58 ∧
        letter (reverseAlphabet (UInt8.ofNat n)).toNat = UInt8.ofNat n := by
    decide +kernel
  have := hall l.toNat l.toNat_lt
  rw [UInt8.ofNat_toNat] at this
  exact this h

/-- The width of a field suffices for its block, and the decoder knows the block
size from it. -/
theorem blockSizes_spec : ∀ size < 9, 0 < size →
    decodedBlockSizes (encodedBlockSizes.getD size 0) = size ∧
      256 ^ size ≤ 58 ^ encodedBlockSizes.getD size 0 ∧
      encodedBlockSizes.getD size 0 ≤ 11 := by
  decide +kernel

theorem decodedBlockSizes_spec : ∀ size < 12, 0 < decodedBlockSizes size →
    (decodedBlockSizes size).toNat < 9 ∧
      encodedBlockSizes.getD (decodedBlockSizes size).toNat 0 = size := by
  decide +kernel

theorem blockSizes_pos : ∀ size < 9, 0 < size → 0 < encodedBlockSizes.getD size 0 := by
  decide +kernel

theorem blockSizes_lt_iff :
    ∀ size < 9, (encodedBlockSizes.getD size 0 < 11 ↔ size < 8) := by
  decide +kernel

/-! ### Numbers -/

open BlockCode

variable {data block s : List UInt8} {ds : List Nat}

theorem toNat_lt_of_mem_map {d : Nat} (h : d ∈ data.map UInt8.toNat) : d < 256 := by
  obtain ⟨b, -, rfl⟩ := List.mem_map.mp h
  exact b.toNat_lt

theorem value_bytes_lt (data : List UInt8) :
    value 256 (data.map UInt8.toNat) < 256 ^ data.length := by
  have := value_lt (b := 256) (by decide)
    fun d (hd : d ∈ data.map UInt8.toNat) => toNat_lt_of_mem_map hd
  rwa [List.length_map] at this

theorem uint8beTo64_eq (h : data.length ≤ 8) :
    uint8beTo64 data = value 256 (data.map UInt8.toNat) := by
  induction data using List.reverseRecOn with
  | nil => rfl
  | append_singleton data b ih =>
    rw [List.length_append, List.length_singleton] at h
    have hlt := value_bytes_lt data
    have hpow : 256 ^ data.length ≤ 256 ^ 7 := Nat.pow_le_pow_right (by decide) (by omega)
    have hb := b.toNat_lt
    rw [uint8beTo64, List.foldl_concat, ← uint8beTo64, ih (by omega), List.map_append,
      List.map_singleton, value_concat, Nat.shiftLeft_eq, u64_of_lt (by omega)]
    rw [Nat.mul_comm _ (2 ^ 8), ← Nat.two_pow_add_eq_or_of_lt hb]
    omega

@[simp] theorem length_swapBE (n num : Nat) : (swapBE n num).length = n := by
  induction n generalizing num with
  | zero => rfl
  | succ n ih => rw [swapBE, List.length_append, ih, List.length_singleton]

theorem swapBE_drop {n k : Nat} (h : k ≤ n) (num : Nat) :
    (swapBE n num).drop (n - k) = swapBE k num := by
  induction k generalizing n num with
  | zero =>
    rw [Nat.sub_zero, List.drop_of_length_le (by rw [length_swapBE])]
    rfl
  | succ k ih =>
    obtain ⟨n, rfl⟩ : ∃ n', n = n' + 1 := ⟨n - 1, by omega⟩
    rw [swapBE, swapBE, List.drop_append_of_le_length (by rw [length_swapBE]; omega),
      Nat.add_sub_add_right, ih (by omega)]

theorem swapBE_eq {n num : Nat} (h : num < 256 ^ n) :
    swapBE n num = (digits 256 n num).map UInt8.ofNat := by
  induction n generalizing num with
  | zero =>
    rw [pow_zero, Nat.lt_one_iff] at h
    rw [h, digits_zero]
    rfl
  | succ n ih =>
    rw [swapBE, digits_succ (by decide), Nat.shiftRight_eq_div_pow, ih, List.map_append,
      List.map_singleton, ← UInt8.ofNat_mod_size (x := num)]
    rwa [Nat.div_lt_iff_lt_mul (by decide), ← pow_succ]

/-! ### Fields -/

theorem encodeBlockLoop_eq {i num : Nat} (h : num < 58 ^ i) (tail : List UInt8) :
    encodeBlockLoop i num (List.replicate i (letter 0) ++ tail) =
      some ((digits 58 i num).map letter ++ tail) := by
  induction i generalizing num tail with
  | zero =>
    rw [pow_zero, Nat.lt_one_iff] at h
    rw [h, digits_zero]
    rfl
  | succ i ih =>
    rw [encodeBlockLoop]
    split
    · have hset : (List.replicate (i + 1) (letter 0) ++ tail).set i (letter (num % 58)) =
          List.replicate i (letter 0) ++ (letter (num % 58) :: tail) := by
        rw [List.replicate_succ', List.append_assoc, List.set_append_right _ _ (by simp)]
        simp
      rw [alphabetSize, hset, ih, digits_succ (by decide), List.map_append, List.append_assoc]
      · rfl
      · rwa [Nat.div_lt_iff_lt_mul (by decide), ← pow_succ]
    · rename_i hzero
      rw [Nat.eq_zero_of_not_pos hzero, digits_zero, List.map_replicate]

theorem encodeBlock_eq (hpos : 0 < block.length) (hlt : block.length < 9) :
    encodeBlock block = some ((digits 58 (encodedBlockSizes.getD block.length 0)
      (value 256 (block.map UInt8.toNat))).map letter) := by
  have hspec := blockSizes_spec block.length hlt hpos
  have hloop := encodeBlockLoop_eq ((value_bytes_lt block).trans_le hspec.2.1) []
  rw [List.append_nil, List.append_nil] at hloop
  rw [encodeBlock, uint8beTo64_eq (by omega), hloop]

theorem overflow_iff {resNum order digit : Nat} (h : resNum < 2 ^ 64) :
    (u64 (resNum + (mul128 order digit).1) < resNum ∨ (mul128 order digit).2 ≠ 0) ↔
      2 ^ 64 ≤ resNum + order * digit := by
  rw [mul128, u64]
  generalize order * digit = p
  omega

def Spells (block : List UInt8) (ds : List Nat) : Prop :=
  (∀ d ∈ ds, d < 58) ∧ block = ds.map letter

theorem spells_nil_iff : Spells [] ds ↔ ds = [] := by
  constructor
  · exact fun h => List.map_eq_nil_iff.mp h.2.symm
  · rintro rfl
    exact ⟨by simp, rfl⟩

theorem spells_concat_iff {l : UInt8} :
    Spells (block ++ [l]) ds ↔
      ∃ ds' d, ds = ds' ++ [d] ∧ Spells block ds' ∧ d < 58 ∧ l = letter d := by
  constructor
  · rintro ⟨hlt, hmap⟩
    obtain ⟨ds', last, rfl, hblock, hlast⟩ := List.append_eq_map_iff.mp hmap
    obtain ⟨d, rfl, hletter⟩ := List.map_eq_singleton_iff.mp hlast
    exact ⟨ds', d, rfl, ⟨fun x hx => hlt x (by simp [hx]), hblock.symm⟩, hlt d (by simp),
      hletter.symm⟩
  · rintro ⟨ds', d, rfl, ⟨hlt, rfl⟩, hd, rfl⟩
    exact ⟨forall_mem_concat.mpr ⟨hlt, hd⟩, by simp⟩

/-- The loop of the decoder, with the digits above index `i` read. -/
theorem decodeBlockLoop_eq_some {block : List UInt8} {i j resNum v : Nat}
    (hi : i ≤ block.length) (hj : i + j ≤ 11) (hres : resNum < 2 ^ 64) :
    decodeBlockLoop block i resNum (u64 (58 ^ j)) = some v ↔
      ∃ ds, Spells (block.take i) ds ∧ v = resNum + 58 ^ j * value 58 ds ∧ v < 2 ^ 64 := by
  induction i generalizing j resNum with
  | zero =>
    simp only [List.take_zero, spells_nil_iff, exists_eq_left, value_nil, Nat.mul_zero,
      Nat.add_zero, decodeBlockLoop, Option.some_inj]
    exact ⟨fun h => ⟨h.symm, h ▸ hres⟩, fun h => h.1.symm⟩
  | succ i ih =>
    have hpow : 58 ^ j < 2 ^ 64 :=
      (Nat.pow_le_pow_right (by decide) (by omega : j ≤ 10)).trans_lt (by decide)
    have htake : block.take (i + 1) = block.take i ++ [block.getD i 0] := by
      rw [List.take_succ_eq_append_getElem hi, List.getD_eq_getElem _ _ hi]
    have hvalue (ds : List Nat) (d : Nat) : resNum + 58 ^ j * value 58 (ds ++ [d]) =
        resNum + 58 ^ j * d + 58 ^ (j + 1) * value 58 ds := by
      rw [value_concat]
      ring
    rw [decodeBlockLoop, htake, u64_of_lt hpow]
    simp only [spells_concat_iff]
    generalize block.getD i 0 = l
    split
    · -- not a digit
      rename_i hneg
      constructor
      · exact nofun
      · rintro ⟨_, ⟨ds, d, rfl, -, hd, rfl⟩, -⟩
        rw [reverseAlphabet_letter d hd] at hneg
        omega
    rename_i hdigit
    obtain ⟨hlt, hletter⟩ := letter_reverseAlphabet l (not_lt.mp hdigit)
    split
    · -- the sum so far does not fit
      rename_i hover
      rw [overflow_iff hres] at hover
      constructor
      · exact nofun
      · rintro ⟨_, ⟨ds, d, rfl, -, hd, rfl⟩, rfl, hfit⟩
        rw [reverseAlphabet_letter d hd, Int.toNat_natCast] at hover
        rw [hvalue] at hfit
        omega
    · rename_i hover
      rw [overflow_iff hres, not_le] at hover
      have hproduct : (mul128 (58 ^ j) (reverseAlphabet l).toNat).1 =
          58 ^ j * (reverseAlphabet l).toNat := Nat.mod_eq_of_lt (by omega)
      rw [hproduct, u64_of_lt hover, alphabetSize, ← pow_succ, ih (by omega) (by omega) hover]
      constructor
      · rintro ⟨ds, hds, rfl, hfit⟩
        exact ⟨_, ⟨ds, _, rfl, hds, hlt, hletter.symm⟩, (hvalue ds _).symm, hfit⟩
      · rintro ⟨_, ⟨ds, d, rfl, hds, hd, rfl⟩, rfl, hfit⟩
        rw [hvalue] at hfit ⊢
        rw [reverseAlphabet_letter d hd, Int.toNat_natCast]
        exact ⟨ds, hds, rfl, hfit⟩

theorem Spells.length (h : Spells block ds) : ds.length = block.length := by
  rw [h.2, List.length_map]

theorem decodeBlock_of_size {bytes : List UInt8} {size : Nat} (hle : block.length ≤ 11)
    (hpos : 0 < size) (hlt : size < 9) (hsize : decodedBlockSizes block.length = size) :
    decodeBlock block = some bytes ↔
      ∃ ds, Spells block ds ∧ value 58 ds < 256 ^ size ∧
        bytes = (digits 256 size (value 58 ds)).map UInt8.ofNat := by
  have hloop (v : Nat) := @decodeBlockLoop_eq_some block block.length 0 0 v le_rfl hle (by decide)
  simp only [pow_zero, List.take_length, Nat.zero_add, Nat.one_mul, show u64 1 = 1 from rfl]
    at hloop
  have hbytes {v : Nat} (hv : v < 256 ^ size) :
      uint64To8be v size = (digits 256 size v).map UInt8.ofNat := by
    rw [uint64To8be, swapBE_drop (by omega), swapBE_eq hv]
  have hpow : 2 ^ (8 * size) = 256 ^ size := by rw [pow_mul]; rfl
  have hword : 256 ^ size ≤ 2 ^ 64 := by
    rw [← hpow]
    exact Nat.pow_le_pow_right (by decide) (by omega)
  have hfull (h : ¬ size < 8) : 256 ^ size = 2 ^ 64 := by
    rw [show size = 8 by omega]
    rfl
  rw [decodeBlock, hsize, if_neg (by omega), Int.toNat_natCast, hpow, fullBlockSize]
  cases hrun : decodeBlockLoop block block.length 0 1 with
  | none =>
    constructor
    · exact nofun
    · rintro ⟨ds, hds, hfit, -⟩
      rw [(hloop _).mpr ⟨ds, hds, rfl, by omega⟩] at hrun
      exact absurd hrun (by simp)
  | some v =>
    obtain ⟨ds, hds, rfl, hv⟩ := (hloop v).mp hrun
    dsimp only
    constructor
    · intro h
      split at h
      · cases h
      · have hfit : value 58 ds < 256 ^ size := by
          by_cases hshort : size < 8
          · omega
          · rwa [hfull hshort]
        exact ⟨ds, hds, hfit, by rw [← hbytes hfit, Option.some.inj h]⟩
    · rintro ⟨ds', hds', hfit, rfl⟩
      have hsame : value 58 ds = value 58 ds' :=
        Option.some.inj (hrun.symm.trans ((hloop _).mpr ⟨ds', hds', rfl, by omega⟩))
      rw [hsame, if_neg (by omega), hbytes hfit]

/-- What the decoder takes: the digits of a number that fits the block. -/
theorem decodeBlock_eq_some {bytes : List UInt8} (h : block.length ≤ 11) :
    decodeBlock block = some bytes ↔
      ∃ size ds, 0 < size ∧ size < 9 ∧ encodedBlockSizes.getD size 0 = block.length ∧
        Spells block ds ∧ value 58 ds < 256 ^ size ∧
        bytes = (digits 256 size (value 58 ds)).map UInt8.ofNat := by
  constructor
  · intro hsome
    have hpos : 0 < decodedBlockSizes block.length := by
      by_contra hnone
      rw [decodeBlock, if_pos (not_lt.mp hnone)] at hsome
      cases hsome
    obtain ⟨hlt, hsize⟩ := decodedBlockSizes_spec block.length (by omega) hpos
    obtain ⟨ds, hds⟩ := (decodeBlock_of_size h (by omega) hlt (by omega)).mp hsome
    exact ⟨_, ds, by omega, hlt, hsize, hds⟩
  · rintro ⟨size, ds, hpos, hlt, hsize, hds⟩
    have hdecoded := (blockSizes_spec size hlt hpos).1
    rw [hsize] at hdecoded
    exact (decodeBlock_of_size h hpos hlt hdecoded).mpr ⟨ds, hds⟩

/-! ### Round trips -/

theorem decodeBlock_encodeBlock (hpos : 0 < block.length) (hlt : block.length < 9)
    (h : encodeBlock block = some s) :
    s.length = encodedBlockSizes.getD block.length 0 ∧ decodeBlock s = some block := by
  have hspec := blockSizes_spec block.length hlt hpos
  have hnum := (value_bytes_lt block).trans_le hspec.2.1
  rw [encodeBlock_eq hpos hlt] at h
  obtain rfl := Option.some.inj h
  have hlength := length_digits (b := 58) (by decide) hnum
  rw [List.length_map, hlength]
  refine ⟨rfl, ?_⟩
  rw [decodeBlock_eq_some (by rw [List.length_map, hlength]; exact hspec.2.2)]
  refine ⟨block.length, _, hpos, hlt, by rw [List.length_map, hlength],
    ⟨fun d => lt_of_mem_digits (by decide), rfl⟩, ?_, ?_⟩
  · rw [value_digits (by decide) hnum]
    exact value_bytes_lt block
  · have hdigits := digits_value (b := 256) (by decide)
      fun d (hd : d ∈ block.map UInt8.toNat) => toNat_lt_of_mem_map hd
    rw [List.length_map] at hdigits
    rw [value_digits (by decide) hnum, hdigits, List.map_map]
    exact (List.map_id'' (fun b => UInt8.ofNat_toNat) block).symm

theorem encodeBlock_decodeBlock (hle : s.length ≤ 11) (h : decodeBlock s = some block) :
    0 < block.length ∧ block.length < 9 ∧ encodedBlockSizes.getD block.length 0 = s.length ∧
      encodeBlock block = some s := by
  obtain ⟨size, ds, hpos, hlt, hsize, hspells, hfit, rfl⟩ := (decodeBlock_eq_some hle).mp h
  have hlength := length_digits (b := 256) (by decide) hfit
  rw [encodeBlock_eq (by rwa [List.length_map, hlength]) (by rwa [List.length_map, hlength]),
    List.length_map, hlength]
  refine ⟨hpos, hlt, hsize, ?_⟩
  have hbytes : ((digits 256 size (value 58 ds)).map UInt8.ofNat).map UInt8.toNat =
      digits 256 size (value 58 ds) := by
    rw [List.map_map]
    refine (List.map_congr_left (g := id) fun d hd => ?_).trans (List.map_id _)
    exact UInt8.toNat_ofNat_of_lt' (lt_of_mem_digits (by decide) hd)
  rw [hbytes, value_digits (by decide) hfit, hsize, ← hspells.length,
    digits_value (by decide) hspells.1, ← hspells.2]

/-- The check of the length of the last field is made again by `decode_block`. -/
theorem decode_eq (enc : List UInt8) :
    decode enc = mapBlocks fullEncodedBlockSize decodeBlock
      (enc.length / fullEncodedBlockSize) enc := by
  rw [decode]
  split
  · rename_i hempty
    rw [List.isEmpty_iff.mp hempty]
    rfl
  split
  · rename_i hneg
    cases hrun : mapBlocks fullEncodedBlockSize decodeBlock (enc.length / fullEncodedBlockSize)
        enc with
    | none => rfl
    | some data =>
      -- the last field would have to be one that `decode_block` refuses
      have hlast :
          (enc.drop (fullEncodedBlockSize * (enc.length / fullEncodedBlockSize))).length =
            enc.length % fullEncodedBlockSize := by
        rw [List.length_drop, Nat.mod_eq_sub]
      have hne : enc.drop (fullEncodedBlockSize * (enc.length / fullEncodedBlockSize)) ≠ [] := by
        rw [← List.length_pos_iff, hlast, Nat.pos_iff_ne_zero]
        intro hzero
        rw [hzero] at hneg
        exact absurd hneg (by decide +kernel)
      obtain ⟨t, ht⟩ := mapBlocks_last hne hrun
      rw [decodeBlock, hlast, if_pos hneg.le] at ht
      cases ht
  · rfl

theorem encode_eq (data : List UInt8) :
    encode data = mapBlocks fullBlockSize encodeBlock (data.length / fullBlockSize) data := by
  cases data with
  | nil => rfl
  | cons b data => rfl

theorem encode_isSome (data : List UInt8) : ∃ s, encode data = some s := by
  simp only [encode_eq]
  refine exists_mapBlocks (by decide) (fun block hpos hle => ?_) data
  exact ⟨_, encodeBlock_eq hpos (Nat.lt_succ_of_le hle)⟩

theorem decode_encode_full (hlen : block.length = fullBlockSize)
    (h : encodeBlock block = some s) :
    s.length = fullEncodedBlockSize ∧ decodeBlock s = some block := by
  have := decodeBlock_encodeBlock (by rw [hlen]; decide) (by rw [hlen]; decide) h
  rwa [hlen] at this

theorem decode_encode_short (hpos : 0 < block.length) (hlt : block.length < fullBlockSize)
    (h : encodeBlock block = some s) :
    0 < s.length ∧ s.length < fullEncodedBlockSize ∧ decodeBlock s = some block := by
  have hlt' := hlt.trans (show 8 < 9 by decide)
  obtain ⟨hlen, hback⟩ := decodeBlock_encodeBlock hpos hlt' h
  rw [hlen]
  exact ⟨blockSizes_pos _ hlt' hpos, (blockSizes_lt_iff _ hlt').mpr hlt, hback⟩

theorem decode_encode (h : encode data = some s) : decode s = some data := by
  rw [encode_eq] at h
  rw [decode_eq]
  exact mapBlocks_inverse (by decide) (by decide) decode_encode_full
    decode_encode_short h

theorem length_encode_lt (h : encode data = some s) :
    s.length < fullEncodedBlockSize * (data.length / fullBlockSize + 1) := by
  rw [encode_eq] at h
  obtain ⟨r, hs, hr, -⟩ := mapBlocks_inverse_of_length (by decide) decode_encode_full
    decode_encode_short (Nat.div_add_mod data.length fullBlockSize).symm
    (Nat.mod_lt _ (by decide)) h
  rw [Nat.mul_succ]
  omega

theorem encode_decode (h : decode s = some data) : encode data = some s := by
  rw [decode_eq] at h
  rw [encode_eq]
  refine mapBlocks_inverse (by decide) (by decide) (fun hlen hblock => ?_)
    (fun hpos hlt hblock => ?_) h
  · obtain ⟨-, hlt, hsize, hback⟩ := encodeBlock_decodeBlock hlen.le hblock
    have hfull := blockSizes_lt_iff _ hlt
    rw [hsize, hlen] at hfull
    exact ⟨Nat.le_antisymm (Nat.le_of_lt_succ hlt) (not_lt.mp (hfull.not.mp (by decide))), hback⟩
  · obtain ⟨hpos', hlt', hsize, hback⟩ := encodeBlock_decodeBlock hlt.le hblock
    refine ⟨hpos', (blockSizes_lt_iff _ hlt').mp ?_, hback⟩
    rwa [hsize]

theorem encodeBlockLoop_letters {i num : Nat} {res : List UInt8}
    (hres : ∀ l ∈ res, 0 ≤ reverseAlphabet l) (h : encodeBlockLoop i num res = some s) :
    ∀ l ∈ s, 0 ≤ reverseAlphabet l := by
  induction i generalizing num res with
  | zero =>
    rw [encodeBlockLoop] at h
    split at h
    · cases h
    · obtain rfl := Option.some.inj h
      exact hres
  | succ i ih =>
    rw [encodeBlockLoop] at h
    split at h
    · refine ih (fun l hl => ?_) h
      rcases List.mem_or_eq_of_mem_set hl with hl | rfl
      · exact hres l hl
      · rw [alphabetSize, reverseAlphabet_letter _ (Nat.mod_lt _ (by decide))]
        exact Int.natCast_nonneg _
    · obtain rfl := Option.some.inj h
      exact hres

theorem decode_letters (h : decode s = some data) : ∀ l ∈ s, 0 ≤ reverseAlphabet l := by
  have hencode := encode_decode h
  rw [encode_eq] at hencode
  refine forall_mem_mapBlocks (fun hblock => encodeBlockLoop_letters (fun l hl => ?_) hblock)
    hencode
  rw [List.eq_of_mem_replicate hl]
  decide +kernel

/-- **Base58 is a bijection on its image.** Every byte string is encoded and
decoded again, the encoding of what a string decodes to is that string, and no two
strings decode to the same bytes. -/
theorem base58_bijective :
    (∀ d, ∃ s, encode d = some s ∧ decode s = some d) ∧
      (∀ s d, decode s = some d → encode d = some s) ∧
      ∀ s s' d, decode s = some d → decode s' = some d → s = s' := by
  refine ⟨fun d => ?_, fun s d => encode_decode, fun s s' d hs hs' => ?_⟩
  · obtain ⟨s, hs⟩ := encode_isSome d
    exact ⟨s, hs, decode_encode hs⟩
  · exact Option.some.inj ((encode_decode hs).symm.trans (encode_decode hs'))

end Base58

end Lethean
