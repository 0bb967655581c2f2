import Lethean.Common.IntUtil
import Lethean.Common.Strings
import Lethean.CryptonoteBasic.Types

/-!
# Lethean.Mnemonics.ElectrumWords

Mnemonic seeds: `bytes_to_words` and `words_to_bytes` of `electrum-words.cpp`, with the
maps of `language_base.h`. A key is written as 24 words of one language, three for every
four bytes, and a checksum word. On the way back the language is not known: the lists are
tried one after the other, and the first one that has the beginnings of all the words and
whose checksum agrees is taken to be the right one.

The word lists are parameters. What is proved of them is what `populate_maps` checks, and
that a word is not empty and has no blank or null character.
-/

namespace Lethean

namespace Mnemonics

abbrev Word := List UInt8

def seedLength : Nat := 24

/-! ### Languages -/

def isContinuation (b : UInt8) : Bool := b &&& 0xc0 = 0x80

/-- `utf8prefix`: the first `count` characters. -/
def utf8Prefix : Nat → Word → Word
  | 0, _ => []
  | _ + 1, [] => []
  | count + 1, b :: rest =>
    if b = 0 then []
    else b :: (rest.takeWhile isContinuation ++
      utf8Prefix count (rest.dropWhile isContinuation))

def trimmed (uniquePrefixLength : Nat) (word : Word) : Word :=
  if uniquePrefixLength < word.length then utf8Prefix uniquePrefixLength word else word

/-- `Language::Base`. -/
structure Language where
  languageName : List UInt8
  wordList : List Word
  uniquePrefixLength : Nat

namespace Language

/-- `map[key(word)] = ii` for all words; a later entry hides an earlier one. -/
def populate (key : Word → Word) (words : List Word) : List (Word × Nat) :=
  words.zipIdx.foldl (fun map entry => (key entry.1, entry.2) :: map) []

def wordMap (L : Language) : List (Word × Nat) := populate id L.wordList

def trimmedWordMap (L : Language) : List (Word × Nat) :=
  populate (trimmed L.uniquePrefixLength) L.wordList

/-- Whether `populate_maps` returns, given its flags; otherwise it throws. -/
def populateMaps (allowShortWords allowDuplicatePrefixes : Bool) (L : Language) : Prop :=
  L.wordList.length = 1626 ∧
  (allowShortWords = false → ∀ word ∈ L.wordList, L.uniquePrefixLength ≤ word.length) ∧
  (allowDuplicatePrefixes = false → (L.wordList.map (trimmed L.uniquePrefixLength)).Nodup)

/-- The index of a word of a seed. With a checksum the beginning of the word counts. -/
def find (L : Language) (hasChecksum : Bool) (word : Word) : Option Nat :=
  if hasChecksum then L.trimmedWordMap.lookup (utf8Prefix L.uniquePrefixLength word)
  else L.wordMap.lookup word

end Language

/-! ### Checksums -/

/-- One bit of `boost::crc_32_type`. -/
def crc32Step (crc : UInt32) : UInt32 :=
  if crc &&& 1 = 1 then crc >>> 1 ^^^ 0xEDB88320 else crc >>> 1

/-- `boost::crc_32_type`. -/
def crc32 (data : List UInt8) : UInt32 :=
  data.foldl (fun crc b => crc32Step^[8] (crc ^^^ b.toUInt32)) 0xFFFFFFFF ^^^ 0xFFFFFFFF

def createChecksumIndex (wordList : List Word) (uniquePrefixLength : Nat) : Nat :=
  (crc32 (wordList.flatMap (trimmed uniquePrefixLength))).toNat % seedLength

def checksumTest (seed : List Word) (uniquePrefixLength : Nat) : Bool :=
  let lastWord := seed.getLastD []
  let seed := seed.dropLast
  let checksum := seed.getD (createChecksumIndex seed uniquePrefixLength) []
  trimmed uniquePrefixLength checksum = trimmed uniquePrefixLength lastWord

/-! ### From words to bytes -/

/-- The loop of `find_seed_language` over the words. -/
def matchWords (L : Language) (hasChecksum : Bool) : List Word → Option (List Nat)
  | [] => some []
  | word :: seed =>
    match L.find hasChecksum word with
    | none => none
    | some index => (matchWords L hasChecksum seed).map (index :: ·)

/-- `find_seed_language`, on the languages that are still to be tried. -/
def findSeedLanguage (seed : List Word) (hasChecksum : Bool) :
    List Language → Option Language → Option (List Nat × Language)
  | [], fallback => fallback.map ([], ·)
  | L :: languages, fallback =>
    match matchWords L hasChecksum seed with
    | none => findSeedLanguage seed hasChecksum languages fallback
    | some matchedIndices =>
      if hasChecksum && !checksumTest seed L.uniquePrefixLength then
        findSeedLanguage seed hasChecksum languages (some L)
      else some (matchedIndices, L)

/-- `boost::split` at blanks, with `token_compress_on`, of a string that neither starts
nor ends with one. -/
def splitWords (words : List UInt8) : List Word :=
  let parts := words.splitOn (charCode ' ')
  if parts = [[]] then parts else parts.filter (· ≠ [])

/-- Four bytes from three indices, on `uint32_t`. -/
def wordsValue (n w1 w2 w3 : Nat) : Nat :=
  (w1 + n * ((n - w1 + w2) % n) + n * n * ((n - w2 + w3) % n)) % 2 ^ 32

/-- The loop of `words_to_bytes`. -/
def indicesToBytes (n : Nat) : List Nat → Option (List UInt8)
  | w1 :: w2 :: w3 :: rest =>
    let val := wordsValue n w1 w2 w3
    if val % n ≠ w1 then none
    else (indicesToBytes n rest).map (littleEndian 4 val ++ ·)
  | _ => some []

/-- `words_to_bytes`: the key and the name of the language. -/
def wordsToBytes (languages : List Language) (words : List UInt8) :
    Option (List UInt8 × List UInt8) :=
  let seed := splitWords (trim words)
  if seed.length ≠ seedLength / 2 ∧ seed.length ≠ seedLength ∧ seed.length ≠ seedLength + 1 then
    none
  else
    let hasChecksum := decide (seed.length = seedLength + 1)
    match findSeedLanguage seed hasChecksum languages none with
    | none => none
    | some (matchedIndices, language) =>
      if hasChecksum && !checksumTest seed language.uniquePrefixLength then none
      else
        let seed := if hasChecksum then seed.dropLast else seed
        match indicesToBytes language.wordList.length (matchedIndices.take seed.length) with
        | none => none
        | some dst =>
          some (if seed.length = seedLength / 2 then dst ++ dst else dst,
            language.languageName)

/-! ### From bytes to words -/

def valueWords (L : Language) (val : Nat) : List Word :=
  let n := L.wordList.length
  let w1 := val % n
  let w2 := (val / n + w1) % n
  let w3 := (val / n / n + w2) % n
  [L.wordList.getD w1 [], L.wordList.getD w2 [], L.wordList.getD w3 []]

/-- The loop of `bytes_to_words`: `words_store`. -/
def wordsStore (L : Language) : List UInt8 → List Word
  | b0 :: b1 :: b2 :: b3 :: rest =>
    valueWords L (ofLittleEndian [b0, b1, b2, b3]) ++ wordsStore L rest
  | _ => []

/-- `bytes_to_words`, with the languages it knows by name. -/
def bytesToWords (languages : List Language) (src : Blob 32) (languageName : List UInt8) :
    Option (List UInt8) :=
  match languages.find? fun L => decide (L.languageName = languageName) with
  | none => none
  | some L =>
    let store := wordsStore L src.toList
    -- a blank behind every word, the last of which is taken away again
    let words := (store.flatMap fun word => word ++ literal " ").dropLast
    some (words ++ literal " " ++ store.getD (createChecksumIndex store L.uniquePrefixLength) [])

/-! ### Languages that restore their own words -/

/-- What `populate_maps` checks of every language that is offered, and what is true of the
words of every list. Short words are allowed, as in the Spanish list. -/
structure Language.WellFormed (L : Language) : Prop where
  populated : L.populateMaps true false
  word : ∀ word ∈ L.wordList, word ≠ [] ∧ ∀ b ∈ word, b ≠ 0 ∧ isSpace b = false

variable {L : Language} {word : Word} {n : Nat} {seed : List Word}

theorem Language.WellFormed.length (hL : L.WellFormed) : L.wordList.length = 1626 := hL.populated.1

theorem Language.WellFormed.nodup (hL : L.WellFormed) :
    (L.wordList.map (trimmed L.uniquePrefixLength)).Nodup := hL.populated.2.2 rfl

theorem utf8Prefix_of_le {count : Nat} (hle : word.length ≤ count) (hnull : 0 ∉ word) :
    utf8Prefix count word = word := by
  induction count generalizing word with
  | zero => rw [List.length_eq_zero_iff.mp (Nat.le_zero.mp hle)]; rfl
  | succ count ih =>
    cases word with
    | nil => rfl
    | cons b rest =>
      rw [List.mem_cons, not_or] at hnull
      rw [List.length_cons] at hle
      have hsuffix := List.dropWhile_suffix isContinuation (l := rest)
      rw [utf8Prefix, if_neg (Ne.symm hnull.1), ih (by have := hsuffix.length_le; omega)
        (fun hmem => hnull.2 (hsuffix.subset hmem)), List.takeWhile_append_dropWhile]

theorem utf8Prefix_eq_trimmed {count : Nat} (hnull : 0 ∉ word) :
    utf8Prefix count word = trimmed count word := by
  rw [trimmed]
  split
  · rfl
  · rename_i hle
    exact utf8Prefix_of_le (not_lt.mp hle) hnull

theorem populate_eq (key : Word → Word) (words : List Word) :
    Language.populate key words =
      (words.zipIdx.map fun entry => (key entry.1, entry.2)).reverse := by
  rw [Language.populate, List.foldl_flip_cons_eq_append, List.append_nil]

theorem lookup_of_mem {α β : Type} [BEq α] [LawfulBEq α] {l : List (α × β)} {k : α} {v : β}
    (hnodup : (l.map Prod.fst).Nodup) (hmem : (k, v) ∈ l) : l.lookup k = some v := by
  obtain ⟨l1, l2, rfl⟩ := List.append_of_mem hmem
  refine List.lookup_eq_some_iff.mpr ⟨l1, l2, rfl, fun p hp => ?_⟩
  rw [List.map_append, List.map_cons] at hnodup
  rw [bne_iff_ne]
  rintro rfl
  exact (List.disjoint_of_nodup_append hnodup) (List.mem_map_of_mem hp) (by simp)

theorem lookup_populate {key : Word → Word} {words : List Word} (hnodup : (words.map key).Nodup)
    {i : Nat} (hi : i < words.length) :
    (Language.populate key words).lookup (key (words.getD i [])) = some i := by
  rw [populate_eq]
  refine lookup_of_mem ?_ (List.mem_reverse.mpr (List.mem_map.mpr ⟨(words.getD i [], i), ?_, rfl⟩))
  · rw [List.map_reverse, List.nodup_reverse, List.map_map]
    have hkeys : Prod.fst ∘ (fun entry : Word × Nat => (key entry.1, entry.2)) =
        key ∘ Prod.fst := rfl
    rwa [hkeys, ← List.map_map, List.zipIdx_map_fst]
  · rw [List.mem_zipIdx_iff_getElem?, List.getElem?_eq_getElem hi, List.getD_eq_getElem _ _ hi]

theorem Language.WellFormed.find_word (hL : L.WellFormed) {i : Nat} (hi : i < L.wordList.length) :
    L.find true (L.wordList.getD i []) = some i := by
  have hmem : L.wordList.getD i [] ∈ L.wordList := by
    rw [List.getD_eq_getElem _ _ hi]
    exact List.getElem_mem hi
  have hnull : 0 ∉ L.wordList.getD i [] := fun h => ((hL.word _ hmem).2 0 h).1 rfl
  rw [find, if_pos rfl, utf8Prefix_eq_trimmed hnull]
  exact lookup_populate hL.nodup hi

theorem Language.WellFormed.matchWords (hL : L.WellFormed) {indices : List Nat}
    (h : ∀ i ∈ indices, i < L.wordList.length) :
    Mnemonics.matchWords L true (indices.map fun i => L.wordList.getD i []) = some indices := by
  induction indices with
  | nil => rfl
  | cons i indices ih =>
    rw [List.map_cons, Mnemonics.matchWords, hL.find_word (h i (by simp)),
      ih fun j hj => h j (by simp [hj])]
    rfl

/-! ### Three words for four bytes -/

def valueIndices (n val : Nat) : List Nat :=
  let w1 := val % n
  let w2 := (val / n + w1) % n
  [w1, w2, (val / n / n + w2) % n]

/-- An index is a digit added to the index before it; the sum is taken apart again. -/
theorem sub_add_mod {w d : Nat} (hw : w < n) : (n - w + (d + w) % n) % n = d % n := by
  rw [Nat.add_mod_mod, show n - w + (d + w) = d + n by omega, Nat.add_mod_right]

theorem wordsValue_valueIndices {val : Nat} (hval : val < 2 ^ 32) (hn : 2 ^ 32 ≤ n * n * n) :
    wordsValue n (val % n) ((val / n + val % n) % n)
      ((val / n / n + (val / n + val % n) % n) % n) = val := by
  have hpos : 0 < n := Nat.pos_of_ne_zero (by rintro rfl; simp at hn)
  have htop : val / n / n < n := by
    rw [Nat.div_div_eq_div_mul, Nat.div_lt_iff_lt_mul (by positivity)]
    calc val < 2 ^ 32 := hval
      _ ≤ n * n * n := hn
      _ = n * (n * n) := by ring
  have hsum : val % n + n * (val / n % n) + n * n * (val / n / n) = val := by
    calc val % n + n * (val / n % n) + n * n * (val / n / n)
        = val % n + n * (val / n % n + n * (val / n / n)) := by ring
      _ = val % n + n * (val / n) := by rw [Nat.mod_add_div]
      _ = val := Nat.mod_add_div val n
  rw [wordsValue, sub_add_mod (Nat.mod_lt _ hpos), sub_add_mod (Nat.mod_lt _ hpos),
    Nat.mod_eq_of_lt htop, hsum, Nat.mod_eq_of_lt hval]

def bytesToIndices (n : Nat) : List UInt8 → List Nat
  | b0 :: b1 :: b2 :: b3 :: rest =>
    valueIndices n (ofLittleEndian [b0, b1, b2, b3]) ++ bytesToIndices n rest
  | _ => []

theorem wordsStore_eq (L : Language) : ∀ src : List UInt8,
    wordsStore L src =
      (bytesToIndices L.wordList.length src).map fun i => L.wordList.getD i []
  | b0 :: b1 :: b2 :: b3 :: rest => by
    rw [wordsStore, bytesToIndices, List.map_append, wordsStore_eq L rest]
    rfl
  | [] | [_] | [_, _] | [_, _, _] => rfl

theorem lt_of_mem_indices (hn : 0 < n) :
    ∀ {src : List UInt8}, ∀ i ∈ bytesToIndices n src, i < n
  | b0 :: b1 :: b2 :: b3 :: rest, i, hi => by
    rw [bytesToIndices] at hi
    rcases List.mem_append.mp hi with hi | hi
    · simp only [valueIndices, List.mem_cons, List.not_mem_nil, or_false] at hi
      rcases hi with rfl | rfl | rfl <;> exact Nat.mod_lt _ hn
    · exact lt_of_mem_indices hn i hi
  | [], _, hi | [_], _, hi | [_, _], _, hi | [_, _, _], _, hi => by simp [bytesToIndices] at hi

theorem length_indices (n : Nat) {m : Nat} {src : List UInt8} (h : src.length = 4 * m) :
    (bytesToIndices n src).length = 3 * m := by
  induction m generalizing src with
  | zero =>
    rw [List.length_eq_zero_iff.mp h]
    rfl
  | succ m ih =>
    match src, h with
    | b0 :: b1 :: b2 :: b3 :: rest, h =>
      simp only [List.length_cons] at h
      rw [bytesToIndices, List.length_append, ih (by omega)]
      simp only [valueIndices, List.length_cons, List.length_nil]
      omega

theorem indicesToBytes_indices {m : Nat} (hn : 2 ^ 32 ≤ n * n * n) {src : List UInt8}
    (h : src.length = 4 * m) : indicesToBytes n (bytesToIndices n src) = some src := by
  induction m generalizing src with
  | zero =>
    rw [List.length_eq_zero_iff.mp h]
    rfl
  | succ m ih =>
    match src, h with
    | b0 :: b1 :: b2 :: b3 :: rest, h =>
      simp only [List.length_cons] at h
      have hval : ofLittleEndian [b0, b1, b2, b3] < 2 ^ 32 := by
        have h0 := b0.toNat_lt
        have h1 := b1.toNat_lt
        have h2 := b2.toNat_lt
        have h3 := b3.toNat_lt
        simp only [ofLittleEndian]
        omega
      have hback : littleEndian 4 (ofLittleEndian [b0, b1, b2, b3]) = [b0, b1, b2, b3] :=
        littleEndian_ofLittleEndian [b0, b1, b2, b3]
      rw [bytesToIndices]
      generalize ofLittleEndian [b0, b1, b2, b3] = val at *
      rw [valueIndices, List.cons_append, List.cons_append, List.cons_append, List.nil_append,
        indicesToBytes, wordsValue_valueIndices hval hn, if_neg (not_not.mpr rfl),
        ih (by omega), hback]
      rfl

/-! ### The text of a seed -/

/-- The words that `bytes_to_words` writes. -/
def seedWords (L : Language) (src : Blob 32) : List Word :=
  let store := wordsStore L src.toList
  store ++ [store.getD (createChecksumIndex store L.uniquePrefixLength) []]

section

variable {L : Language} (src : Blob 32)

theorem length_wordsStore : (wordsStore L src.toList).length = seedLength := by
  rw [wordsStore_eq, List.length_map, length_indices L.wordList.length (m := 8)]
  · rfl
  · rw [List.Vector.toList_length]

theorem length_seedWords : (seedWords L src).length = seedLength + 1 := by
  rw [seedWords, List.length_append, length_wordsStore, List.length_singleton]

theorem createChecksumIndex_lt (words : List Word) (uniquePrefixLength : Nat) :
    createChecksumIndex words uniquePrefixLength < seedLength := Nat.mod_lt _ (by decide)

theorem seedWords_eq (hpos : 0 < L.wordList.length) :
    ∃ last, last < L.wordList.length ∧
      seedWords L src =
        (bytesToIndices L.wordList.length src.toList ++ [last]).map
          fun i => L.wordList.getD i [] := by
  have hlt := createChecksumIndex_lt (wordsStore L src.toList) L.uniquePrefixLength
  have hlen := length_wordsStore (L := L) src
  rw [seedWords]
  generalize createChecksumIndex (wordsStore L src.toList) L.uniquePrefixLength = j at *
  rw [wordsStore_eq] at hlen ⊢
  rw [List.length_map] at hlen
  have hj : j < (bytesToIndices L.wordList.length src.toList).length := hlen ▸ hlt
  refine ⟨(bytesToIndices L.wordList.length src.toList)[j],
    lt_of_mem_indices hpos _ (List.getElem_mem hj), ?_⟩
  rw [List.map_append, List.getD_eq_getElem _ _ (by rwa [List.length_map]), List.getElem_map]
  rfl

theorem matchWords_seedWords (hL : L.WellFormed) :
    ∃ last, matchWords L true (seedWords L src) =
      some (bytesToIndices L.wordList.length src.toList ++ [last]) := by
  have hpos : 0 < L.wordList.length := hL.length ▸ by decide
  obtain ⟨last, hlast, hseed⟩ := seedWords_eq (L := L) src hpos
  refine ⟨last, ?_⟩
  rw [hseed]
  exact hL.matchWords (forall_mem_concat.mpr ⟨lt_of_mem_indices hpos, hlast⟩)

theorem mem_wordList_of_mem_seedWords (hL : L.WellFormed) {word : Word}
    (h : word ∈ seedWords L src) : word ∈ L.wordList := by
  have hpos : 0 < L.wordList.length := hL.length ▸ by decide
  obtain ⟨last, hlast, hseed⟩ := seedWords_eq (L := L) src hpos
  rw [hseed] at h
  obtain ⟨i, hi, rfl⟩ := List.mem_map.mp h
  have hi' : i < L.wordList.length :=
    forall_mem_concat.mpr ⟨lt_of_mem_indices hpos, hlast⟩ i hi
  rw [List.getD_eq_getElem _ _ hi']
  exact List.getElem_mem hi'

/-- The checksum word is the one that `checksum_test` looks for. -/
theorem checksumTest_seedWords : checksumTest (seedWords L src) L.uniquePrefixLength = true := by
  rw [checksumTest, seedWords]
  simp

theorem dropLast_flatMap {x : UInt8} {l : List Word} (h : l ≠ []) :
    (l.flatMap fun a => a ++ [x]).dropLast ++ [x] = l.flatMap fun a => a ++ [x] := by
  obtain ⟨init, a, rfl⟩ := List.eq_nil_or_concat l |>.resolve_left h
  simp

theorem bytesToWords_eq {languages : List Language}
    (hfind : (languages.find? fun L' => decide (L'.languageName = L.languageName)) = some L) :
    bytesToWords languages src L.languageName =
      some ([charCode ' '].intercalate (seedWords L src)) := by
  have hne : wordsStore L src.toList ≠ [] := by
    rw [← List.length_pos_iff, length_wordsStore]
    decide
  rw [bytesToWords, hfind, seedWords, intercalate_concat, ← dropLast_flatMap hne]
  rfl

theorem splitWords_intercalate {words : List Word} (hne : words ≠ [])
    (hwords : ∀ word ∈ words, word ≠ [] ∧ ∀ b ∈ word, isSpace b = false) :
    splitWords (trim ([charCode ' '].intercalate words)) = words := by
  have htrim : trim ([charCode ' '].intercalate words) = [charCode ' '].intercalate words := by
    refine trim_eq_self (fun b hb => ?_) fun b hb => ?_
    · obtain ⟨word, rest, rfl⟩ := List.exists_cons_of_ne_nil hne
      obtain ⟨hword, hspace⟩ := hwords word (by simp)
      rw [intercalate_cons, List.head?_append_of_ne_nil _ hword] at hb
      exact hspace b (List.mem_of_head? hb)
    · obtain ⟨init, word, rfl⟩ := List.eq_nil_or_concat words |>.resolve_left hne
      obtain ⟨hword, hspace⟩ := hwords word (by simp)
      rw [List.concat_eq_append, intercalate_concat, List.getLast?_append_of_ne_nil _ hword] at hb
      exact hspace b (List.mem_of_getLast? hb)
  have hsplit := List.splitOn_intercalate (charCode ' ') (fun word hword hmem =>
    absurd ((hwords word hword).2 _ hmem) (by decide)) hne
  rw [htrim, splitWords, hsplit, if_neg, List.filter_eq_self.mpr]
  · exact fun word hword => decide_eq_true (hwords word hword).1
  · rintro rfl
    exact (hwords [] (by simp)).1 rfl

end

/-! ### The language of a seed -/

/-- A language takes a seed for its own if it has the beginnings of all the words and the
checksum agrees. -/
def Language.Takes (L : Language) (seed : List Word) : Prop :=
  (∀ word ∈ seed, (L.find true word).isSome = true) ∧
    checksumTest seed L.uniquePrefixLength = true

theorem matchWords_isSome :
    (matchWords L true seed).isSome = true ↔ ∀ word ∈ seed, (L.find true word).isSome = true := by
  induction seed with
  | nil => simp [matchWords]
  | cons word seed ih =>
    rw [matchWords, List.forall_mem_cons]
    cases L.find true word with
    | none => simp
    | some index => simp [ih]

theorem findSeedLanguage_of_not_takes (h : ¬ L.Takes seed) (languages : List Language)
    (fallback : Option Language) :
    ∃ fallback', findSeedLanguage seed true (L :: languages) fallback =
      findSeedLanguage seed true languages fallback' := by
  rw [findSeedLanguage]
  cases hmatch : matchWords L true seed with
  | none => exact ⟨fallback, rfl⟩
  | some indices =>
    have hall := matchWords_isSome.mp (Option.isSome_iff_exists.mpr ⟨indices, hmatch⟩)
    have htest : checksumTest seed L.uniquePrefixLength = false :=
      Bool.eq_false_iff.mpr fun htest => h ⟨hall, htest⟩
    exact ⟨some L, by rw [htest]; rfl⟩

theorem seedLanguage_of_takes {indices : List Nat}
    (hmatch : matchWords L true seed = some indices)
    (htest : checksumTest seed L.uniquePrefixLength = true) (languages : List Language)
    (fallback : Option Language) :
    findSeedLanguage seed true (L :: languages) fallback = some (indices, L) := by
  rw [findSeedLanguage, hmatch, htest]
  rfl

theorem findSeedLanguage_append {seed : List Word} {before : List Language} {L : Language}
    {indices : List Nat} (hmatch : matchWords L true seed = some indices)
    (htest : checksumTest seed L.uniquePrefixLength = true) (after : List Language)
    (fallback : Option Language) :
    ((∀ L' ∈ before, ¬ L'.Takes seed) →
      findSeedLanguage seed true (before ++ L :: after) fallback = some (indices, L)) ∧
    (¬ (∀ L' ∈ before, ¬ L'.Takes seed) → ∃ indices', ∃ L' ∈ before,
      findSeedLanguage seed true (before ++ L :: after) fallback = some (indices', L')) := by
  induction before generalizing fallback with
  | nil => exact ⟨fun _ => seedLanguage_of_takes hmatch htest after fallback, by simp⟩
  | cons first before ih =>
    by_cases hfirst : first.Takes seed
    · obtain ⟨indices', hmatch'⟩ := Option.isSome_iff_exists.mp (matchWords_isSome.mpr hfirst.1)
      refine ⟨fun hnone => absurd hfirst (hnone first (by simp)), fun _ => ?_⟩
      exact ⟨indices', first, by simp,
        seedLanguage_of_takes hmatch' hfirst.2 (before ++ L :: after) fallback⟩
    · obtain ⟨fallback', hnext⟩ :=
        findSeedLanguage_of_not_takes hfirst (before ++ L :: after) fallback
      rw [List.cons_append, hnext, List.forall_mem_cons]
      refine ⟨fun hnone => (ih fallback').1 hnone.2, fun hsome => ?_⟩
      obtain ⟨indices', L', hL', hfound⟩ :=
        (ih fallback').2 fun hnone => hsome ⟨hfirst, hnone⟩
      exact ⟨indices', L', by simp [hL'], hfound⟩

theorem toBytes_intercalate (hlen : seed.length = seedLength + 1)
    (hwords : ∀ word ∈ seed, word ≠ [] ∧ ∀ b ∈ word, isSpace b = false)
    (languages : List Language) :
    wordsToBytes languages ([charCode ' '].intercalate seed) =
      match findSeedLanguage seed true languages none with
      | none => none
      | some (matchedIndices, language) =>
        if checksumTest seed language.uniquePrefixLength = false then none
        else
          (indicesToBytes language.wordList.length (matchedIndices.take seedLength)).map
            (·, language.languageName) := by
  have hne : seed ≠ [] := List.length_pos_iff.mp (by omega)
  rw [wordsToBytes, splitWords_intercalate hne hwords, hlen, if_neg (by simp)]
  dsimp only
  rw [decide_eq_true rfl]
  cases findSeedLanguage seed true languages none with
  | none => rfl
  | some found =>
    have hdrop : seed.dropLast.length = seedLength := by
      rw [List.length_dropLast, hlen]
      rfl
    dsimp only
    cases htest : checksumTest seed found.2.uniquePrefixLength with
    | false => rfl
    | true =>
      rw [if_neg (by simp), if_pos rfl, hdrop, if_neg (by simp)]
      cases indicesToBytes found.2.wordList.length (found.1.take seedLength) <;> rfl

/-- **Mnemonic seeds restore the key** exactly if no list that is tried before the right
one takes the words for its own. -/
theorem seed_restores_key_iff {offered before : List Language} {L : Language} (hL : L.WellFormed)
    (hoffered : (offered.find? fun L' => decide (L'.languageName = L.languageName)) = some L)
    (hnames : ∀ L' ∈ before, L'.languageName ≠ L.languageName) (after : List Language)
    (src : Blob 32) :
    ∃ words, bytesToWords offered src L.languageName = some words ∧
      (splitWords (trim words)).length = seedLength + 1 ∧
      (wordsToBytes (before ++ L :: after) words = some (src.toList, L.languageName) ↔
        ∀ L' ∈ before, ¬ L'.Takes (seedWords L src)) := by
  obtain ⟨last, hmatch⟩ := matchWords_seedWords src hL
  have htest := checksumTest_seedWords (L := L) src
  have hlen := length_seedWords (L := L) src
  have hwords : ∀ word ∈ seedWords L src, word ≠ [] ∧ ∀ b ∈ word, isSpace b = false := by
    intro word hword
    obtain ⟨hne, hbytes⟩ := hL.word word (mem_wordList_of_mem_seedWords src hL hword)
    exact ⟨hne, fun b hb => (hbytes b hb).2⟩
  obtain ⟨hright, hwrong⟩ := @findSeedLanguage_append _ before _ _ hmatch htest after none
  refine ⟨_, bytesToWords_eq src hoffered, ?_, ?_⟩
  · rw [splitWords_intercalate (List.length_pos_iff.mp (by omega)) hwords, hlen]
  rw [toBytes_intercalate hlen hwords]
  constructor
  · intro hsome
    by_contra hnot
    obtain ⟨indices', L', hL', hfound⟩ := hwrong hnot
    rw [hfound] at hsome
    dsimp only at hsome
    split at hsome
    · cases hsome
    · obtain ⟨dst, -, heq⟩ := Option.map_eq_some_iff.mp hsome
      exact hnames L' hL' (Prod.mk.inj heq).2
  · intro hnone
    rw [hright hnone]
    dsimp only
    have hindices : (bytesToIndices L.wordList.length src.toList).length = seedLength := by
      rw [length_indices (m := 8) _ (by rw [List.Vector.toList_length])]
      rfl
    have hradix : 2 ^ 32 ≤ L.wordList.length * L.wordList.length * L.wordList.length := by
      rw [hL.length]
      decide
    rw [if_neg (by simp [htest]), List.take_left' hindices,
      indicesToBytes_indices (m := 8) hradix (by rw [List.Vector.toList_length])]
    rfl

/-! ### Two lists -/

def otherWords : List Word :=
  let letters := literal "bcdefghijklmnopqrstuvwxyz"
  letters.flatMap fun x => letters.flatMap fun y => letters.map fun z => [x, y, z]

/-- A list with the name, the length of the beginnings and the first word of
`Language::English`. -/
def englishLike : Language := ⟨literal "English", literal "abbey" :: otherWords.take 1625, 3⟩

/-- A list with the name, the length of the beginnings and the first two words of
`Language::Italian`. -/
def italianLike : Language :=
  ⟨literal "Italiano", literal "abbandono" :: literal "abbonato" :: otherWords.take 1624, 4⟩

/-- A check that a list is well formed, for words that are sorted. -/
theorem Language.wellFormed_of_sorted (hlength : L.wordList.length = 1626)
    (hsorted : ((L.wordList.map (trimmed L.uniquePrefixLength)).map fun word =>
      ofLittleEndian (word.rightpad 4 0).reverse).IsChain (· < ·))
    (hwords : (L.wordList.all fun word =>
      !word.isEmpty && word.all fun b => b != 0 && !isSpace b) = true) : L.WellFormed := by
  refine ⟨⟨hlength, nofun, fun _ => ?_⟩, fun word hword => ?_⟩
  · exact List.Nodup.of_map _ ((List.isChain_iff_pairwise.mp hsorted).imp Nat.ne_of_lt)
  · simpa using List.all_eq_true.mp hwords word hword

theorem englishLike_wellFormed : englishLike.WellFormed :=
  Language.wellFormed_of_sorted (by decide +kernel) (by decide +kernel) (by decide +kernel)

theorem italianLike_wellFormed : italianLike.WellFormed :=
  Language.wellFormed_of_sorted (by decide +kernel) (by decide +kernel) (by decide +kernel)

/-- The Italian list, tried first, does not have the word of this English seed. -/
theorem seed_restores_key_second :
    ∃ words, bytesToWords [italianLike, englishLike] (List.Vector.replicate 32 0)
        englishLike.languageName = some words ∧
      wordsToBytes [italianLike, englishLike] words =
        some (List.replicate 32 0, englishLike.languageName) := by
  obtain ⟨words, hwords, -, hiff⟩ := @seed_restores_key_iff [italianLike, englishLike]
    [italianLike] englishLike englishLike_wellFormed rfl (by decide) [] (List.Vector.replicate 32 0)
  refine ⟨words, hwords, hiff.mpr (List.forall_mem_singleton.mpr fun htakes => ?_)⟩
  have hword : literal "abbey" ∈ wordsStore englishLike (List.replicate 32 0) := by decide +kernel
  exact absurd (htakes.1 _ (List.mem_append_left _ hword)) (by decide +kernel)

theorem checksumTest_replicate (word : Word) (uniquePrefixLength : Nat) :
    checksumTest (List.replicate (seedLength + 1) word) uniquePrefixLength = true := by
  have hlt := createChecksumIndex_lt (List.replicate seedLength word) uniquePrefixLength
  rw [checksumTest, List.replicate_succ', List.dropLast_concat,
    List.getD_eq_getElem _ _ (by rwa [List.length_replicate]), List.getElem_replicate]
  simp

theorem matchWords_replicate {index : Nat} (h : L.find true word = some index) (n : Nat) :
    matchWords L true (List.replicate n word) = some (List.replicate n index) := by
  induction n with
  | zero => rfl
  | succ n ih =>
    rw [List.replicate_succ, matchWords, h, ih]
    rfl

def repeatedKey : Blob 32 := ⟨(List.replicate 8 [1, 0, 0, 0]).flatten, rfl⟩

/-- "abbonato" begins like "abbey", the first word of the English list, which is tried
first: the seed is read as an English one, of another key. -/
theorem italian_seed_read_as_english :
    englishLike.WellFormed ∧ italianLike.WellFormed ∧
      (bytesToWords [englishLike, italianLike] repeatedKey italianLike.languageName).bind
          (wordsToBytes [englishLike, italianLike]) =
        some (List.replicate 32 0, englishLike.languageName) := by
  refine ⟨englishLike_wellFormed, italianLike_wellFormed, ?_⟩
  have hstore : wordsStore italianLike repeatedKey.toList =
      List.replicate seedLength (literal "abbonato") := by decide +kernel
  have hfind : englishLike.find true (literal "abbonato") = some 0 := by decide +kernel
  have hseed : seedWords italianLike repeatedKey =
      List.replicate (seedLength + 1) (literal "abbonato") := by
    have hlt := createChecksumIndex_lt (List.replicate seedLength (literal "abbonato"))
      italianLike.uniquePrefixLength
    rw [seedWords, hstore, List.getD_eq_getElem _ _ (by rwa [List.length_replicate]),
      List.getElem_replicate, List.replicate_succ']
  have hwords : ∀ word ∈ List.replicate (seedLength + 1) (literal "abbonato"),
      word ≠ [] ∧ ∀ b ∈ word, isSpace b = false := by
    intro word hword
    rw [List.eq_of_mem_replicate hword]
    decide +kernel
  rw [bytesToWords_eq repeatedKey rfl, hseed, Option.bind_some,
    toBytes_intercalate (List.length_replicate) hwords,
    seedLanguage_of_takes (matchWords_replicate hfind _) (checksumTest_replicate _ _)]
  dsimp only
  rw [if_neg (by rw [checksumTest_replicate]; simp), List.take_replicate,
    englishLike_wellFormed.length]
  decide

end Mnemonics

end Lethean
