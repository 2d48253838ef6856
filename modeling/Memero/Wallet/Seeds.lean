import Memero.Wallet.Mnemonics

/-!
# Seeds and keys

What a phrase restores. The first 24 words of a phrase of 25 are positions in the list, the last one
has to repeat one of them; every number of 32 bits has its three positions, but three positions need
not stand for a number of 32 bits.
-/

namespace Memero

open List Nat Option Tokens Except

/-! ## Three positions -/

/-- The number that three positions stand for. -/
def tripleValue (wordListLength w1 w2 w3 : Nat) : Nat :=
  w1 + wordListLength * ((wordListLength - w1 + w2) % wordListLength) +
    wordListLength * wordListLength * ((wordListLength - w2 + w3) % wordListLength)

variable (wordListLength : Nat)

theorem decodeTriple_eq (w1 w2 w3 : Nat) :
    decodeTriple wordListLength w1 w2 w3 = Word.wrap 32 (tripleValue wordListLength w1 w2 w3) :=
  rfl

theorem encodeTriple_length (w0 : Nat) : (encodeTriple wordListLength w0).length = 3 :=
  rfl

theorem encodeTriple_lt (w0 : Nat) : ∀ i ∈ encodeTriple nwords w0, i < nwords := by
  simp [encodeTriple, nwords, mod_lt]

variable {w1 w2 w3 : Nat}

/-- Positions are the digits of the number they stand for. -/
theorem encodeTriple_tripleValue (first : w1 < nwords) (second : w2 < nwords)
    (third : w3 < nwords) : encodeTriple nwords (tripleValue nwords w1 w2 w3) = [w1, w2, w3] := by
  unfold encodeTriple tripleValue
  simp only [nwords] at *
  have low : (w1 + 1626 * ((1626 - w1 + w2) % 1626) + 1626 * 1626 * ((1626 - w2 + w3) % 1626)) %
      1626 = w1 := by omega
  simp only [cons.injEq, and_true, true_and]
  omega

/-- A digit is what a position adds to the one before. -/
theorem digit_eq {position : Nat} (inside : position < nwords) (digit : Nat) :
    (nwords - position + (digit + position) % nwords) % nwords = digit % nwords := by
  simp only [nwords] at *
  omega

/-- A number stands behind its positions. -/
theorem tripleValue_encodeTriple {w0 : Nat} (fits : w0 < nwords ^ 3)
    (encoded : encodeTriple nwords w0 = [w1, w2, w3]) : tripleValue nwords w1 w2 w3 = w0 := by
  obtain ⟨rfl, rfl, rfl⟩ := encoded
  have positive : 0 < nwords := by decide
  unfold tripleValue
  rw [digit_eq (mod_lt _ positive)]
  simp only [nwords] at *
  omega

theorem pow_lt_nwords : 2 ^ 32 < nwords ^ 3 := by
  decide

/-- A number of 32 bits is restored from its positions. -/
theorem decodeTriple_encodeTriple {w0 : Nat} (fits : w0 < 2 ^ 32)
    (encoded : encodeTriple nwords w0 = [w1, w2, w3]) : decodeTriple nwords w1 w2 w3 = w0 := by
  rw [decodeTriple_eq, tripleValue_encodeTriple (lt_trans fits pow_lt_nwords) encoded,
    Word.wrap_of_lt fits]

/-- Positions come back from what is restored from them if they stand for a number of 32 bits. -/
theorem encodeTriple_decodeTriple_iff (first : w1 < nwords) (second : w2 < nwords)
    (third : w3 < nwords) :
    encodeTriple nwords (decodeTriple nwords w1 w2 w3) = [w1, w2, w3] ↔
      tripleValue nwords w1 w2 w3 < 2 ^ 32 := by
  constructor
  · intro same
    have fits : decodeTriple nwords w1 w2 w3 < 2 ^ 32 := Word.wrap_lt _
    rwa [tripleValue_encodeTriple (lt_trans fits pow_lt_nwords) same]
  · intro fits
    rw [decodeTriple_eq, Word.wrap_of_lt fits, encodeTriple_tripleValue first second third]

/-! ## Positions of a key -/

/-- The positions of a source, three for every four bytes. -/
def keyIndices (src : List UInt8) : List Nat :=
  (List.range (src.length / 4)).flatMap fun i => encodeTriple nwords (sourceWord src i)

theorem keyIndices_lt (src : List UInt8) : ∀ i ∈ keyIndices src, i < nwords := by
  intro i member
  obtain ⟨_, _, inside⟩ := mem_flatMap.mp member
  exact encodeTriple_lt _ i inside

theorem keyIndices_length {src : List UInt8} (size : src.length = secretKeySize) :
    (keyIndices src).length = 24 := by
  rw [keyIndices, size]
  rfl

theorem decodeIndices_length (matchedIndices : List Nat) (triples : Nat) :
    (decodeIndices wordListLength matchedIndices triples).length = triples * 4 :=
  length_flatMap_range fun _ _ => littleEndian_length _ _

variable {indices : List Nat}

/-- Positions behind the triples do not count. -/
theorem getD_append_front (size : indices.length = 24) (rest : List Nat) {j : Nat}
    (inside : j < 24) : (indices ++ rest).getD j 0 = indices.getD j 0 := by
  rw [getD_eq_getElem?_getD, getElem?_append_left (size ▸ inside), getD_eq_getElem?_getD]

theorem decodeIndices_append (size : indices.length = 24) (rest : List Nat) :
    decodeIndices nwords (indices ++ rest) 8 = decodeIndices nwords indices 8 := by
  apply flatMap_congr
  intro i member
  have below := List.mem_range.mp member
  rw [getD_append_front size rest (show i * 3 < 24 by omega),
    getD_append_front size rest (show i * 3 + 1 < 24 by omega),
    getD_append_front size rest (show i * 3 + 2 < 24 by omega)]

variable {i : Nat}

/-- Three positions in a row. -/
theorem getD_of_piece {a b c : Nat} (found : piece 3 indices i = [a, b, c]) :
    indices.getD (i * 3) 0 = a ∧ indices.getD (i * 3 + 1) 0 = b ∧
      indices.getD (i * 3 + 2) 0 = c := by
  have first := getElem?_piece indices i (show 0 < 3 by decide)
  have second := getElem?_piece indices i (show 1 < 3 by decide)
  have third := getElem?_piece indices i (show 2 < 3 by decide)
  rw [found] at first second third
  simp only [getD_eq_getElem?_getD]
  rw [← second, ← third, ← add_zero (i * 3), ← first]
  exact ⟨rfl, rfl, rfl⟩

/-- The bytes of a key come back from its positions. -/
theorem decodeIndices_keyIndices {key : List UInt8} (size : key.length = secretKeySize) :
    decodeIndices nwords (keyIndices key) 8 = key := by
  have length : key.length = 8 * 4 := size
  have count : key.length / 4 = 8 := by
    rw [length]
  unfold decodeIndices keyIndices
  rw [count]
  refine Eq.trans (flatMap_congr ?_) (flatMap_piece length)
  intro i member
  have below := List.mem_range.mp member
  have pieces : (piece 4 key i).length = 4 := length_piece (le_of_eq length.symm) below
  have positions := @piece_flatMap _ 3 8 (fun i => encodeTriple nwords (sourceWord key i))
    (fun i _ => encodeTriple_length _ (sourceWord key i)) [] i below
  rw [append_nil] at positions
  obtain ⟨first, second, third⟩ := getD_of_piece (positions.trans rfl)
  have fits : sourceWord key i < 2 ^ 32 := by
    have bound := ofBigEndian_lt (piece 4 key i).reverse
    rwa [length_reverse, pieces] at bound
  rw [first, second, third, decodeTriple_encodeTriple fits rfl]
  exact littleEndian_ofBigEndian pieces

/-- A word of what is restored. -/
theorem sourceWord_decodeIndices (indices : List Nat) (below : i < 8) :
    sourceWord (decodeIndices nwords indices 8) i =
      decodeTriple nwords (indices.getD (i * 3) 0) (indices.getD (i * 3 + 1) 0)
        (indices.getD (i * 3 + 2) 0) := by
  have written := @piece_flatMap _ 4 8
    (fun i => littleEndian 4 (decodeTriple nwords (indices.getD (i * 3) 0)
      (indices.getD (i * 3 + 1) 0) (indices.getD (i * 3 + 2) 0)))
    (fun _ _ => littleEndian_length _ _) [] i below
  rw [append_nil] at written
  unfold sourceWord
  rw [decodeIndices, written, ofBigEndian_littleEndian]
  exact Word.wrap_lt _

/-- Positions of which every three stand for a number of 32 bits. -/
def Representable (indices : List Nat) : Prop :=
  ∀ i < 8, tripleValue nwords (indices.getD (i * 3) 0) (indices.getD (i * 3 + 1) 0)
    (indices.getD (i * 3 + 2) 0) < 2 ^ 32

/-- The positions of what is restored are those of the phrase exactly if every three of them stand
for a number of 32 bits. -/
theorem keyIndices_decodeIndices_iff (size : indices.length = 24)
    (inside : ∀ i ∈ indices, i < nwords) :
    keyIndices (decodeIndices nwords indices 8) = indices ↔ Representable indices := by
  have length : indices.length = 8 * 3 := size
  have word_eq (i : Nat) (below : i < 8) : encodeTriple nwords
      (sourceWord (decodeIndices nwords indices 8) i) = piece 3 indices i ↔
        tripleValue nwords (indices.getD (i * 3) 0) (indices.getD (i * 3 + 1) 0)
          (indices.getD (i * 3 + 2) 0) < 2 ^ 32 := by
    obtain ⟨a, b, c, found⟩ := length_eq_three.mp (length_piece (le_of_eq length.symm) below)
    have listed (w : Nat) (member : w ∈ [a, b, c]) : w < nwords :=
      inside w (mem_of_mem_drop (mem_of_mem_take (found ▸ member)))
    obtain ⟨first, second, third⟩ := getD_of_piece found
    rw [sourceWord_decodeIndices _ below, found, first, second, third]
    exact encodeTriple_decodeTriple_iff (listed a (by simp)) (listed b (by simp))
      (listed c (by simp))
  unfold keyIndices
  rw [decodeIndices_length]
  constructor
  · intro same i below
    have written := @piece_flatMap _ 3 8
      (fun i => encodeTriple nwords (sourceWord (decodeIndices nwords indices 8) i))
      (fun _ _ => encodeTriple_length _ _) [] i below
    rw [append_nil, same] at written
    exact (word_eq i below).mp written.symm
  · intro fits
    refine Eq.trans (flatMap_congr ?_) (flatMap_piece length)
    intro i member
    have below := List.mem_range.mp member
    exact (word_eq i below).mpr (fits i below)

theorem representable_append (size : indices.length = 24) (rest : List Nat) :
    Representable (indices ++ rest) ↔ Representable indices := by
  refine forall_congr' fun i => forall_congr' fun below => ?_
  rw [getD_append_front size rest (show i * 3 < 24 by omega),
    getD_append_front size rest (show i * 3 + 1 < 24 by omega),
    getD_append_front size rest (show i * 3 + 2 < 24 by omega)]

/-! ## Positions of a phrase -/

namespace LoadedLanguage

variable (language : LoadedLanguage)

theorem count : language.wordList.length = nwords := by
  have populated := language.populated
  unfold Language.populateMaps at populated
  split at populated
  · cases populated
  · rename_i size
    exact not_not.mp size

theorem entered : language.Entered language.maps language.wordList := by
  have populated := language.populated
  unfold Language.populateMaps at populated
  rw [if_neg (not_not.mpr language.count)] at populated
  exact Language.Entered.nil.foldlM populated

variable (words : List MnemonicWord)

theorem prefixes_length : (language.prefixes words).length = words.length :=
  length_map _

theorem prefixes_getElem? (i : Nat) :
    (language.prefixes words)[i]? = words[i]?.map (utf8Prefix language.uniquePrefixLength) :=
  getElem?_map

/-- Prefixes of no characters would all be the same. -/
theorem uniquePrefixLength_pos : 0 < language.uniquePrefixLength := by
  apply Nat.pos_of_ne_zero
  intro zero
  have distinct := language.entered.distinct
  have size := language.prefixes_length language.wordList
  rw [language.count] at size
  have equal : ∀ i (inside : i < (language.prefixes language.wordList).length),
      (language.prefixes language.wordList)[i] = [] := by
    intro i inside
    simp [Language.prefixes, zero, utf8Prefix]
  have first := equal 0 (by rw [size]; decide)
  have second := equal 1 (by rw [size]; decide)
  have same := (distinct.getElem_inj_iff).mp (first.trans second.symm)
  cases same

/-- The prefix at a position. -/
def prefixAt (i : Nat) : MnemonicWord :=
  (language.prefixes language.wordList).getD i []

variable {i : Nat} {indices : List Nat}

theorem find_prefixAt (inside : i < nwords) :
    language.maps.trimmedWordMap.find (language.prefixAt i) = some i := by
  rw [language.entered.trimmed, prefixAt, getD_eq_getElem?_getD,
    getElem?_eq_getElem (by rw [prefixes_length, count]; exact inside), getD_some]

theorem find_eq_some {stem : MnemonicWord}
    (found : language.maps.trimmedWordMap.find stem = some i) :
    i < nwords ∧ language.prefixAt i = stem := by
  have position := (language.entered.trimmed stem i).mp found
  constructor
  · have inside := (List.getElem?_eq_some_iff.mp position).1
    rwa [prefixes_length, count] at inside
  · rw [prefixAt, getD_eq_getElem?_getD, position, getD_some]

/-- Positions and their prefixes determine each other. -/
theorem mapM_find_eq_some {stems : List MnemonicWord} :
    stems.mapM language.maps.trimmedWordMap.find = some indices ↔
      (∀ i ∈ indices, i < nwords) ∧ stems = indices.map language.prefixAt := by
  induction stems generalizing indices with
  | nil =>
    simp only [List.mapM_nil, Option.pure_def, Option.some.injEq]
    constructor
    · rintro rfl
      simp
    · rintro ⟨-, empty⟩
      exact (map_eq_nil_iff.mp empty.symm).symm
  | cons stem stems ih =>
    rw [mapM_cons]
    simp only [Option.bind_eq_bind, Option.bind_eq_some_iff, Option.pure_def, Option.some.injEq]
    constructor
    · rintro ⟨i, found, others, rest, rfl⟩
      obtain ⟨inside, same⟩ := language.find_eq_some found
      obtain ⟨insides, sames⟩ := ih.mp rest
      refine ⟨?_, by rw [map_cons, same, ← sames]⟩
      rintro j (_ | ⟨_, member⟩)
      · exact inside
      · exact insides j member
    · rintro ⟨insides, same⟩
      cases indices with
      | nil => cases same
      | cons i others =>
        rw [map_cons, cons.injEq] at same
        refine ⟨i, ?_, others, ?_, rfl⟩
        · rw [same.1]
          exact language.find_prefixAt (insides i mem_cons_self)
        · exact ih.mpr ⟨fun j member => insides j (mem_cons_of_mem _ member), same.2⟩

theorem map_prefixAt_injective {others : List Nat} (first : ∀ i ∈ indices, i < nwords)
    (second : ∀ i ∈ others, i < nwords)
    (same : indices.map language.prefixAt = others.map language.prefixAt) : indices = others := by
  have found := language.mapM_find_eq_some.mpr ⟨first, rfl⟩
  rw [same, language.mapM_find_eq_some.mpr ⟨second, rfl⟩] at found
  exact (some.inj found).symm

theorem prefix_wordList (inside : i < nwords) :
    utf8Prefix language.uniquePrefixLength (language.wordList.getD i []) = language.prefixAt i := by
  have below : i < language.wordList.length := by rwa [count]
  rw [prefixAt, getD_eq_getElem?_getD, getD_eq_getElem?_getD, prefixes_getElem?,
    getElem?_eq_getElem below]
  rfl

theorem mapM_matchedIndex (seed : List MnemonicWord) :
    seed.mapM (language.matchedIndex true) =
      (language.prefixes seed).mapM language.maps.trimmedWordMap.find := by
  rw [Language.prefixes, mapM_map]
  rfl

/-! ## The checksum -/

end LoadedLanguage

/-- The last prefix of a phrase repeats the one that the checksum of the others chooses. -/
def Checks (stems : List MnemonicWord) : Prop :=
  stems.dropLast.getD (crc32 stems.dropLast.flatten % stems.dropLast.length) [] = stems.getLastD []

instance (stems : List MnemonicWord) : Decidable (Checks stems) :=
  inferInstanceAs (Decidable (_ = _))

theorem checks_concat (stems : List MnemonicWord) (last : MnemonicWord) :
    Checks (stems ++ [last]) ↔ stems.getD (crc32 stems.flatten % stems.length) [] = last := by
  unfold Checks
  rw [dropLast_concat, getLastD_concat]

namespace LoadedLanguage

variable (language : LoadedLanguage)
variable {indices : List Nat}
variable {words seed : List MnemonicWord} {word : MnemonicWord} {src : List UInt8}

theorem createChecksumIndex_eq
    (known : (language.prefixes words).mapM language.maps.trimmedWordMap.find = some indices) :
    language.createChecksumIndex words =
      .ok (crc32 (language.prefixes words).flatten % words.length) := by
  have lookups : words.mapM language.lookupTrimmed = .ok (language.prefixes words) := by
    induction words generalizing indices with
    | nil => rfl
    | cons word words ih =>
      rw [Language.prefixes, map_cons, mapM_cons] at known
      simp only [bind_eq_bind, bind_eq_some_iff] at known
      obtain ⟨i, found, others, rest, -⟩ := known
      have here : language.lookupTrimmed word = .ok (utf8Prefix language.uniquePrefixLength word) :=
        if_pos (Table.has_eq_true.mpr ⟨i, found⟩)
      rw [mapM_cons, here, ih rest]
      rfl
  unfold createChecksumIndex
  rw [lookups]
  rfl

/-- `checksum_test` on a phrase of known words. -/
theorem checksumTest_eq {last : MnemonicWord} (nonempty : words ≠ [])
    (known : (language.prefixes words).mapM language.maps.trimmedWordMap.find = some indices) :
    language.checksumTest (words ++ [last]) =
      .ok (decide (Checks (language.prefixes (words ++ [last])))) := by
  have inside : crc32 (language.prefixes words).flatten % words.length < words.length :=
    mod_lt _ (length_pos_of_ne_nil nonempty)
  have stems : language.prefixes (words ++ [last]) =
      language.prefixes words ++ [utf8Prefix language.uniquePrefixLength last] := by
    simp [Language.prefixes]
  have chosen : Checks (language.prefixes (words ++ [last])) ↔
      language.trimmed words[crc32 (language.prefixes words).flatten % words.length] =
        language.trimmed last := by
    rw [stems, checks_concat, prefixes_length, Language.trimmed_eq, Language.trimmed_eq,
      getD_eq_getElem?_getD, prefixes_getElem?, getElem?_eq_getElem inside]
    rfl
  unfold checksumTest
  rw [getLast?_concat, dropLast_concat, language.createChecksumIndex_eq known]
  simp only [bind, Except.bind, getElem?_eq_getElem inside]
  rw [Except.ok.injEq, Bool.eq_iff_iff, beq_iff_eq, decide_eq_true_iff, chosen]

/-! ## What a phrase restores -/

variable {language}

theorem findSeedLanguage_unknown {hasChecksum : Bool}
    (positions : seed.mapM (language.matchedIndex hasChecksum) = none) :
    findSeedLanguage seed hasChecksum [language] none = .ok none := by
  simp [findSeedLanguage, positions]

theorem findSeedLanguage_known {passed : Bool}
    (positions : seed.mapM (language.matchedIndex true) = some indices)
    (tested : language.checksumTest seed = .ok passed) :
    findSeedLanguage seed true [language] none =
      .ok (some (language, if passed then indices else [])) := by
  cases passed <;> simp [findSeedLanguage, positions, tested, bind, Except.bind, pure, Except.pure]

variable {phrase : List UInt8}

/-- A phrase of 25 words restores what the first 24 positions stand for, if all prefixes are known
and the last one checks. -/
theorem wordsToSecretKey_checked (size : (seedWords phrase).length = 25) :
    wordsToSecretKey [language] phrase =
      .ok (((language.prefixes (seedWords phrase)).mapM language.maps.trimmedWordMap.find).bind
        fun indices =>
          if Checks (language.prefixes (seedWords phrase)) then
            some (decodeIndices nwords indices 8, language.languageName)
          else none) := by
  unfold wordsToSecretKey wordsToBytes
  simp only [secretKeySize, size, reduceEqDiff, if_false, beq_self_eq_true]
  cases positions : (language.prefixes (seedWords phrase)).mapM
      language.maps.trimmedWordMap.find with
  | none =>
    rw [findSeedLanguage_unknown (language.mapM_matchedIndex _ ▸ positions)]
    rfl
  | some indices =>
    obtain ⟨words, last, same⟩ : ∃ words last, seedWords phrase = words ++ [last] := by
      rcases eq_nil_or_concat (seedWords phrase) with empty | ⟨words, last, same⟩
      · rw [empty] at size
        cases size
      · exact ⟨words, last, by rw [same, concat_eq_append]⟩
    have nonempty : words ≠ [] := by
      rintro rfl
      rw [same] at size
      cases size
    have known : ∃ others,
        (language.prefixes words).mapM language.maps.trimmedWordMap.find = some others := by
      rw [same, Language.prefixes, map_append, mapM_append] at positions
      simp only [bind_eq_bind, bind_eq_some_iff] at positions
      obtain ⟨others, found, -⟩ := positions
      exact ⟨others, found⟩
    obtain ⟨others, known⟩ := known
    have tested := @language.checksumTest_eq others words last nonempty known
    rw [← same] at tested
    rw [findSeedLanguage_known (language.mapM_matchedIndex _ ▸ positions) tested]
    simp only [bind, Except.bind, tested]
    by_cases checks : Checks (language.prefixes (seedWords phrase))
    · simp [checks, pure, Except.pure, size, decodeIndices_length, language.count]
    · simp [checks, pure, Except.pure]

/-- A phrase of 12 words restores nothing: 16 bytes are not the size of a key, and they are never
duplicated. -/
theorem wordsToSecretKey_half (size : (seedWords phrase).length = 12) :
    wordsToSecretKey [language] phrase = .ok none := by
  unfold wordsToSecretKey wordsToBytes
  simp only [secretKeySize, size, reduceMul, reduceDiv, reduceAdd, reduceEqDiff, if_false,
    Nat.reduceBEq, Bool.false_eq_true]
  cases positions : (seedWords phrase).mapM (language.matchedIndex false) with
  | none =>
    rw [findSeedLanguage_unknown positions]
    rfl
  | some indices =>
    have found : findSeedLanguage (seedWords phrase) false [language] none =
        .ok (some (language, indices)) := by
      simp [findSeedLanguage, positions]
    simp [found, bind, Except.bind, pure, Except.pure, decodeIndices_length]

/-! ## Words with their checksum -/

variable (language)

/-- Words with the checksum word behind them. -/
def withChecksum (words : List MnemonicWord) : List MnemonicWord :=
  words ++ [words.getD (crc32 (language.prefixes words).flatten % words.length) []]

/-- The word at a position. -/
def wordAt (i : Nat) : MnemonicWord :=
  language.wordList.getD i []

theorem wordAt_mem {i : Nat} (inside : i < nwords) : language.wordAt i ∈ language.wordList := by
  have below : i < language.wordList.length := by rwa [language.count]
  rw [wordAt, getD_eq_getElem?_getD, getElem?_eq_getElem below]
  exact getElem_mem below

theorem prefixes_map_wordAt (inside : ∀ i ∈ indices, i < nwords) :
    language.prefixes (indices.map language.wordAt) = indices.map language.prefixAt := by
  rw [Language.prefixes, List.map_map]
  apply map_congr_left
  intro i member
  exact language.prefix_wordList (inside i member)

theorem prefix_getD (words : List MnemonicWord) (i : Nat) :
    utf8Prefix language.uniquePrefixLength (words.getD i []) = (language.prefixes words).getD i [] := by
  rw [getD_eq_getElem?_getD, getD_eq_getElem?_getD, prefixes_getElem?]
  cases words[i]? with
  | none => exact utf8Prefix_nil _
  | some word => rfl

/-- The checksum word is one of the others. -/
theorem withChecksum_eq (indices : List Nat) (nonempty : indices ≠ []) :
    ∃ last ∈ indices, language.withChecksum (indices.map language.wordAt) =
      (indices ++ [last]).map language.wordAt := by
  have inside : crc32 (language.prefixes (indices.map language.wordAt)).flatten %
      (indices.map language.wordAt).length < indices.length := by
    rw [length_map]
    exact mod_lt _ (length_pos_of_ne_nil nonempty)
  refine ⟨indices[_], getElem_mem inside, ?_⟩
  rw [withChecksum, getD_eq_getElem?_getD, getElem?_map, getElem?_eq_getElem inside, map_append]
  rfl

theorem mem_withChecksum (nonempty : indices ≠ []) (inside : ∀ i ∈ indices, i < nwords)
    (member : word ∈ language.withChecksum (indices.map language.wordAt)) :
    word ∈ language.wordList := by
  obtain ⟨last, listed, words⟩ := language.withChecksum_eq indices nonempty
  rw [words] at member
  obtain ⟨i, position, rfl⟩ := mem_map.mp member
  rcases mem_append.mp position with front | top
  · exact language.wordAt_mem (inside i front)
  · exact language.wordAt_mem (mem_singleton.mp top ▸ inside last listed)

theorem checks_withChecksum (words : List MnemonicWord) :
    Checks (language.prefixes (language.withChecksum words)) := by
  have split : language.prefixes (language.withChecksum words) = language.prefixes words ++
      [(language.prefixes words).getD
        (crc32 (language.prefixes words).flatten % (language.prefixes words).length) []] := by
    rw [prefixes_length, ← prefix_getD, withChecksum, Language.prefixes, map_append]
    rfl
  rw [split, checks_concat]

/-- A phrase with the prefixes of 24 words and their checksum restores what the positions of the
words stand for. -/
theorem wordsToSecretKey_of_prefixes (size : indices.length = 24)
    (inside : ∀ i ∈ indices, i < nwords)
    (same : language.prefixes (seedWords phrase) = language.prefixes (language.withChecksum (indices.map language.wordAt))) :
    wordsToSecretKey [language] phrase =
      .ok (some (decodeIndices nwords indices 8, language.languageName)) := by
  have checks := language.checks_withChecksum (indices.map language.wordAt)
  obtain ⟨last, listed, words⟩ := language.withChecksum_eq indices
    (ne_nil_of_length_eq_add_one size)
  have insides : ∀ i ∈ indices ++ [last], i < nwords := by
    intro i member
    rcases mem_append.mp member with front | top
    · exact inside i front
    · rw [mem_singleton.mp top]
      exact inside last listed
  have positions : (language.prefixes (seedWords phrase)).mapM language.maps.trimmedWordMap.find =
      some (indices ++ [last]) := by
    rw [same, words, language.prefixes_map_wordAt insides, mapM_find_eq_some]
    exact ⟨insides, rfl⟩
  have length : (seedWords phrase).length = 25 := by
    rw [← language.prefixes_length, same, words, prefixes_length, length_map, length_append, size]
    rfl
  rw [wordsToSecretKey_checked length, positions, bind_some, if_pos (same ▸ checks),
    decodeIndices_append size]

/-! ## The phrase of a key -/

/-- The words of a key with the checksum word. -/
def phraseWords (src : List UInt8) : List MnemonicWord :=
  language.withChecksum (wordsStore language src)

theorem wordsStore_eq (src : List UInt8) :
    wordsStore language src = (keyIndices src).map language.wordAt := by
  rw [wordsStore, keyIndices, map_flatMap, language.count]
  rfl

theorem phraseWords_eq (src : List UInt8) :
    language.phraseWords src = language.withChecksum ((keyIndices src).map language.wordAt) := by
  rw [phraseWords, wordsStore_eq]

theorem mem_phraseWords (size : src.length = secretKeySize)
    (member : word ∈ language.phraseWords src) : word ∈ language.wordList := by
  rw [phraseWords_eq] at member
  refine language.mem_withChecksum ?_ (keyIndices_lt src) member
  exact ne_nil_of_length_eq_add_one (keyIndices_length size)

/-- `bytes_to_words` writes the phrase of a key. -/
theorem bytesToWords_eq (size : src.length = secretKeySize) {languageName : String}
    (named : languageName = language.languageName ∨ languageName = language.englishLanguageName) :
    bytesToWords [language] src [] languageName =
      .ok (some (join 0x20 (language.phraseWords src))) := by
  have length : (wordsStore language src).length = 24 := by
    rw [wordsStore_eq, length_map, keyIndices_length size]
  have known := language.mapM_find_eq_some.mpr
    ⟨keyIndices_lt src, language.prefixes_map_wordAt (keyIndices_lt src)⟩
  rw [← wordsStore_eq] at known
  have inside : crc32 (language.prefixes (wordsStore language src)).flatten %
      (wordsStore language src).length < (wordsStore language src).length :=
    mod_lt _ (by rw [length]; decide)
  have chosen : [language].reverse.find? (fun language =>
      languageName == language.languageName || languageName == language.englishLanguageName) =
        some language := by
    rw [reverse_singleton, find?_singleton, if_pos (by simpa using named)]
  unfold bytesToWords
  rw [if_neg (by rw [size]; decide), chosen]
  simp only [language.createChecksumIndex_eq known, bind, Except.bind]
  rw [phraseWords, withChecksum, Tokens.join_concat, getD_eq_getElem?_getD,
    getElem?_eq_getElem inside]
  rfl

end LoadedLanguage

/-! ## Restoring a key -/

theorem isSpace_of_isWordSeparator {byte : UInt8} (cut : isWordSeparator byte = true) :
    isSpace byte = true := by
  unfold isWordSeparator at cut
  rw [Bool.or_eq_true, beq_iff_eq, beq_iff_eq] at cut
  rcases cut with rfl | rfl <;> rfl

theorem seedWords_join {words : List MnemonicWord} (some : words ≠ [])
    (free : ∀ word ∈ words, Free isSpace word) (nonempty : ∀ word ∈ words, word ≠ []) :
    seedWords (join 0x20 words) = words := by
  rw [seedWords, trim_join free nonempty, split_join rfl some _ nonempty]
  intro word member byte inside
  have plain := free word member byte inside
  rw [← Bool.not_eq_true] at plain ⊢
  exact fun cut => plain (isSpace_of_isWordSeparator cut)

namespace LoadedLanguage

variable {language : LoadedLanguage}

theorem ne_nil_of_mem {word : MnemonicWord} (member : word ∈ language.wordList) : word ≠ [] := by
  have long := language.entered.long word member
  have positive := language.uniquePrefixLength_pos
  exact ne_nil_of_length_pos (lt_of_lt_of_le positive long)

/-- The phrase of 24 words of a list without white space and their checksum. -/
theorem seedWords_withChecksum (plain : ∀ word ∈ language.wordList, Free isSpace word)
    {indices : List Nat} (nonempty : indices ≠ []) (inside : ∀ i ∈ indices, i < nwords) :
    seedWords (join 0x20 (language.withChecksum (indices.map language.wordAt))) =
      language.withChecksum (indices.map language.wordAt) := by
  have listed (word : MnemonicWord)
      (member : word ∈ language.withChecksum (indices.map language.wordAt)) :=
    language.mem_withChecksum nonempty inside member
  exact seedWords_join (concat_ne_nil _ _) (fun word member => plain word (listed word member))
    (fun word member => ne_nil_of_mem (listed word member))

/-- A word that may stand for another: without white space and with the same prefix. -/
def StandsFor (language : LoadedLanguage) (word other : MnemonicWord) : Prop :=
  Tokens.Free isSpace other ∧
    utf8Prefix language.uniquePrefixLength other = utf8Prefix language.uniquePrefixLength word

/-- Words that stand for words of the list are the words of their phrase, with the same prefixes. -/
theorem seedWords_of_standsFor {words others : List MnemonicWord} (some : words ≠ [])
    (listed : ∀ word ∈ words, word ∈ language.wordList)
    (related : Forall₂ language.StandsFor words others) :
    seedWords (join 0x20 others) = others ∧
      language.prefixes others = language.prefixes words := by
  have facts : language.prefixes others = language.prefixes words ∧
      ∀ other ∈ others, Free isSpace other ∧ other ≠ [] := by
    clear some
    induction related with
    | nil => exact ⟨rfl, by simp⟩
    | @cons word other words others here rest ih =>
      obtain ⟨same, plain⟩ := ih fun word member => listed word (mem_cons_of_mem _ member)
      have nonempty : other ≠ [] := by
        rintro rfl
        have stem := utf8Prefix_ne_nil language.uniquePrefixLength_pos
          (ne_nil_of_mem (listed word mem_cons_self))
        rw [← here.2, utf8Prefix_nil] at stem
        exact stem rfl
      constructor
      · unfold Language.prefixes at same ⊢
        rw [map_cons, map_cons, here.2, same]
      · rintro third (_ | ⟨_, member⟩)
        · exact ⟨here.1, nonempty⟩
        · exact plain third member
  have nonempty : others ≠ [] := by
    rintro rfl
    cases related
    exact some rfl
  refine ⟨seedWords_join nonempty (fun other member => (facts.2 other member).1)
    (fun other member => (facts.2 other member).2), facts.1⟩

/-- The phrase of a key restores the key, and so does every phrase of words without white space that
have the same prefixes. -/
theorem seed_restores_key (plain : ∀ word ∈ language.wordList, Tokens.Free isSpace word)
    {languageName : String}
    (named : languageName = language.languageName ∨ languageName = language.englishLanguageName)
    {key : List UInt8} (size : key.length = secretKeySize) :
    bytesToWords [language] key [] languageName =
        .ok (some (Tokens.join 0x20 (language.phraseWords key))) ∧
      wordsToSecretKey [language] (Tokens.join 0x20 (language.phraseWords key)) =
        .ok (some (key, language.languageName)) ∧
      ∀ others, List.Forall₂ language.StandsFor (language.phraseWords key) others →
        wordsToSecretKey [language] (Tokens.join 0x20 others) =
          .ok (some (key, language.languageName)) := by
  have restored (others : List MnemonicWord)
      (related : Forall₂ language.StandsFor (language.phraseWords key) others) :
      wordsToSecretKey [language] (join 0x20 others) =
        .ok (some (key, language.languageName)) := by
    have some : language.phraseWords key ≠ [] := concat_ne_nil _ _
    obtain ⟨words, same⟩ := seedWords_of_standsFor some
      (fun word member => language.mem_phraseWords size member) related
    rw [language.wordsToSecretKey_of_prefixes (keyIndices_length size) (keyIndices_lt key)
      (by rw [words, same, phraseWords_eq]), decodeIndices_keyIndices size]
  refine ⟨language.bytesToWords_eq size named, restored _ ?_, restored⟩
  exact forall₂_same.mpr fun word member =>
    ⟨plain word (language.mem_phraseWords size member), rfl⟩

end LoadedLanguage

/-- Words of three letters, in alphabetical order. -/
def letterWord (i : Nat) : MnemonicWord :=
  [UInt8.ofNat (97 + i / 676), UInt8.ofNat (97 + i / 26 % 26), UInt8.ofNat (97 + i % 26)]

/-- A list of words of three letters. -/
def letterLanguage : Language :=
  { languageName := "Letters"
    englishLanguageName := "Letters"
    wordList := (List.range nwords).map letterWord
    uniquePrefixLength := 3 }

theorem letterLanguage_wordList : letterLanguage.wordList = (List.range nwords).map letterWord := by
  simp only [letterLanguage]

theorem letterWord_injective {j : Nat} (first : i < nwords) (second : j < nwords)
    (same : letterWord i = letterWord j) : i = j := by
  simp only [letterWord, cons.injEq, ← UInt8.toNat_inj, UInt8.toNat_ofNat'] at same
  simp only [nwords] at first second
  omega

theorem letterWord_prefix (i : Nat) : utf8Prefix 3 (letterWord i) = letterWord i :=
  utf8Prefix_of_length_le (le_refl _)

theorem letterWord_free (inside : i < nwords) : Free isSpace (letterWord i) := by
  have letter (digit : Nat) (small : digit < 26) : isSpace (UInt8.ofNat (97 + digit)) = false := by
    decide +revert
  simp only [nwords] at inside
  intro byte member
  simp only [letterWord, mem_cons, not_mem_nil, or_false] at member
  rcases member with rfl | rfl | rfl
  · exact letter _ (by omega)
  · exact letter _ (by omega)
  · exact letter _ (by omega)

theorem letterLanguage_populated : ∃ maps, letterLanguage.populateMaps = .ok maps := by
  apply Language.populateMaps_ok
  · rw [letterLanguage_wordList, length_map, length_range]
  · intro word member
    rw [letterLanguage_wordList] at member
    obtain ⟨i, -, rfl⟩ := List.mem_map.mp member
    exact le_refl 3
  · have stems : letterLanguage.prefixes letterLanguage.wordList =
        (List.range nwords).map letterWord := by
      rw [Language.prefixes, letterLanguage_wordList, List.map_map]
      exact map_congr_left fun i _ => letterWord_prefix i
    rw [stems]
    refine Nodup.map_on ?_ nodup_range
    intro i first j second same
    exact letterWord_injective (List.mem_range.mp first) (List.mem_range.mp second) same

/-- The list with its maps. -/
noncomputable def letters : LoadedLanguage :=
  { letterLanguage with
    maps := letterLanguage_populated.choose
    populated := letterLanguage_populated.choose_spec }

theorem letters_wordList : letters.wordList = (List.range nwords).map letterWord :=
  letterLanguage_wordList

theorem letters_free : ∀ word ∈ letters.wordList, Free isSpace word := by
  intro word member
  rw [letters_wordList] at member
  obtain ⟨i, inside, rfl⟩ := List.mem_map.mp member
  exact letterWord_free (List.mem_range.mp inside)

theorem LoadedLanguage.seed_restores_zero_key :
    wordsToSecretKey [letters] (Tokens.join 0x20 (letters.phraseWords (List.replicate 32 0))) =
      .ok (some (List.replicate 32 0, letters.languageName)) :=
  (seed_restores_key letters_free (.inl rfl) (by decide)).2.1

end Memero
