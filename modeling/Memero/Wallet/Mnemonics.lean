import Memero.Basic.Bytes
import Memero.Lib.Exec
import Memero.Lib.Pieces
import Memero.Lib.Table
import Memero.Lib.Tokens
import Memero.Lib.Word

/-!
# Mnemonic seeds

`wallet/mnemonics`: a secret key as a phrase of words. Four bytes of the key are three words of a
list, each word the sum of a digit and the word before it, and the last word of the phrase repeats
one of the others as a checksum. Words are compared by the first characters of their spelling.
-/

namespace Memero

/-- A word as bytes, most often in UTF-8. -/
abbrev MnemonicWord : Type :=
  List UInt8

/-- What `std::runtime_error` is thrown for, with the names in its message. `undefined` stands for
a position behind the end of a vector. -/
inductive MnemonicError where
  | wrongWordListLength (languageName : String)
  | tooShortWord (languageName : String) (word : MnemonicWord)
  | duplicatePrefix (languageName : String) (trimmed : MnemonicWord)
  | notInTrimmedWordMap (word : MnemonicWord) (englishLanguageName : String)
  | undefined
  deriving DecidableEq, Repr

/-! ## Word lists -/

/-- A byte inside a character of several bytes. -/
def isContinuationByte (byte : UInt8) : Bool :=
  byte &&& 0xc0 == 0x80

/-- `utf8prefix`: at most the first `count` characters. -/
def utf8Prefix : Nat → List UInt8 → List UInt8
  | 0, _ => []
  | _ + 1, [] => []
  | count + 1, byte :: rest =>
    byte :: (rest.takeWhile isContinuationByte ++
      utf8Prefix count (rest.dropWhile isContinuationByte))

/-- `Language::Base`, as its constructor leaves it. -/
structure Language where
  languageName : String
  englishLanguageName : String
  wordList : List MnemonicWord
  uniquePrefixLength : Nat

/-- `NWORDS`. -/
def nwords : Nat := 1626

/-- `word_map` and `trimmed_word_map`. -/
structure WordMaps where
  wordMap : Table MnemonicWord Nat
  trimmedWordMap : Table MnemonicWord Nat

/-- A word of at least the length of a prefix, cut to it. -/
def Language.trimmed (language : Language) (word : MnemonicWord) : MnemonicWord :=
  if language.uniquePrefixLength < word.length then utf8Prefix language.uniquePrefixLength word
  else word

/-- The body of the loop of `populate_maps`, without flags. -/
def Language.populateWord (language : Language) (maps : WordMaps) (entry : MnemonicWord × Nat) :
    Except MnemonicError WordMaps :=
  let (word, ii) := entry
  if word.length < language.uniquePrefixLength then
    .error (.tooShortWord language.languageName word)
  else if maps.trimmedWordMap.has (language.trimmed word) then
    .error (.duplicatePrefix language.languageName (language.trimmed word))
  else
    .ok { wordMap := maps.wordMap.set word ii
          trimmedWordMap := maps.trimmedWordMap.set (language.trimmed word) ii }

/-- `populate_maps`. -/
def Language.populateMaps (language : Language) : Except MnemonicError WordMaps :=
  if language.wordList.length ≠ nwords then
    .error (.wrongWordListLength language.languageName)
  else
    language.wordList.zipIdx.foldlM language.populateWord { wordMap := [], trimmedWordMap := [] }

/-- A language whose maps are populated. -/
structure LoadedLanguage extends Language where
  maps : WordMaps
  populated : toLanguage.populateMaps = .ok maps

/-! ## The checksum word -/

/-- A bit of the remainder of `boost::crc_32_type`, lowest bit first. -/
def crcStep (remainder : Nat) : Nat :=
  if remainder % 2 = 1 then remainder / 2 ^^^ 0xedb88320 else remainder / 2

/-- `boost::crc_32_type`. -/
def crc32 (bytes : List UInt8) : Nat :=
  bytes.foldl (fun remainder byte => Nat.repeat crcStep 8 (remainder ^^^ byte.toNat)) 0xffffffff ^^^
    0xffffffff

namespace LoadedLanguage

variable (language : LoadedLanguage)

/-- The trimmed form of a word, if the list has it. -/
def lookupTrimmed (word : MnemonicWord) : Except MnemonicError MnemonicWord :=
  let word := utf8Prefix language.uniquePrefixLength word
  if language.maps.trimmedWordMap.has word then .ok word
  else .error (.notInTrimmedWordMap word language.englishLanguageName)

/-- `create_checksum_index`. -/
def createChecksumIndex (words : List MnemonicWord) : Except MnemonicError Nat := do
  let trimmedWords ← words.mapM language.lookupTrimmed
  return crc32 trimmedWords.flatten % words.length

/-- `checksum_test`. -/
def checksumTest (seed : List MnemonicWord) : Except MnemonicError Bool :=
  match seed.getLast? with
  | none => .ok false
  | some lastWord => do
      let idx ← language.createChecksumIndex seed.dropLast
      match seed.dropLast[idx]? with
      | none => .error .undefined
      | some checksum => .ok (language.trimmed checksum == language.trimmed lastWord)

/-- The position of a word, by its prefix if the phrase has a checksum. -/
def matchedIndex (hasChecksum : Bool) (word : MnemonicWord) : Option Nat :=
  if hasChecksum then
    language.maps.trimmedWordMap.find (utf8Prefix language.uniquePrefixLength word)
  else
    language.maps.wordMap.find word

end LoadedLanguage

/-- `find_seed_language`, with the language of a match whose checksum failed as `fallback`. -/
def findSeedLanguage (seed : List MnemonicWord) (hasChecksum : Bool) :
    List LoadedLanguage → Option LoadedLanguage →
      Except MnemonicError (Option (LoadedLanguage × List Nat))
  | [], fallback => .ok (fallback.map fun language => (language, []))
  | language :: others, fallback =>
    match seed.mapM (language.matchedIndex hasChecksum) with
    | none => findSeedLanguage seed hasChecksum others fallback
    | some matchedIndices =>
      if hasChecksum then do
        let passed ← language.checksumTest seed
        if passed then
          return some (language, matchedIndices)
        else
          findSeedLanguage seed hasChecksum others (some language)
      else
        .ok (some (language, matchedIndices))

/-! ## Phrases and bytes -/

/-- Three words as a number of 32 bits. -/
def decodeTriple (wordListLength w1 w2 w3 : Nat) : Nat :=
  Word.wrap 32 (w1 + wordListLength * ((wordListLength - w1 + w2) % wordListLength) +
    wordListLength * wordListLength * ((wordListLength - w2 + w3) % wordListLength))

/-- The three words of a number of 32 bits. -/
def encodeTriple (wordListLength w0 : Nat) : List Nat :=
  let w1 := w0 % wordListLength
  let w2 := (w0 / wordListLength + w1) % wordListLength
  let w3 := (w0 / wordListLength / wordListLength + w2) % wordListLength
  [w1, w2, w3]

/-- The bytes at which a phrase is cut into words. -/
def isWordSeparator (byte : UInt8) : Bool :=
  byte == 0x09 || byte == 0x20

/-- The words of a phrase. -/
def seedWords (words : List UInt8) : List MnemonicWord :=
  Tokens.split isWordSeparator false (Tokens.trim isSpace words)

/-- The bytes of a list of positions, three at a time. -/
def decodeIndices (wordListLength : Nat) (matchedIndices : List Nat) (triples : Nat) : List UInt8 :=
  (List.range triples).flatMap fun i =>
    littleEndian 4 (decodeTriple wordListLength (matchedIndices.getD (i * 3) 0)
      (matchedIndices.getD (i * 3 + 1) 0) (matchedIndices.getD (i * 3 + 2) 0))

/-- `words_to_bytes` for a length, on a destination: the bytes that it holds afterwards and the name
of the language. -/
def wordsToBytes (languages : List LoadedLanguage) (words dst : List UInt8) (len : Nat)
    (duplicate : Bool) : Except MnemonicError (Option (List UInt8 × String)) :=
  let seed := seedWords words
  let expected := len * 8 * 3 / 32
  let hasChecksum := if len = 0 then true else seed.length == expected + 1
  if len % 4 ≠ 0 then
    .ok none
  else if len ≠ 0 ∧ seed.length ≠ expected / 2 ∧ seed.length ≠ expected ∧
      seed.length ≠ expected + 1 then
    .ok none
  else do
    match ← findSeedLanguage seed hasChecksum languages none with
    | none => return none
    | some (language, matchedIndices) =>
      let passed ← if hasChecksum then language.checksumTest seed else .ok true
      if passed then
        let seed := if hasChecksum then seed.dropLast else seed
        let dst := dst ++ decodeIndices language.wordList.length matchedIndices (seed.length / 3)
        let expected := len * 3 / 32
        if 0 < len ∧ duplicate ∧ seed.length = expected / 2 then
          return some (dst ++ dst, language.languageName)
        else
          return some (dst, language.languageName)
      else
        return none

/-- The bytes of a secret key. -/
def secretKeySize : Nat := 32

/-- `words_to_bytes` for a secret key. -/
def wordsToSecretKey (languages : List LoadedLanguage) (words : List UInt8) :
    Except MnemonicError (Option (List UInt8 × String)) := do
  match ← wordsToBytes languages words [] secretKeySize true with
  | none => return none
  | some (s, languageName) =>
    if s.length ≠ secretKeySize then return none else return some (s, languageName)

/-- The number in memory at four bytes of a source. -/
def sourceWord (src : List UInt8) (i : Nat) : Nat :=
  ofBigEndian (piece 4 src i).reverse

/-- The words of a source without the checksum word, `words_store`. -/
def wordsStore (language : LoadedLanguage) (src : List UInt8) : List MnemonicWord :=
  (List.range (src.length / 4)).flatMap fun i =>
    (encodeTriple language.wordList.length (sourceWord src i)).map (language.wordList.getD · [])

/-- `bytes_to_words`: the words behind those of a destination, each with a blank behind it, and the
checksum word. -/
def bytesToWords (languages : List LoadedLanguage) (src words : List UInt8) (languageName : String) :
    Except MnemonicError (Option (List UInt8)) :=
  if src.length % 4 ≠ 0 ∨ src.length = 0 then
    .ok none
  else
    match languages.reverse.find? fun language =>
        languageName == language.languageName || languageName == language.englishLanguageName with
    | none => .ok none
    | some language => do
        let store := wordsStore language src
        let idx ← language.createChecksumIndex store
        match store[idx]? with
        | none => .error .undefined
        | some checksum => return some (words ++ store.flatMap (· ++ [0x20]) ++ checksum)

/-! ## Prefixes -/

open List Nat

variable {count : Nat} {word : MnemonicWord}

theorem utf8Prefix_of_length_le (short : word.length ≤ count) : utf8Prefix count word = word := by
  induction count generalizing word with
  | zero =>
    rw [length_eq_zero_iff.mp (le_zero.mp short)]
    rfl
  | succ count ih =>
    cases word with
    | nil => rfl
    | cons byte rest =>
      have others : (rest.dropWhile isContinuationByte).length ≤ count :=
        le_trans (length_dropWhile_le _ rest) (le_of_succ_le_succ short)
      rw [utf8Prefix, ih others, takeWhile_append_dropWhile]

theorem utf8Prefix_ne_nil (positive : 0 < count) (nonempty : word ≠ []) :
    utf8Prefix count word ≠ [] := by
  cases count with
  | zero => cases positive
  | succ count =>
    cases word with
    | nil => exact absurd rfl nonempty
    | cons byte rest => exact cons_ne_nil _ _

theorem utf8Prefix_nil (count : Nat) : utf8Prefix count [] = [] := by
  cases count <;> rfl

namespace Language

variable (language : Language)

/-- Cutting a word that is not longer than a prefix does nothing, so the test of its length makes
no difference. -/
theorem trimmed_eq (word : MnemonicWord) :
    language.trimmed word = utf8Prefix language.uniquePrefixLength word := by
  unfold trimmed
  split
  · rfl
  · rename_i short
    exact (utf8Prefix_of_length_le (Nat.le_of_not_lt short)).symm

/-! ## Populated maps -/

/-- The prefixes of the list, in order. -/
def prefixes (words : List MnemonicWord) : List MnemonicWord :=
  words.map (utf8Prefix language.uniquePrefixLength)

/-- What the maps hold when some words of the list are entered. -/
structure Entered (maps : WordMaps) (words : List MnemonicWord) : Prop where
  long : ∀ word ∈ words, language.uniquePrefixLength ≤ word.length
  distinct : (language.prefixes words).Nodup
  word : ∀ word i, maps.wordMap.find word = some i ↔ words[i]? = some word
  trimmed : ∀ trimmed i,
    maps.trimmedWordMap.find trimmed = some i ↔ (language.prefixes words)[i]? = some trimmed

variable {language}

theorem Entered.nil : language.Entered { wordMap := [], trimmedWordMap := [] } [] where
  long := by simp
  distinct := nodup_nil
  word := by simp
  trimmed := by simp [prefixes]

/-- A table with one position for each item of a list, after the next item is entered. -/
theorem find_set_next {table : Table MnemonicWord Nat} {items : List MnemonicWord}
    {item : MnemonicWord} (found : ∀ key i, table.find key = some i ↔ items[i]? = some key)
    (fresh : item ∉ items) (key : MnemonicWord) (i : Nat) :
    (table.set item items.length).find key = some i ↔ (items ++ [item])[i]? = some key := by
  by_cases same : key = item
  · rw [same, Table.find_set_self, Option.some.injEq]
    constructor
    · rintro rfl
      simp
    · intro position
      rcases lt_trichotomy i items.length with lower | equal | higher
      · rw [getElem?_append_left lower] at position
        exact absurd (mem_of_getElem? position) fresh
      · exact equal.symm
      · rw [getElem?_eq_none (by simpa using succ_le_of_lt higher)] at position
        cases position
  · rw [Table.find_set_of_ne _ _ same, found]
    rcases lt_or_ge i items.length with lower | higher
    · rw [getElem?_append_left lower]
    · rw [getElem?_eq_none higher, getElem?_append_right higher]
      constructor
      · intro found
        cases found
      · intro found
        have last := mem_singleton.mp (mem_of_getElem? found)
        exact absurd last same

variable {maps : WordMaps} {words : List MnemonicWord}
variable {next : WordMaps} {rest : List MnemonicWord}

/-- One word more. -/
theorem Entered.populateWord {word : MnemonicWord} (entered : language.Entered maps words)
    (step : language.populateWord maps (word, words.length) = .ok next) :
    language.Entered next (words ++ [word]) := by
  unfold Language.populateWord at step
  dsimp only at step
  split at step
  · cases step
  rename_i long
  split at step
  · cases step
  rename_i fresh
  cases step
  rw [trimmed_eq] at fresh
  have absent : utf8Prefix language.uniquePrefixLength word ∉ language.prefixes words := by
    intro member
    obtain ⟨i, found⟩ := mem_iff_getElem?.mp member
    exact fresh (Table.has_eq_true.mpr ⟨i, (entered.trimmed _ i).mpr found⟩)
  have unlisted : word ∉ words := fun member => absent (mem_map_of_mem member)
  have size : (language.prefixes words).length = words.length := length_map _
  have longer : language.prefixes (words ++ [word]) =
      language.prefixes words ++ [utf8Prefix language.uniquePrefixLength word] := by
    simp [prefixes]
  constructor
  case long =>
    intro other member
    rcases mem_append.mp member with listed | last
    · exact entered.long other listed
    · rw [mem_singleton.mp last]
      exact Nat.le_of_not_lt long
  case distinct =>
    rw [longer, nodup_append]
    refine ⟨entered.distinct, nodup_singleton _, ?_⟩
    rintro first member _ last rfl
    rw [mem_singleton.mp last] at member
    exact absent member
  case word => exact find_set_next entered.word unlisted
  case trimmed =>
    rw [trimmed_eq, longer, ← size]
    exact find_set_next entered.trimmed absent

theorem Entered.foldlM (entered : language.Entered maps words)
    (run : (rest.zipIdx words.length).foldlM language.populateWord maps = .ok next) :
    language.Entered next (words ++ rest) := by
  induction rest generalizing words maps with
  | nil =>
    cases run
    rwa [append_nil]
  | cons word rest ih =>
    obtain ⟨middle, step, others⟩ := except_bind_eq_ok.mp run
    have longer := entered.populateWord step
    rw [show words.length + 1 = (words ++ [word]).length by simp] at others
    have done := ih longer others
    rwa [append_assoc, singleton_append] at done

/-- A list of long words with distinct prefixes is accepted. -/
theorem Entered.foldlM_ok (entered : language.Entered maps words)
    (long : ∀ word ∈ rest, language.uniquePrefixLength ≤ word.length)
    (distinct : (language.prefixes (words ++ rest)).Nodup) :
    ∃ next, (rest.zipIdx words.length).foldlM language.populateWord maps = .ok next := by
  induction rest generalizing words maps with
  | nil => exact ⟨maps, rfl⟩
  | cons word rest ih =>
    have fresh : maps.trimmedWordMap.has (language.trimmed word) = false := by
      rw [Table.has_eq_false, trimmed_eq, Option.eq_none_iff_forall_ne_some]
      intro i found
      have member := mem_of_getElem? ((entered.trimmed _ i).mp found)
      rw [prefixes, map_append] at distinct
      exact (nodup_append.mp distinct).2.2 _ member _ mem_cons_self rfl
    have step : ∃ middle, language.populateWord maps (word, words.length) = .ok middle := by
      unfold Language.populateWord
      dsimp only
      rw [if_neg (Nat.not_lt_of_le (long word List.mem_cons_self)), if_neg (by simp [fresh])]
      exact ⟨_, rfl⟩
    obtain ⟨middle, step⟩ := step
    have longer := entered.populateWord step
    obtain ⟨next, others⟩ := ih longer
      (fun other member => long other (mem_cons_of_mem _ member))
      (by rwa [append_assoc, singleton_append])
    rw [length_append] at others
    refine ⟨next, ?_⟩
    rw [zipIdx_cons, foldlM_cons, step]
    exact others

theorem populateMaps_ok (count : language.wordList.length = nwords)
    (long : ∀ word ∈ language.wordList, language.uniquePrefixLength ≤ word.length)
    (distinct : (language.prefixes language.wordList).Nodup) :
    ∃ maps, language.populateMaps = .ok maps := by
  unfold populateMaps
  rw [if_neg (not_not.mpr count)]
  exact Entered.nil.foldlM_ok long distinct

end Language

end Memero
