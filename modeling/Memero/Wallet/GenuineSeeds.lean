import Memero.Wallet.Seeds

/-!
# Genuine seeds

Which phrases are accepted only for the key that they are the phrase of. Three positions can stand
for more than a number of 32 bits, and nothing refuses such a phrase; and phrases of 12 words are
refused, because the test for them divides by 32 where it should divide by four.
-/

namespace Memero

open List

/-- What a phrase should do. One of 25 words that is accepted is the phrase of the key it restores,
prefix by prefix; one of 12 words of the list restores their bytes twice. -/
structure Genuine (language : LoadedLanguage) (phrase : List UInt8) : Prop where
  produced : (seedWords phrase).length = 25 → ∀ key languageName,
    wordsToSecretKey [language] phrase = .ok (some (key, languageName)) →
      language.prefixes (seedWords phrase) = language.prefixes (language.phraseWords key)
  doubled : (seedWords phrase).length = 12 → (∀ word ∈ seedWords phrase, word ∈ language.wordList) →
    ∃ languageName, wordsToSecretKey [language] phrase =
      .ok (some (decodeIndices nwords ((seedWords phrase).map fun word => language.wordList.idxOf word) 4 ++
        decodeIndices nwords ((seedWords phrase).map fun word => language.wordList.idxOf word) 4,
          languageName))

/-- A phrase of 25 words of known prefixes that checks is produced for the key it restores exactly
if every three positions stand for a number of 32 bits. -/
theorem LoadedLanguage.produced_iff {language : LoadedLanguage} {stems : List MnemonicWord}
    {indices : List Nat} {last : Nat} (size : indices.length = 24)
    (inside : ∀ i ∈ indices ++ [last], i < nwords)
    (known : stems = (indices ++ [last]).map language.prefixAt) (checks : Checks stems) :
    stems = language.prefixes (language.phraseWords (decodeIndices nwords indices 8)) ↔
      Representable indices := by
  have front : ∀ i ∈ indices, i < nwords := fun i member => inside i (mem_append_left _ member)
  have keySize : (keyIndices (decodeIndices nwords indices 8)).length = 24 :=
    keyIndices_length (decodeIndices_length _ _ _)
  have keyInside := keyIndices_lt (decodeIndices nwords indices 8)
  have produced := language.checks_withChecksum
    ((keyIndices (decodeIndices nwords indices 8)).map language.wordAt)
  obtain ⟨other, listed, words⟩ := language.withChecksum_eq
    (keyIndices (decodeIndices nwords indices 8)) (ne_nil_of_length_eq_add_one keySize)
  have otherInside : ∀ i ∈ keyIndices (decodeIndices nwords indices 8) ++ [other], i < nwords := by
    intro i member
    rcases mem_append.mp member with below | top
    · exact keyInside i below
    · exact mem_singleton.mp top ▸ keyInside other listed
  rw [words, language.prefixes_map_wordAt otherInside] at produced
  rw [← keyIndices_decodeIndices_iff size front, language.phraseWords_eq, words,
    language.prefixes_map_wordAt otherInside, known]
  constructor
  · intro same
    have equal := language.map_prefixAt_injective inside otherInside same
    exact ((append_inj equal (by rw [size, keySize])).1).symm
  · intro same
    -- both phrases check, so their last prefixes are the one that the others choose
    rw [known, map_append, map_singleton, checks_concat] at checks
    rw [same, map_append, map_singleton, checks_concat] at produced
    rw [same, map_append, map_append, map_singleton, map_singleton, ← checks, ← produced]

/-- A phrase does what it should exactly if it does not have 12 words of the list, and, if it has 25
words of known prefixes and checks, every three positions stand for a number of 32 bits. -/
theorem genuine_iff (language : LoadedLanguage) (phrase : List UInt8) :
    Genuine language phrase ↔
      ((seedWords phrase).length = 25 → Checks (language.prefixes (seedWords phrase)) →
        ∀ indices : List Nat, (∀ i ∈ indices, i < nwords) →
          language.prefixes (seedWords phrase) = indices.map language.prefixAt →
            Representable indices) ∧
        ¬ ((seedWords phrase).length = 12 ∧ ∀ word ∈ seedWords phrase, word ∈ language.wordList) := by
  -- the key of a phrase of 25 known words, by its positions
  have restored (size : (seedWords phrase).length = 25) {indices : List Nat}
      (known : language.prefixes (seedWords phrase) = indices.map language.prefixAt) :
      ∃ front last, indices = front ++ [last] ∧ front.length = 24 := by
    have length : indices.length = 25 := by
      rw [← length_map (f := language.prefixAt), ← known, language.prefixes_length, size]
    rcases eq_nil_or_concat indices with rfl | ⟨front, last, rfl⟩
    · cases length
    · rw [concat_eq_append, length_append] at length
      exact ⟨front, last, concat_eq_append, Nat.succ.inj length⟩
  constructor
  · intro genuine
    refine ⟨fun size checks indices inside known => ?_, fun ⟨size, listed⟩ => ?_⟩
    · obtain ⟨front, last, rfl, frontSize⟩ := restored size known
      have positions := language.mapM_find_eq_some.mpr ⟨inside, known⟩
      have accepted := @LoadedLanguage.wordsToSecretKey_checked language phrase size
      rw [positions, Option.bind_some, if_pos checks, decodeIndices_append frontSize] at accepted
      rw [representable_append frontSize]
      exact (LoadedLanguage.produced_iff frontSize inside known checks).mp
        (genuine.produced size _ _ accepted)
    · obtain ⟨languageName, accepted⟩ := genuine.doubled size listed
      rw [LoadedLanguage.wordsToSecretKey_half size] at accepted
      cases accepted
  · rintro ⟨representable, long⟩
    refine ⟨fun size key languageName accepted => ?_, fun size listed => absurd ⟨size, listed⟩ long⟩
    rw [LoadedLanguage.wordsToSecretKey_checked size, Except.ok.injEq, Option.bind_eq_some_iff]
      at accepted
    obtain ⟨indices, positions, found⟩ := accepted
    split at found
    · rename_i checks
      obtain ⟨inside, known⟩ := language.mapM_find_eq_some.mp positions
      obtain ⟨front, last, rfl, frontSize⟩ := restored size known
      have fits := representable size checks _ inside known
      rw [representable_append frontSize] at fits
      rw [decodeIndices_append frontSize] at found
      cases found
      exact (LoadedLanguage.produced_iff frontSize inside known checks).mpr fits
    · cases found

/-- The last three positions of the list, eight times. -/
def highIndices : List Nat :=
  (List.replicate 8 [1625, 1624, 1623]).flatten

/-- A phrase of the last three words of the list is accepted, though it is not the phrase of the key
that it restores, and a phrase of 12 words of the list is refused. -/
theorem forged_phrase_accepted :
    ∃ phrase key half : List UInt8, (seedWords phrase).length = 25 ∧
      wordsToSecretKey [letters] phrase = .ok (some (key, letters.languageName)) ∧
      letters.prefixes (seedWords phrase) ≠ letters.prefixes (letters.phraseWords key) ∧
      wordsToSecretKey [letters] (Tokens.join 0x20 (letters.phraseWords key)) =
        .ok (some (key, letters.languageName)) ∧
      (seedWords half).length = 12 ∧ (∀ word ∈ seedWords half, word ∈ letters.wordList) ∧
      wordsToSecretKey [letters] half = .ok none ∧
      ¬ Genuine letters phrase ∧ ¬ Genuine letters half := by
  have size : highIndices.length = 24 := by decide
  have inside : ∀ i ∈ highIndices, i < nwords := by decide
  have nonempty : highIndices ≠ [] := by decide
  have words := LoadedLanguage.seedWords_withChecksum letters_free nonempty inside
  have restored := letters.wordsToSecretKey_of_prefixes size inside (congrArg letters.prefixes words)
  obtain ⟨last, listed, positions⟩ := letters.withChecksum_eq highIndices nonempty
  have insides : ∀ i ∈ highIndices ++ [last], i < nwords := by
    intro i member
    rcases mem_append.mp member with front | top
    · exact inside i front
    · exact mem_singleton.mp top ▸ inside last listed
  have length : (letters.withChecksum (highIndices.map letters.wordAt)).length = 25 := by
    rfl
  -- three positions at the end of the list stand for the largest number
  have large : ¬ Representable highIndices := by
    intro fits
    exact absurd (fits 0 (by decide)) (by decide)
  have forged : letters.prefixes (letters.withChecksum (highIndices.map letters.wordAt)) ≠
      letters.prefixes (letters.phraseWords (decodeIndices nwords highIndices 8)) := by
    intro same
    refine large ((LoadedLanguage.produced_iff size insides ?_ (letters.checks_withChecksum _)).mp same)
    rw [positions, letters.prefixes_map_wordAt insides]
  have keySize : (decodeIndices nwords highIndices 8).length = secretKeySize :=
    decodeIndices_length _ _ _
  have keyWords := LoadedLanguage.seedWords_withChecksum letters_free
    (ne_nil_of_length_eq_add_one (keyIndices_length keySize))
    (keyIndices_lt (decodeIndices nwords highIndices 8))
  have halfWords : seedWords (Tokens.join 0x20 (replicate 12 (letterWord 0))) =
      replicate 12 (letterWord 0) := by
    decide +kernel
  have halfListed : ∀ word ∈ replicate 12 (letterWord 0), word ∈ letters.wordList := by
    intro word member
    rw [eq_of_mem_replicate member, letters_wordList]
    exact mem_map_of_mem (mem_range.mpr (by decide))
  have halfRefused : wordsToSecretKey [letters]
      (Tokens.join 0x20 (replicate 12 (letterWord 0))) = .ok none :=
    LoadedLanguage.wordsToSecretKey_half (by rw [halfWords]; rfl)
  refine ⟨_, decodeIndices nwords highIndices 8, _, by rw [words, length], restored,
    by rwa [words], ?_, by rw [halfWords]; rfl, by rwa [halfWords], halfRefused, ?_, ?_⟩
  · rw [letters.phraseWords_eq, letters.wordsToSecretKey_of_prefixes (keyIndices_length keySize)
      (keyIndices_lt _) (congrArg letters.prefixes keyWords), decodeIndices_keyIndices keySize]
  · intro genuine
    have same := genuine.produced (by rw [words, length]) _ _ restored
    rw [words] at same
    exact forged same
  · intro genuine
    obtain ⟨languageName, accepted⟩ := genuine.doubled (by rw [halfWords]; rfl) (by rwa [halfWords])
    rw [halfRefused] at accepted
    cases accepted

end Memero
