import Memero.Basic.Varint
import Memero.Lib.Word
import Mathlib.Data.Nat.Digits.Lemmas
import Mathlib.Tactic.IntervalCases

/-!
# Base58

`tools/common/base58.cpp`: a string is cut into blocks of eight bytes, each of which becomes eleven
digits; a shorter last block becomes fewer. A block is a number, and its digits are those of the
number to base 58, with as many as the largest number of that many bytes needs. Decoding undoes
encoding, and accepts nothing else, since a block whose number is too large is refused.
-/

namespace Memero

open List Nat Option

namespace Base58

/-- `alphabet`. -/
def alphabet : List UInt8 :=
  ascii "123456789ABCDEFGHJKLMNPQRSTUVWXYZabcdefghijkmnopqrstuvwxyz"

/-- `alphabet[i]`. -/
def letter (i : Nat) : UInt8 :=
  alphabet.getD i 0

/-- `alphabet_size`. -/
def alphabetSize : Nat := 58

/-- `encoded_block_sizes`. -/
def encodedBlockSizes : List Nat :=
  [0, 2, 3, 5, 6, 7, 9, 10, 11]

def encodedBlockSize (size : Nat) : Nat :=
  encodedBlockSizes.getD size 0

/-- `full_block_size`. -/
def fullBlockSize : Nat := 8

/-- `full_encoded_block_size`. -/
def fullEncodedBlockSize : Nat := 11

/-- The table of `reverse_alphabet`, from the first letter to the last. -/
def reverseTable : List (Option Nat) :=
  (List.range 58).foldl (fun table i => table.set ((letter i).toNat - (letter 0).toNat) (some i))
    (List.replicate ((letter 57).toNat - (letter 0).toNat + 1) none)

/-- `reverse_alphabet`, with `none` for its `-1`. -/
def reverseAlphabet (char : UInt8) : Option Nat :=
  -- a negative difference becomes a large index
  if char.toNat < (letter 0).toNat then none
  else (reverseTable.getD (char.toNat - (letter 0).toNat) none)

/-- `decoded_block_sizes`, with `none` for its `-1`. -/
def decodedBlockSize (encodedSize : Nat) : Option Nat :=
  ((List.range 9).foldl (fun table i => table.set (encodedBlockSize i) (some i))
    (List.replicate 12 none)).getD encodedSize none

/-! ## Blocks -/

/-- The loop of `encode_block`, with the number of places before the last letter written. -/
def encodeBlockLoop : Nat → Nat → List UInt8 → List UInt8
  | 0, _, res => res
  | i + 1, num, res =>
    if 0 < num then
      encodeBlockLoop i (num / alphabetSize) (res.set i (letter (num % alphabetSize)))
    else
      res

/-- `encode_block`, into a block that holds the first letter everywhere. -/
def encodeBlock (block : List UInt8) : List UInt8 :=
  encodeBlockLoop (encodedBlockSize block.length) (ofBigEndian block)
    (List.replicate (encodedBlockSize block.length) (letter 0))

/-- The loop of `decode_block`, over the letters from the last to the first. -/
def decodeBlockLoop : List UInt8 → Nat → Nat → Option Nat
  | [], resNum, _ => some resNum
  | char :: rest, resNum, order => do
      let digit ← reverseAlphabet char
      let p := order * digit
      let tmp := resNum + p
      if tmp > 2 ^ 64 - 1 ∨ p > 2 ^ 64 - 1 then
        none
      else
        decodeBlockLoop rest tmp (Word.wrap 64 (order * alphabetSize))

/-- `decode_block`. -/
def decodeBlock (block : List UInt8) : Option (List UInt8) := do
  let resSize ← decodedBlockSize block.length
  if resSize = 0 then
    none
  else
    let resNum ← decodeBlockLoop block.reverse 0 1
    if resSize < fullBlockSize ∧ 2 ^ (8 * resSize) ≤ resNum then
      none
    else
      some (bigEndian resSize resNum)

/-! ## Strings -/

/-- The blocks of a given size at the start of a string, and the rest. -/
def fullBlocks (size : Nat) (data : List UInt8) : List (List UInt8) :=
  (List.range (data.length / size)).map fun i => (data.drop (i * size)).take size

def lastBlock (size : Nat) (data : List UInt8) : List UInt8 :=
  data.drop (data.length / size * size)

/-- `encode`. -/
def encode (data : List UInt8) : List UInt8 :=
  (fullBlocks fullBlockSize data).flatMap encodeBlock ++
    if 0 < data.length % fullBlockSize then encodeBlock (lastBlock fullBlockSize data) else []

/-- `decode`. -/
def decode (enc : List UInt8) : Option (List UInt8) := do
  let _ ← decodedBlockSize (enc.length % fullEncodedBlockSize)
  let blocks ← (fullBlocks fullEncodedBlockSize enc).mapM decodeBlock
  let last ←
    if 0 < enc.length % fullEncodedBlockSize then decodeBlock (lastBlock fullEncodedBlockSize enc)
    else some []
  return blocks.flatten ++ last

/-! ## Letters and sizes -/

variable {digit : Nat} {chars : List UInt8}

theorem reverseAlphabet_letter (small : digit < 58) :
    reverseAlphabet (letter digit) = some digit := by
  revert digit
  decide +kernel

theorem letter_of_reverseAlphabet {char : UInt8} (found : reverseAlphabet char = some digit) :
    digit < 58 ∧ letter digit = char := by
  have table : ∀ n < 256, ∀ digit ∈ reverseAlphabet (UInt8.ofNat n),
      digit < 58 ∧ letter digit = UInt8.ofNat n := by
    decide +kernel
  have entry := table char.toNat char.toNat_lt
  rw [UInt8.ofNat_toNat] at entry
  exact entry digit found

/-- Letters are digits. -/
theorem mapM_reverseAlphabet {digits : List Nat} :
    chars.mapM reverseAlphabet = some digits ↔
      (∀ digit ∈ digits, digit < 58) ∧ chars = digits.map letter := by
  induction chars generalizing digits with
  | nil =>
    constructor
    · intro none
      cases none
      exact ⟨forall_mem_nil _, rfl⟩
    · rintro ⟨-, empty⟩
      rw [map_eq_nil_iff.mp empty.symm]
      rfl
  | cons char chars ih =>
    rw [mapM_cons]
    constructor
    · intro found
      obtain ⟨digit, one, more⟩ := bind_eq_some_iff.mp found
      obtain ⟨others, two, same⟩ := bind_eq_some_iff.mp more
      cases same
      obtain ⟨small, rfl⟩ := letter_of_reverseAlphabet one
      obtain ⟨allSmall, rfl⟩ := ih.mp two
      exact ⟨forall_mem_cons.mpr ⟨small, allSmall⟩, rfl⟩
    · rintro ⟨small, same⟩
      cases digits with
      | nil => cases same
      | cons digit others =>
        obtain ⟨rfl, rest⟩ := cons.inj same
        rw [forall_mem_cons] at small
        rw [reverseAlphabet_letter small.1, ih.mpr ⟨small.2, rest⟩]
        rfl

variable {size : Nat} {block data : List UInt8}

theorem decodedBlockSize_encodedBlockSize (short : size ≤ 8) :
    decodedBlockSize (encodedBlockSize size) = some size := by
  revert size
  decide

theorem encodedBlockSize_of_decoded {encodedSize : Nat}
    (found : decodedBlockSize encodedSize = some size) :
    size ≤ 8 ∧ encodedBlockSize size = encodedSize := by
  have table : ∀ n < 12, ∀ size ∈ decodedBlockSize n, size ≤ 8 ∧ encodedBlockSize size = n := by
    decide
  by_cases inside : encodedSize < 12
  · exact table encodedSize inside size found
  · unfold decodedBlockSize at found
    rw [getD_eq_getElem?_getD, getElem?_eq_none (not_lt.mp inside)] at found
    cases found

/-- The digits suffice. -/
theorem pow_le_pow_encodedBlockSize (short : size ≤ 8) :
    256 ^ size ≤ 58 ^ encodedBlockSize size := by
  revert size
  decide

/-! ## A block -/

theorem digitsAppend_succ (length n : Nat) :
    digitsAppend 58 (length + 1) n = n % 58 :: digitsAppend 58 length (n / 58) := by
  unfold digitsAppend
  by_cases zero : n = 0
  · rw [zero]
    rfl
  · rw [digits_def' (by decide) (pos_of_ne_zero zero), length_cons,
      Nat.add_sub_add_right, List.cons_append]

theorem encodeBlockLoop_eq {places num : Nat} (fits : num < 58 ^ places) (suffix : List UInt8) :
    encodeBlockLoop places num (replicate places (letter 0) ++ suffix) =
      ((digitsAppend 58 places num).map letter).reverse ++ suffix := by
  induction places generalizing num suffix with
  | zero =>
    have zero : num = 0 := by simpa using fits
    rw [zero]
    rfl
  | succ places ih =>
    have higher : num / 58 < 58 ^ places := by
      rw [div_lt_iff_lt_mul (by decide)]
      exact fits
    rw [encodeBlockLoop, digitsAppend_succ, map_cons, reverse_cons, append_assoc]
    split
    · rw [replicate_succ', append_assoc, set_append_right _ _ (by simp),
        List.length_replicate, Nat.sub_self]
      exact ih higher _
    · have zero : num = 0 := by omega
      rw [zero, ← ih (by rw [zero] at higher; exact higher), replicate_succ', append_assoc]
      cases places with
      | zero => rfl
      | succ places => rfl

/-- The digits of a block are those of its number, with the highest first. -/
theorem encodeBlock_eq (short : block.length ≤ 8) :
    encodeBlock block =
      ((digitsAppend 58 (encodedBlockSize block.length) (ofBigEndian block)).map
        letter).reverse := by
  have fits := (ofBigEndian_lt block).trans_le (pow_le_pow_encodedBlockSize short)
  have loop := encodeBlockLoop_eq fits []
  rwa [append_nil, append_nil] at loop

theorem encodeBlock_length (short : block.length ≤ 8) :
    (encodeBlock block).length = encodedBlockSize block.length := by
  rw [encodeBlock_eq short, length_reverse, length_map, length_digitsAppend (by decide)]
  exact (ofBigEndian_lt block).trans_le (pow_le_pow_encodedBlockSize short)

/-- The loop of `decode_block` reads a number that fits in 64 bits. The order of a digit is only
cut to 64 bits after the last. -/
theorem decodeBlockLoop_eq_some {acc order place result : Nat} (room : place + chars.length ≤ 11)
    (order_eq : chars ≠ [] → order = 58 ^ place) (small : acc < 2 ^ 64) :
    decodeBlockLoop chars acc order = some result ↔
      ∃ digits, chars.mapM reverseAlphabet = some digits ∧
        result = acc + 58 ^ place * ofDigits 58 digits ∧ result < 2 ^ 64 := by
  induction chars generalizing acc order place with
  | nil =>
    rw [decodeBlockLoop]
    constructor
    · intro same
      cases same
      exact ⟨[], rfl, by simp, small⟩
    · rintro ⟨digits, none, same, -⟩
      cases none
      rw [same]
      simp
  | cons char chars ih =>
    rw [length_cons] at room
    have next : chars ≠ [] → Word.wrap 64 (58 ^ place * 58) = 58 ^ (place + 1) := by
      intro more
      have some := length_pos_iff.mpr more
      apply Word.wrap_of_lt
      calc 58 ^ (place + 1) ≤ 58 ^ 10 := Nat.pow_le_pow_right (by decide) (by omega)
        _ < 2 ^ 64 := by decide
    have step : ∀ digit others, acc + 58 ^ place * ofDigits 58 (digit :: others) =
        acc + 58 ^ place * digit + 58 ^ (place + 1) * ofDigits 58 others := by
      intro digit others
      rw [ofDigits_cons]
      ring
    rw [decodeBlockLoop, mapM_cons, order_eq (cons_ne_nil _ _)]
    constructor
    · intro found
      obtain ⟨digit, one, more⟩ := bind_eq_some_iff.mp found
      dsimp only at more
      split at more
      · cases more
      · rename_i inside
        obtain ⟨others, two, same, fits⟩ := (ih (by omega) next (by omega)).mp more
        refine ⟨digit :: others, ?_, same.trans (step digit others).symm, fits⟩
        rw [one, two]
        rfl
    · rintro ⟨digits, found, same, fits⟩
      obtain ⟨digit, one, more⟩ := bind_eq_some_iff.mp found
      obtain ⟨others, two, list⟩ := bind_eq_some_iff.mp more
      cases list
      rw [step] at same
      rw [one]
      dsimp only [bind, Option.bind]
      rw [if_neg (by omega)]
      exact (ih (by omega) next (by omega)).mpr ⟨others, two, same, fits⟩

variable {enc : List UInt8}

/-- A block is decoded to the bytes that it encodes. -/
theorem decodeBlock_eq_some :
    decodeBlock enc = some block ↔
      0 < block.length ∧ block.length ≤ 8 ∧ encodeBlock block = enc := by
  constructor
  · intro found
    obtain ⟨size, sized, more⟩ := bind_eq_some_iff.mp found
    obtain ⟨short, places⟩ := encodedBlockSize_of_decoded sized
    split at more
    · cases more
    · rename_i nonzero
      obtain ⟨num, read, rest⟩ := bind_eq_some_iff.mp more
      split at rest
      · cases rest
      · rename_i inside
        cases rest
        have room : 0 + enc.reverse.length ≤ 11 := by
          have largest : ∀ size ≤ 8, encodedBlockSize size ≤ 11 := by decide
          rw [zero_add, length_reverse, ← places]
          exact largest size short
        obtain ⟨digits, mapped, value, below⟩ :=
          (decodeBlockLoop_eq_some room (fun _ => rfl) (by decide)).mp read
        rw [zero_add, pow_zero, one_mul] at value
        obtain ⟨small, letters⟩ := mapM_reverseAlphabet.mp mapped
        have fits : num < 256 ^ size := by
          unfold fullBlockSize at inside
          rw [show 256 = 2 ^ 8 by rfl, ← pow_mul]
          by_cases full : size = 8
          · rw [full]
            exact below
          · omega
        have length : digits.length = encodedBlockSize size := by
          have lengths := congrArg List.length letters
          rw [length_reverse, length_map] at lengths
          rw [places, lengths]
        rw [bigEndian_length]
        refine ⟨pos_of_ne_zero nonzero, short, ?_⟩
        rw [encodeBlock_eq (by rwa [bigEndian_length]), bigEndian_length,
          ofBigEndian_bigEndian fits, value,
          (setInvOn_digitsAppend_ofDigits (by decide) _).1 ⟨length, small⟩, ← letters,
          reverse_reverse]
  · rintro ⟨positive, short, rfl⟩
    have fits := ofBigEndian_lt block
    have wide := fits.trans_le (pow_le_pow_encodedBlockSize short)
    have below : ofBigEndian block < 2 ^ 64 := by
      calc ofBigEndian block < 256 ^ block.length := fits
        _ ≤ 256 ^ 8 := Nat.pow_le_pow_right (by decide) short
        _ = 2 ^ 64 := by decide
    have room : 0 + (encodeBlock block).reverse.length ≤ 11 := by
      have largest : ∀ size ≤ 8, encodedBlockSize size ≤ 11 := by decide
      rw [zero_add, length_reverse, encodeBlock_length short]
      exact largest _ short
    have read : decodeBlockLoop (encodeBlock block).reverse 0 1 = some (ofBigEndian block) := by
      refine (decodeBlockLoop_eq_some room (fun _ => rfl) (by decide)).mpr
        ⟨digitsAppend 58 (encodedBlockSize block.length) (ofBigEndian block), ?_, ?_, below⟩
      · rw [mapM_reverseAlphabet, encodeBlock_eq short, reverse_reverse]
        exact ⟨fun digit => lt_of_mem_digitsAppend (by decide) _ _, rfl⟩
      · rw [(setInvOn_digitsAppend_ofDigits (by decide) _).2 wide]
        ring
    unfold decodeBlock
    rw [encodeBlock_length short, decodedBlockSize_encodedBlockSize short, read]
    dsimp only [bind, Option.bind]
    rw [if_neg (by omega), if_neg, bigEndian_ofBigEndian]
    rintro ⟨-, large⟩
    rw [show 256 = 2 ^ 8 by rfl, ← Nat.pow_mul] at fits
    omega

/-! ## Block by block -/

theorem fullBlocks_append (length : block.length = size) (positive : 0 < size) (rest : List UInt8) :
    fullBlocks size (block ++ rest) = block :: fullBlocks size rest := by
  unfold fullBlocks
  rw [length_append, length, add_div_left _ positive, range_succ_eq_map,
    List.map_cons, List.map_map, Nat.zero_mul, List.drop_zero, List.take_left' length]
  congr 1
  apply map_congr_left
  intro i _
  rw [Function.comp_apply, succ_mul, add_comm (i * size) size, ← length, drop_length_add_append]

theorem lastBlock_append (length : block.length = size) (positive : 0 < size) (rest : List UInt8) :
    lastBlock size (block ++ rest) = lastBlock size rest := by
  unfold lastBlock
  rw [length_append, length, add_div_left _ positive, succ_mul, add_comm (_ * size) size]
  nth_rewrite 1 [← length]
  rw [drop_length_add_append]

theorem fullBlocks_of_lt (short : data.length < size) : fullBlocks size data = [] := by
  unfold fullBlocks
  rw [div_eq_of_lt short]
  rfl

theorem lastBlock_of_lt (short : data.length < size) : lastBlock size data = data := by
  unfold lastBlock
  rw [div_eq_of_lt short, zero_mul, drop_zero]

theorem encode_append (length : block.length = 8) (rest : List UInt8) :
    encode (block ++ rest) = encodeBlock block ++ encode rest := by
  unfold encode fullBlockSize
  rw [fullBlocks_append length (by decide), lastBlock_append length (by decide),
    flatMap_cons, length_append, length, add_mod_left, append_assoc]

theorem encode_of_lt (short : data.length < 8) (some : data ≠ []) :
    encode data = encodeBlock data := by
  unfold encode fullBlockSize
  rw [fullBlocks_of_lt short, lastBlock_of_lt short, mod_eq_of_lt short, flatMap_nil,
    nil_append, if_pos (length_pos_iff.mpr some)]

theorem decode_append (length : block.length = 11) (rest : List UInt8) :
    decode (block ++ rest) =
      (decodeBlock block).bind fun first => (decode rest).map fun others => first ++ others := by
  unfold decode fullEncodedBlockSize
  rw [fullBlocks_append length (by decide), lastBlock_append length (by decide),
    length_append, length, add_mod_left, mapM_cons]
  -- the order of the checks does not show in the result
  cases decodedBlockSize (rest.length % 11) with
  | none => cases decodeBlock block <;> rfl
  | some size =>
    cases decodeBlock block with
    | none => rfl
    | some first =>
      cases (fullBlocks 11 rest).mapM decodeBlock with
      | none => rfl
      | some blocks =>
        split <;> cases (decodeBlock (lastBlock 11 rest)) <;> simp

theorem decode_of_lt (short : enc.length < 11) (some : enc ≠ []) :
    decode enc = decodeBlock enc := by
  unfold decode fullEncodedBlockSize
  rw [fullBlocks_of_lt short, lastBlock_of_lt short, mod_eq_of_lt short]
  cases sized : decodedBlockSize enc.length with
  | none =>
    unfold decodeBlock
    rw [sized]
    rfl
  | some size =>
    dsimp only [List.mapM_nil, bind, pure, Option.bind]
    rw [if_pos (List.length_pos_iff.mpr some)]
    cases decodeBlock enc <;> rfl

/-- A string is less than a block, or a block in front of a string. -/
theorem blocks_induction (positive : 0 < size) {motive : List UInt8 → Prop}
    (short : ∀ data, data.length < size → motive data)
    (step : ∀ block rest, block.length = size → motive rest → motive (block ++ rest))
    (data : List UInt8) : motive data := by
  induction length : data.length using Nat.strongRecOn generalizing data with
  | ind n ih =>
    by_cases less : data.length < size
    · exact short data less
    · rw [← take_append_drop size data]
      apply step
      · rw [length_take]
        omega
      · exact ih (data.drop size).length (by rw [length_drop]; omega) _ rfl

/-- Eight bytes become eleven digits. -/
theorem encodeBlock_full (full : block.length = 8) : (encodeBlock block).length = 11 := by
  rw [encodeBlock_length full.le, full]
  rfl

theorem decode_encode (data : List UInt8) : decode (encode data) = some data := by
  induction data using blocks_induction (by decide : 0 < 8) with
  | short data short =>
    by_cases empty : data = []
    · rw [empty]
      rfl
    · have positive := length_pos_iff.mpr empty
      have size := encodeBlock_length short.le
      have places : ∀ size < 8, 0 < size → encodedBlockSize size < 11 ∧
          encodedBlockSize size ≠ 0 := by decide
      obtain ⟨small, some⟩ := places _ short positive
      rw [← size] at small some
      rw [encode_of_lt short empty, decode_of_lt small (fun nil => some (by rw [nil]; rfl))]
      exact decodeBlock_eq_some.mpr ⟨positive, short.le, rfl⟩
  | step block rest full ih =>
    have first : decodeBlock (encodeBlock block) = some block :=
      decodeBlock_eq_some.mpr ⟨by omega, full.le, rfl⟩
    rw [encode_append full, decode_append (encodeBlock_full full), first, bind_some, ih, map_some]

theorem encode_of_decode (found : decode enc = some data) : encode data = enc := by
  induction enc using blocks_induction (by decide : 0 < 11) generalizing data with
  | short enc short =>
    by_cases empty : enc = []
    · rw [empty] at found ⊢
      cases found
      rfl
    · rw [decode_of_lt short empty] at found
      obtain ⟨positive, small, encoded⟩ := decodeBlock_eq_some.mp found
      have less : data.length < 8 := by
        apply lt_of_le_of_ne small
        intro eight
        rw [← encoded, encodeBlock_full eight] at short
        exact absurd short (by decide)
      rw [encode_of_lt less (length_pos_iff.mp positive), encoded]
  | step block rest full ih =>
    rw [decode_append full] at found
    obtain ⟨first, one, more⟩ := bind_eq_some_iff.mp found
    obtain ⟨others, two, rfl⟩ := map_eq_some_iff.mp more
    obtain ⟨-, small, encoded⟩ := decodeBlock_eq_some.mp one
    have eight : first.length = 8 := by
      have width := encodeBlock_length small
      have table : ∀ size ≤ 8, encodedBlockSize size = 11 → size = 8 := by decide
      rw [encoded, full] at width
      exact table _ small width.symm
    rw [encode_append eight, encoded, ih two]

theorem encode_length (data : List UInt8) :
    (encode data).length = data.length / 8 * 11 + encodedBlockSize (data.length % 8) := by
  induction data using blocks_induction (by decide : 0 < 8) with
  | short data short =>
    rw [div_eq_of_lt short, mod_eq_of_lt short, zero_mul, zero_add]
    by_cases empty : data = []
    · rw [empty]
      rfl
    · rw [encode_of_lt short empty, encodeBlock_length short.le]
  | step block rest full ih =>
    rw [encode_append full, length_append, encodeBlock_full full, length_append, full, add_mod_left]
    omega

end Base58

end Memero
