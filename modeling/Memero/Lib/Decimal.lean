import Mathlib.Algebra.Order.Field.Rat
import Mathlib.Data.List.DropRight
import Mathlib.Data.Nat.Digits.Defs
import Mathlib.Tactic.FieldSimp
import Mathlib.Tactic.Ring

/-!
# Decimal texts

Numbers written with decimal digits, as bytes, and the value of a numeral with a point.
-/

namespace Decimal

open List Nat

/-- The byte of a digit. -/
def digit (d : Nat) : UInt8 :=
  UInt8.ofNat (48 + d)

/-- The byte `0`. -/
def zero : UInt8 := 48

/-- The byte of the decimal point. -/
def point : UInt8 := 46

/-- A byte of a digit. -/
def isDigit (byte : UInt8) : Bool :=
  48 ≤ byte && byte ≤ 57

/-- The value of a text of digits. -/
def value (text : List UInt8) : Nat :=
  text.foldl (fun total byte => total * 10 + (byte.toNat - 48)) 0

/-- A number without leading zeros. -/
def ofNat (n : Nat) : List UInt8 :=
  if n = 0 then [zero] else (Nat.digits 10 n).reverse.map digit

/-- The value of a numeral: digits, with a point inside or none. -/
def numeral (text : List UInt8) : Option ℚ :=
  let whole := text.takeWhile (· ≠ point)
  let fraction := (text.dropWhile (· ≠ point)).tail
  if whole = [] ∨ ¬ whole.all isDigit ∨ ¬ fraction.all isDigit then
    none
  else if point ∈ text ∧ fraction = [] then
    none
  else
    some (value (whole ++ fraction) / 10 ^ fraction.length)

/-! ## Values -/

theorem value_concat (text : List UInt8) (byte : UInt8) :
    value (text ++ [byte]) = value text * 10 + (byte.toNat - 48) := by
  rw [value, foldl_append]
  rfl

theorem value_append (front back : List UInt8) :
    value (front ++ back) = value front * 10 ^ back.length + value back := by
  induction back using reverseRecOn with
  | nil => simp [value]
  | append_singleton back byte ih =>
    rw [← append_assoc, value_concat, value_concat, ih, length_append, length_singleton]
    ring

variable (count n : Nat)

theorem value_zeros : value (replicate count zero) = 0 := by
  induction count with
  | zero => rfl
  | succ count ih =>
    rw [replicate_succ', value_concat, ih]
    rfl

/-- Zeros behind a text multiply its value. -/
theorem value_append_zeros (text : List UInt8) (count : Nat) :
    value (text ++ replicate count zero) = value text * 10 ^ count := by
  rw [value_append, value_zeros, length_replicate, add_zero]

/-- Zeros in front of a text do not count. -/
theorem value_zeros_append (text : List UInt8) :
    value (replicate count zero ++ text) = value text := by
  rw [value_append, value_zeros, zero_mul, zero_add]

/-! ## Digits of a number -/

theorem digit_toNat {d : Nat} (small : d < 10) : (digit d).toNat = 48 + d := by
  rw [digit, UInt8.toNat_ofNat']
  omega

variable {byte : UInt8}

theorem isDigit_iff : isDigit byte = true ↔ 48 ≤ byte.toNat ∧ byte.toNat ≤ 57 := by
  rw [isDigit, Bool.and_eq_true, decide_eq_true_iff, decide_eq_true_iff]
  rfl

theorem isDigit_digit {d : Nat} (small : d < 10) : isDigit (digit d) = true := by
  rw [isDigit_iff, digit_toNat small]
  omega

theorem value_digits {digits : List Nat} (small : ∀ d ∈ digits, d < 10) :
    value (digits.reverse.map digit) = ofDigits 10 digits := by
  induction digits with
  | nil => rfl
  | cons d digits ih =>
    have here := digit_toNat (small d mem_cons_self)
    rw [reverse_cons, map_append, map_singleton, value_concat,
      ih fun other member => small other (mem_cons_of_mem _ member), ofDigits_cons]
    omega

theorem value_ofNat : value (ofNat n) = n := by
  unfold ofNat
  split
  · rename_i empty
    rw [empty]
    rfl
  · rw [value_digits fun d member => digits_lt_base (by decide) member, ofDigits_digits]

theorem ofNat_ne_nil : ofNat n ≠ [] := by
  unfold ofNat
  split
  · exact cons_ne_nil _ _
  · rename_i positive
    rw [ne_eq, map_eq_nil_iff, reverse_eq_nil_iff]
    exact digits_ne_nil_iff_ne_zero.mpr positive

theorem isDigit_ofNat : ∀ byte ∈ ofNat n, isDigit byte = true := by
  unfold ofNat
  split
  · intro byte member
    rw [mem_singleton.mp member]
    rfl
  · intro byte member
    obtain ⟨d, listed, rfl⟩ := mem_map.mp member
    exact isDigit_digit (digits_lt_base (by decide) (mem_reverse.mp listed))

theorem isDigit_zero : isDigit zero = true := rfl

theorem ne_point_of_isDigit (digit : isDigit byte = true) : byte ≠ point := by
  rintro rfl
  cases digit

/-! ## Zeros at the end -/

theorem rdropWhile_append_cons {drops : UInt8 → Bool} (stays : drops byte = false)
    (front back : List UInt8) :
    (front ++ byte :: back).rdropWhile drops = front ++ byte :: back.rdropWhile drops := by
  induction back using reverseRecOn with
  | nil =>
    rw [rdropWhile_nil, rdropWhile_concat_neg _ _ _ (by simp [stays])]
  | append_singleton back last ih =>
    rw [← cons_append, ← append_assoc]
    by_cases goes : drops last = true
    · rw [rdropWhile_concat_pos _ _ _ goes, rdropWhile_concat_pos _ _ _ goes, ih]
    · rw [rdropWhile_concat_neg _ _ _ goes, rdropWhile_concat_neg _ _ _ goes,
        append_assoc, cons_append]

/-- A text without the zeros at its end. -/
def dropZeros (text : List UInt8) : List UInt8 :=
  text.rdropWhile (· == zero)

/-- A text is what is left of it with zeros behind. -/
theorem exists_zeros (text : List UInt8) :
    ∃ count, text = dropZeros text ++ replicate count zero := by
  unfold dropZeros
  induction text using reverseRecOn with
  | nil => exact ⟨0, rfl⟩
  | append_singleton text last ih =>
    by_cases goes : last = zero
    · obtain ⟨count, same⟩ := ih
      refine ⟨count + 1, ?_⟩
      rw [rdropWhile_concat_pos (· == zero) text last (beq_iff_eq.mpr goes),
        replicate_succ', ← append_assoc, ← same, goes]
    · refine ⟨0, ?_⟩
      rw [rdropWhile_concat_neg (· == zero) text last (mt beq_iff_eq.mp goes)]
      exact (append_nil _).symm

variable {text : List UInt8}

theorem mem_of_mem_dropZeros (member : byte ∈ dropZeros text) : byte ∈ text := by
  obtain ⟨count, same⟩ := exists_zeros text
  rw [same]
  exact mem_append_left _ member

/-- What is left has a last digit other than zero. -/
theorem value_dropZeros_mod (digits : ∀ byte ∈ text, isDigit byte = true)
    (nonempty : dropZeros text ≠ []) : value (dropZeros text) % 10 ≠ 0 := by
  have last := rdropWhile_last_not (· == zero) text nonempty
  have digit := digits _ (mem_of_mem_dropZeros (getLast_mem nonempty))
  have split := dropLast_append_getLast nonempty
  change ¬ ((dropZeros text).getLast nonempty == zero) = true at last
  rw [beq_iff_eq, ← UInt8.toNat_inj] at last
  rw [isDigit_iff] at digit
  have eight : zero.toNat = 48 := rfl
  rw [← split, value_concat]
  omega

/-- Digits have no point at their end. -/
theorem rdropWhile_point (digits : ∀ byte ∈ text, isDigit byte = true) :
    text.rdropWhile (· == point) = text := by
  rw [rdropWhile_eq_self_iff]
  intro nonempty
  rw [beq_iff_eq]
  exact ne_point_of_isDigit (digits _ (getLast_mem nonempty))

/-! ## Numerals -/

theorem numeral_of_digits (nonempty : text ≠ []) (digits : ∀ byte ∈ text, isDigit byte = true) :
    numeral text = some (value text : ℚ) := by
  have plain : ∀ byte ∈ text, decide (byte ≠ point) = true := fun byte member =>
    decide_eq_true (ne_point_of_isDigit (digits byte member))
  have whole : text.takeWhile (· ≠ point) = text := takeWhile_eq_self_iff.mpr plain
  have fraction : (text.dropWhile (· ≠ point)).tail = [] := by
    rw [dropWhile_eq_nil_iff.mpr plain]
    rfl
  have missing : point ∉ text := fun member => ne_point_of_isDigit (digits point member) rfl
  unfold numeral
  simp only [whole, fraction, append_nil, length_nil, pow_zero, div_one]
  rw [if_neg (by simpa [nonempty] using digits), if_neg (by simp [missing])]

theorem numeral_of_point {whole fraction : List UInt8} (nonempty : whole ≠ [])
    (proper : fraction ≠ []) (wholeDigits : ∀ byte ∈ whole, isDigit byte = true)
    (digits : ∀ byte ∈ fraction, isDigit byte = true) :
    numeral (whole ++ point :: fraction) =
      some (value (whole ++ fraction) / 10 ^ fraction.length : ℚ) := by
  have plain : ∀ byte ∈ whole, decide (byte ≠ point) = true := fun byte member =>
    decide_eq_true (ne_point_of_isDigit (wholeDigits byte member))
  have front : (whole ++ point :: fraction).takeWhile (· ≠ point) = whole := by
    rw [takeWhile_append_of_pos plain]
    simp
  have back : ((whole ++ point :: fraction).dropWhile (· ≠ point)).tail = fraction := by
    rw [dropWhile_append_of_pos plain]
    simp
  unfold numeral
  simp only [front, back]
  rw [if_neg (by simpa [nonempty] using ⟨wholeDigits, digits⟩), if_neg (by simp [proper])]

end Decimal
