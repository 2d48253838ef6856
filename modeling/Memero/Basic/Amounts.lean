import Memero.Basic.Bytes
import Memero.Lib.Decimal
import Memero.Lib.Tokens

/-!
# Amounts as text

`cryptonote/basic/controller/format_utils`: amounts are printed with a decimal point in a display
unit, without zeros at the end, and read back.
-/

namespace Memero

open List

open Decimal (point zero isDigit value)

/-! ## Display units -/

/-- `set_default_decimal_point`: the value that `default_decimal_point` gets. -/
def setDefaultDecimalPoint (decimalPoint : Nat) : Except String Nat :=
  match decimalPoint with
  | 11 | 9 | 6 | 3 | 0 => .ok decimalPoint
  | _ => .error ("Invalid decimal point specification: " ++ toString decimalPoint)

/-- `(unsigned int)-1`: the display unit that stands for the default. -/
def defaultUnit : Nat := 2 ^ 32 - 1

/-! ## Printing -/

section Printing

variable (defaultDecimalPoint : Nat)

/-- `insert_money_decimal_point`. -/
def insertMoneyDecimalPoint (x : List UInt8) (decimalPointIn : Nat) : List UInt8 :=
  let decimalPoint := if decimalPointIn = defaultUnit then defaultDecimalPoint else decimalPointIn
  let s :=
    if x.length < decimalPoint + 1 then List.replicate (decimalPoint + 1 - x.length) zero ++ x else x
  if 0 < decimalPoint then
    s.take (s.length - decimalPoint) ++ point :: s.drop (s.length - decimalPoint)
  else
    s

/-- `print_money_64`. -/
def printMoney64 (amount decimalPoint : Nat) : List UInt8 :=
  insertMoneyDecimalPoint defaultDecimalPoint (Decimal.ofNat amount) decimalPoint

/-- `print_money`: the zeros at the end go, then the point. -/
def printMoney (amount decimalPoint : Nat) : List UInt8 :=
  let str := printMoney64 defaultDecimalPoint amount decimalPoint
  (str.rdropWhile (· == zero)).rdropWhile (· == point)

end Printing

/-! ## Reading -/

/-- `get_xtype_from_string` for a number of 64 bits. -/
def getUint64FromString (text : List UInt8) : Option Nat :=
  if ¬ text.all isDigit ∨ text = [] then none
  else if value text < 2 ^ 64 then some (value text)
  else none

/-- The loop of `parse_amount` that takes away zeros behind the smallest unit: the number of digits
behind the point and the text that are left. -/
def dropExcessZeros (defaultDecimalPoint : Nat) : Nat → List UInt8 → Nat × List UInt8
  | 0, text => (0, text)
  | fractionSize + 1, text =>
    if defaultDecimalPoint < fractionSize + 1 ∧ text.getLast? = some zero then
      dropExcessZeros defaultDecimalPoint fractionSize text.dropLast
    else
      (fractionSize + 1, text)

/-- The end of `parse_amount`: the digits without their point are filled up with zeros. -/
def readDigits (defaultDecimalPoint fractionSize : Nat) (text : List UInt8) : Option Nat :=
  if text = [] then none
  else getUint64FromString
    (if fractionSize < defaultDecimalPoint then
      text ++ List.replicate (defaultDecimalPoint - fractionSize) zero
    else text)

/-- `parse_amount`. -/
def parseAmount (defaultDecimalPoint : Nat) (strAmount : List UInt8) : Option Nat :=
  let strAmount := Tokens.trim isSpace strAmount
  let pointIndex := strAmount.idxOf point
  if pointIndex < strAmount.length then
    let (fractionSize, strAmount) := dropExcessZeros defaultDecimalPoint
      (strAmount.length - pointIndex - 1) strAmount
    if defaultDecimalPoint < fractionSize then none
    else readDigits defaultDecimalPoint fractionSize (strAmount.eraseIdx pointIndex)
  else
    readDigits defaultDecimalPoint 0 strAmount

/-! ## Digits with and without a point -/

theorem isSpace_of_isDigit {byte : UInt8} (digit : isDigit byte = true) : isSpace byte = false := by
  rw [Decimal.isDigit_iff] at digit
  have blank : isSpace byte = true → byte.toNat ≤ 32 := by
    unfold isSpace
    rw [Bool.or_eq_true, Bool.and_eq_true, beq_iff_eq, decide_eq_true_iff, decide_eq_true_iff]
    rintro (rfl | ⟨-, below⟩)
    · exact Nat.le_refl _
    · exact Nat.le_trans below (by decide)
  rw [Bool.eq_false_iff]
  intro space
  have := blank space
  omega

theorem getUint64FromString_eq {text : List UInt8} (nonempty : text ≠ [])
    (digits : ∀ byte ∈ text, isDigit byte = true) (fits : value text < 2 ^ 64) :
    getUint64FromString text = some (value text) := by
  unfold getUint64FromString
  rw [if_neg (by simpa [nonempty] using digits), if_pos fits]

variable {defaultDecimalPoint decimalPoint : Nat} {whole fraction : List UInt8}

theorem readDigits_eq {fractionSize amount : Nat} {text : List UInt8} (nonempty : text ≠ [])
    (digits : ∀ byte ∈ text, isDigit byte = true)
    (total : value text * 10 ^ (defaultDecimalPoint - fractionSize) = amount)
    (fits : amount < 2 ^ 64) : readDigits defaultDecimalPoint fractionSize text = some amount := by
  have filled : (if fractionSize < defaultDecimalPoint then
      text ++ replicate (defaultDecimalPoint - fractionSize) zero else text) =
        text ++ replicate (defaultDecimalPoint - fractionSize) zero := by
    split
    · rfl
    · rename_i enough
      rw [Nat.sub_eq_zero_of_le (Nat.le_of_not_lt enough)]
      exact (append_nil text).symm
  have amounts := Decimal.value_append_zeros text (defaultDecimalPoint - fractionSize)
  rw [total] at amounts
  unfold readDigits
  rw [if_neg nonempty, filled, getUint64FromString_eq (by simp [nonempty]) _ (amounts ▸ fits), amounts]
  intro byte member
  rcases mem_append.mp member with front | back
  · exact digits byte front
  · rw [eq_of_mem_replicate back]
    exact Decimal.isDigit_zero

/-- Reading digits without a point. -/
theorem parseAmount_of_digits {amount : Nat} {text : List UInt8} (nonempty : text ≠ [])
    (digits : ∀ byte ∈ text, isDigit byte = true)
    (total : value text * 10 ^ defaultDecimalPoint = amount) (fits : amount < 2 ^ 64) :
    parseAmount defaultDecimalPoint text = some amount := by
  have trimmed : Tokens.trim isSpace text = text := Tokens.trim_of_ends
    (fun byte first => isSpace_of_isDigit (digits byte (mem_of_mem_head? first)))
    (fun byte last => isSpace_of_isDigit (digits byte (mem_of_mem_getLast? last)))
  have missing : point ∉ text := fun member => Decimal.ne_point_of_isDigit (digits point member) rfl
  unfold parseAmount
  rw [trimmed]
  dsimp only
  rw [idxOf_eq_length missing, if_neg (Nat.lt_irrefl _)]
  exact readDigits_eq nonempty digits total fits

/-- Reading digits with a point inside. -/
theorem parseAmount_of_point {amount : Nat} (nonempty : whole ≠ []) (proper : fraction ≠ [])
    (digits : ∀ byte ∈ whole ++ fraction, isDigit byte = true)
    (short : fraction.length ≤ defaultDecimalPoint)
    (total : value (whole ++ fraction) * 10 ^ (defaultDecimalPoint - fraction.length) = amount)
    (fits : amount < 2 ^ 64) :
    parseAmount defaultDecimalPoint (whole ++ point :: fraction) = some amount := by
  have trimmed : Tokens.trim isSpace (whole ++ point :: fraction) = whole ++ point :: fraction := by
    apply Tokens.trim_of_ends
    · intro byte first
      rw [head?_append_of_ne_nil _ nonempty] at first
      exact isSpace_of_isDigit (digits byte (mem_append_left _ (mem_of_mem_head? first)))
    · intro byte last
      rw [getLast?_append_of_ne_nil _ (cons_ne_nil _ _), getLast?_cons,
        getLast?_eq_some_getLast proper] at last
      cases last
      exact isSpace_of_isDigit (digits _ (mem_append_right _ (getLast_mem proper)))
  have missing : point ∉ whole := fun member =>
    Decimal.ne_point_of_isDigit (digits point (mem_append_left _ member)) rfl
  have position : (whole ++ point :: fraction).idxOf point = whole.length := by
    rw [idxOf_append_of_notMem missing, idxOf_cons_self, Nat.add_zero]
  have size : (whole ++ point :: fraction).length - whole.length - 1 = fraction.length := by
    rw [length_append, length_cons]
    omega
  have kept : dropExcessZeros defaultDecimalPoint fraction.length (whole ++ point :: fraction) =
      (fraction.length, whole ++ point :: fraction) := by
    cases count : fraction.length with
    | zero => rfl
    | succ fractionSize =>
      rw [dropExcessZeros, if_neg]
      rintro ⟨longer, -⟩
      omega
  unfold parseAmount
  rw [trimmed]
  dsimp only
  rw [position, if_pos (by simp), size, kept]
  rw [if_neg (Nat.not_lt_of_le short), eraseIdx_append_of_length_le (Nat.le_refl _),
    Nat.sub_self]
  exact readDigits_eq (by simp [nonempty]) digits total fits

/-! ## Printed amounts -/

/-- In a unit with a point, the digits of the amount are filled up in front and cut at the point. -/
theorem exists_printMoney (positive : 0 < decimalPoint) (amount : Nat) :
    ∃ whole fraction, whole ≠ [] ∧ fraction.length = decimalPoint ∧
      (∀ byte ∈ whole ++ fraction, isDigit byte = true) ∧ value (whole ++ fraction) = amount ∧
      printMoney decimalPoint amount defaultUnit =
        (whole ++ point :: Decimal.dropZeros fraction).rdropWhile (· == point) := by
  obtain ⟨s, filled, long, digits, total⟩ : ∃ s : List UInt8,
      (if (Decimal.ofNat amount).length < decimalPoint + 1 then
        replicate (decimalPoint + 1 - (Decimal.ofNat amount).length) zero ++ Decimal.ofNat amount
      else Decimal.ofNat amount) = s ∧ decimalPoint < s.length ∧
        (∀ byte ∈ s, isDigit byte = true) ∧ value s = amount := by
    refine ⟨_, rfl, ?_, ?_, ?_⟩
    · split
      · rw [length_append, length_replicate]
        omega
      · omega
    · intro byte member
      split at member
      · rcases mem_append.mp member with front | back
        · rw [eq_of_mem_replicate front]
          exact Decimal.isDigit_zero
        · exact Decimal.isDigit_ofNat amount byte back
      · exact Decimal.isDigit_ofNat amount byte member
    · split
      · rw [Decimal.value_zeros_append, Decimal.value_ofNat]
      · exact Decimal.value_ofNat amount
  refine ⟨s.take (s.length - decimalPoint), s.drop (s.length - decimalPoint), ?_, ?_, ?_, ?_, ?_⟩
  · rw [← length_pos_iff, length_take]
    omega
  · rw [length_drop]
    omega
  · rwa [take_append_drop]
  · rwa [take_append_drop]
  · unfold printMoney printMoney64 insertMoneyDecimalPoint
    simp only [if_true, filled, if_pos positive]
    rw [Decimal.rdropWhile_append_cons rfl]
    rfl

/-- Printing and reading an amount: the text is a numeral of the right value, and it is read back. -/
def Printed (decimalPoint amount : Nat) : Prop :=
  (∃ q : ℚ, Decimal.numeral (printMoney decimalPoint amount defaultUnit) = some q ∧
    q * 10 ^ decimalPoint = amount) ∧
      parseAmount decimalPoint (printMoney decimalPoint amount defaultUnit) = some amount

theorem printed_of_digits {amount : Nat} {text : List UInt8}
    (printed : printMoney decimalPoint amount defaultUnit = text) (nonempty : text ≠ [])
    (digits : ∀ byte ∈ text, isDigit byte = true) (total : value text * 10 ^ decimalPoint = amount)
    (fits : amount < 2 ^ 64) : Printed decimalPoint amount := by
  unfold Printed
  rw [printed]
  refine ⟨⟨_, Decimal.numeral_of_digits nonempty digits, ?_⟩,
    parseAmount_of_digits nonempty digits total fits⟩
  exact_mod_cast total

theorem printed_of_point {amount : Nat}
    (printed : printMoney decimalPoint amount defaultUnit = whole ++ point :: fraction)
    (nonempty : whole ≠ []) (proper : fraction ≠ [])
    (digits : ∀ byte ∈ whole ++ fraction, isDigit byte = true)
    (short : fraction.length ≤ decimalPoint)
    (total : value (whole ++ fraction) * 10 ^ (decimalPoint - fraction.length) = amount)
    (fits : amount < 2 ^ 64) : Printed decimalPoint amount := by
  unfold Printed
  rw [printed]
  refine ⟨⟨_, Decimal.numeral_of_point nonempty proper
    (fun byte member => digits byte (mem_append_left _ member))
    (fun byte member => digits byte (mem_append_right _ member)), ?_⟩,
    parseAmount_of_point nonempty proper digits short total fits⟩
  have power : (10 : ℚ) ^ decimalPoint =
      10 ^ (decimalPoint - fraction.length) * 10 ^ fraction.length := by
    rw [← pow_add, Nat.sub_add_cancel short]
  rw [power, ← total]
  push_cast
  field_simp

/-- In a unit with a point every amount is printed right. -/
theorem printed_of_pos {amount : Nat} (positive : 0 < decimalPoint) (fits : amount < 2 ^ 64) :
    Printed decimalPoint amount := by
  obtain ⟨whole, fraction, nonempty, size, digits, total, printed⟩ := exists_printMoney positive amount
  obtain ⟨count, zeros⟩ := Decimal.exists_zeros fraction
  have wholeDigits : ∀ byte ∈ whole, isDigit byte = true :=
    fun byte member => digits byte (mem_append_left _ member)
  have length := congrArg List.length zeros
  rw [length_append, length_replicate, size] at length
  by_cases round : Decimal.dropZeros fraction = []
  · -- a round amount loses its point
    rw [round, rdropWhile_concat_pos (· == point) whole point (beq_self_eq_true _),
      Decimal.rdropWhile_point wholeDigits] at printed
    refine printed_of_digits printed nonempty wholeDigits ?_ fits
    rw [round, nil_append] at zeros
    rw [round, length_nil, Nat.zero_add] at length
    rw [← total, zeros, Decimal.value_append_zeros, length]
  · have kept : ∀ byte ∈ whole ++ Decimal.dropZeros fraction, isDigit byte = true := by
      intro byte member
      rcases mem_append.mp member with front | back
      · exact wholeDigits byte front
      · exact digits byte (mem_append_right _ (Decimal.mem_of_mem_dropZeros back))
    have ended : (whole ++ point :: Decimal.dropZeros fraction).rdropWhile (· == point) =
        whole ++ point :: Decimal.dropZeros fraction := by
      rw [rdropWhile_eq_self_iff]
      intro some
      rw [getLast_append_of_right_ne_nil _ _ (cons_ne_nil _ _), getLast_cons round, beq_iff_eq]
      exact Decimal.ne_point_of_isDigit (kept _ (mem_append_right _ (getLast_mem round)))
    rw [ended] at printed
    refine printed_of_point printed nonempty round kept (by omega) ?_ fits
    have rest : decimalPoint - (Decimal.dropZeros fraction).length = count := by omega
    rw [rest, ← Decimal.value_append_zeros, append_assoc, ← zeros, total]

/-- In the smallest unit there is no point, and the zeros at the end of the number go. -/
theorem printMoney_zero (amount : Nat) :
    printMoney 0 amount defaultUnit = Decimal.dropZeros (Decimal.ofNat amount) := by
  have digits : ∀ byte ∈ Decimal.dropZeros (Decimal.ofNat amount), isDigit byte = true :=
    fun byte member => Decimal.isDigit_ofNat amount byte (Decimal.mem_of_mem_dropZeros member)
  have long : ¬ (Decimal.ofNat amount).length < 0 + 1 := by
    have := length_pos_of_ne_nil (Decimal.ofNat_ne_nil amount)
    omega
  unfold printMoney printMoney64 insertMoneyDecimalPoint
  simp only [if_true, if_neg long]
  exact Decimal.rdropWhile_point digits

theorem printed_zero_iff {amount : Nat} (fits : amount < 2 ^ 64) :
    Printed 0 amount ↔ amount % 10 ≠ 0 := by
  have whole := Decimal.isDigit_ofNat amount
  have digits : ∀ byte ∈ Decimal.dropZeros (Decimal.ofNat amount), isDigit byte = true :=
    fun byte member => whole byte (Decimal.mem_of_mem_dropZeros member)
  obtain ⟨count, zeros⟩ := Decimal.exists_zeros (Decimal.ofNat amount)
  have total := congrArg value zeros
  rw [Decimal.value_ofNat, Decimal.value_append_zeros] at total
  constructor
  · rintro ⟨-, read⟩
    rw [printMoney_zero] at read
    by_cases empty : Decimal.dropZeros (Decimal.ofNat amount) = []
    · rw [empty] at read
      cases read
    · have smaller : value (Decimal.dropZeros (Decimal.ofNat amount)) ≤ amount := by
        have grown := Nat.le_mul_of_pos_right (value (Decimal.dropZeros (Decimal.ofNat amount)))
          (Nat.pow_pos (n := count) (by decide : 0 < 10))
        rwa [← total] at grown
      have parsed := @parseAmount_of_digits 0 _ _ empty digits (Nat.mul_one _)
        (Nat.lt_of_le_of_lt smaller fits)
      rw [read, Option.some.injEq] at parsed
      rw [parsed]
      exact Decimal.value_dropZeros_mod whole empty
  · intro last
    -- no zero is taken away
    have none : count = 0 := by
      by_contra positive
      obtain ⟨more, rfl⟩ := Nat.exists_eq_succ_of_ne_zero positive
      rw [Nat.pow_succ, ← Nat.mul_assoc] at total
      rw [total, Nat.mul_mod_left] at last
      exact last rfl
    rw [none, replicate_zero, append_nil] at zeros
    rw [none, Nat.pow_zero, Nat.mul_one] at total
    refine printed_of_digits (printMoney_zero amount) ?_ digits ?_ fits
    · rw [← zeros]
      exact Decimal.ofNat_ne_nil amount
    · rw [Nat.pow_zero, Nat.mul_one, ← total]

/-- Amounts are printed right exactly if the unit has a point or the last digit is not zero. -/
theorem printed_iff {decimalPoint amount : Nat} (fits : amount < 2 ^ 64) :
    Printed decimalPoint amount ↔ decimalPoint ≠ 0 ∨ amount % 10 ≠ 0 := by
  rcases Nat.eq_zero_or_pos decimalPoint with rfl | positive
  · rw [printed_zero_iff fits]
    simp
  · exact ⟨fun _ => .inl (Nat.ne_of_gt positive), fun _ => printed_of_pos positive fits⟩

theorem printed_in_memero : Printed 11 123456789012 :=
  (printed_iff (by decide)).mpr (.inl (by decide))

/-- A hundred of the smallest unit is printed as one, and nothing as no text at all. -/
theorem hundred_printed_as_one :
    setDefaultDecimalPoint 0 = .ok 0 ∧ printMoney 0 100 defaultUnit = ascii "1" ∧
      parseAmount 0 (printMoney 0 100 defaultUnit) = some 1 ∧ printMoney 0 0 defaultUnit = [] ∧
      parseAmount 0 (printMoney 0 0 defaultUnit) = none ∧ ¬ Printed 0 100 ∧ ¬ Printed 0 0 := by
  refine ⟨rfl, by decide +kernel, by decide +kernel, by decide +kernel, by decide +kernel, ?_, ?_⟩
  · rw [printed_zero_iff (by decide)]
    decide
  · rw [printed_zero_iff (by decide)]
    decide

end Memero
