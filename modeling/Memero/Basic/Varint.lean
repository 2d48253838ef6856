import Memero.Basic.Bytes
import Memero.Lib.BinaryFormat
import Mathlib.Tactic.Ring

/-!
# Variable length integers

`read_varint` of `tools/common/varint.h`, next to `write_varint`, as a format. The reader checks
for the end of the input before every byte, and there returns what it has read so far as if the
number were complete. A strict reader, which the program does not have, would fail there.
-/

namespace Memero

open Nat

/-- The loop of `read_varint`. -/
def readVarintLoop (strict : Bool) (bits : Nat) :
    List UInt8 → Nat → Nat → Option (Nat × List UInt8)
  | [], _, write => if strict then none else some (write, [])
  | byte :: rest, shift, write =>
    if shift + 7 ≥ bits ∧ byte.toNat ≥ 1 <<< (bits - shift) then
      -- EVARINT_OVERFLOW
      none
    else if byte = 0 ∧ shift ≠ 0 then
      -- EVARINT_REPRESENT
      none
    else
      let write := write ||| (byte.toNat &&& 0x7f) <<< shift
      if byte.toNat &&& 0x80 = 0 then
        some (write, rest)
      else
        readVarintLoop strict bits rest (shift + 7) write

/-- `read_varint`, for a type of `bits` bits. -/
def readVarint (strict : Bool) (bits : Nat) (input : List UInt8) : Option (Nat × List UInt8) :=
  readVarintLoop strict bits input 0 0

/-! ## Writing -/

theorem writeVarintBytes_of_lt {i : Nat} (small : i < 0x80) (more : Nat) :
    writeVarintBytes more i = [UInt8.ofNat i] := by
  cases more with
  | zero => rfl
  | succ more => rw [writeVarintBytes, if_pos small]

theorem writeVarintBytes_of_ge {i : Nat} (large : 0x80 ≤ i) (more : Nat) :
    writeVarintBytes (more + 1) i =
      UInt8.ofNat (i % 0x80 + 0x80) :: writeVarintBytes more (i / 0x80) := by
  rw [writeVarintBytes, if_neg (not_lt.mpr large)]

theorem writeVarint_ne_nil (i : Nat) : writeVarint i ≠ [] := by
  unfold writeVarint
  by_cases small : i < 0x80
  · rw [writeVarintBytes_of_lt small]
    exact List.cons_ne_nil _ _
  · rw [writeVarintBytes_of_ge (not_lt.mp small)]
    exact List.cons_ne_nil _ _

theorem writeVarint_length_le (i : Nat) : (writeVarint i).length ≤ 10 := by
  have bounded : ∀ more i, (writeVarintBytes more i).length ≤ more + 1 := by
    intro more
    induction more with
    | zero => exact fun _ => le_refl 1
    | succ more ih =>
      intro i
      rw [writeVarintBytes]
      split
      · exact succ_le_succ (zero_le _)
      · exact succ_le_succ (ih _)
  exact bounded 9 i

/-! ## One byte -/

variable {write shift : Nat}

theorem or_shiftLeft (below : write < 2 ^ shift) (digit : Nat) :
    write ||| digit <<< shift = write + digit * 2 ^ shift := by
  rw [Nat.or_comm, ← Nat.shiftLeft_add_eq_or_of_lt below, Nat.shiftLeft_eq, Nat.add_comm]

theorem and_low (n : Nat) : n &&& 0x7f = n % 0x80 :=
  and_two_pow_sub_one_eq_mod n 7

theorem and_high {n : Nat} (byte : n < 256) : n &&& 0x80 = 0 ↔ n < 0x80 := by
  revert n
  decide +kernel

theorem digit_lt (below : write < 2 ^ shift) (digit : Nat) :
    write + digit % 0x80 * 2 ^ shift < 2 ^ (shift + 7) := by
  have small : digit % 0x80 ≤ 127 := by omega
  have scaled := mul_le_mul_right (2 ^ shift) small
  rw [pow_add]
  omega

section Loop

variable {strict : Bool} {bits shift write : Nat} {byte : UInt8} {rest : List UInt8}

/-- The last byte of a number. -/
theorem readVarintLoop_last (fits : byte.toNat < 2 ^ (bits - shift)) (low : byte.toNat < 0x80)
    (canonical : shift = 0 ∨ byte.toNat ≠ 0) (below : write < 2 ^ shift) :
    readVarintLoop strict bits (byte :: rest) shift write =
      some (write + byte.toNat * 2 ^ shift, rest) := by
  have overflow : ¬ (shift + 7 ≥ bits ∧ byte.toNat ≥ 1 <<< (bits - shift)) := by
    omega
  have zero : ¬ (byte = 0 ∧ shift ≠ 0) := by
    rintro ⟨rfl, later⟩
    rcases canonical with first | nonzero
    · exact later first
    · exact nonzero rfl
  unfold readVarintLoop
  rw [if_neg overflow, if_neg zero]
  rw [if_pos ((and_high byte.toNat_lt).mpr low), and_low, mod_eq_of_lt low, or_shiftLeft below]

/-- A byte before the last. -/
theorem readVarintLoop_more (inside : shift + 7 < bits) (high : 0x80 ≤ byte.toNat)
    (below : write < 2 ^ shift) :
    readVarintLoop strict bits (byte :: rest) shift write =
      readVarintLoop strict bits rest (shift + 7) (write + byte.toNat % 0x80 * 2 ^ shift) := by
  have zero : ¬ (byte = 0 ∧ shift ≠ 0) := by
    rintro ⟨rfl, -⟩
    exact absurd high (by decide)
  conv_lhs => unfold readVarintLoop
  rw [if_neg (by omega), if_neg zero]
  rw [if_neg (fun low => not_lt.mpr high ((and_high byte.toNat_lt).mp low)), and_low,
    or_shiftLeft below]

/-- What a byte says about the number it belongs to. -/
theorem readVarintLoop_cons {result : Nat × List UInt8} (inside : shift < bits)
    (found : readVarintLoop strict bits (byte :: rest) shift write = some result) :
    (byte.toNat < 0x80 ∧ byte.toNat < 2 ^ (bits - shift) ∧ (shift = 0 ∨ byte.toNat ≠ 0)) ∨
      (0x80 ≤ byte.toNat ∧ shift + 7 < bits) := by
  unfold readVarintLoop at found
  split at found
  · cases found
  · rename_i overflow
    rw [one_shiftLeft] at overflow
    split at found
    · cases found
    · rename_i zero
      by_cases low : byte.toNat < 0x80
      · left
        refine ⟨low, ?_, ?_⟩
        · by_cases last : shift + 7 ≥ bits
          · exact Nat.lt_of_not_le fun large => overflow ⟨last, large⟩
          · have power : 2 ^ 7 ≤ 2 ^ (bits - shift) :=
              Nat.pow_le_pow_right Nat.two_pos (by omega)
            omega
        · by_contra neither
          rw [not_or, not_not] at neither
          exact zero ⟨UInt8.toNat_inj.mp neither.2, neither.1⟩
      · right
        refine ⟨not_lt.mp low, ?_⟩
        by_contra last
        have power : 2 ^ (bits - shift) ≤ 2 ^ 7 := Nat.pow_le_pow_right Nat.two_pos (by omega)
        exact overflow ⟨by omega, by omega⟩

end Loop

/-! ## Whole numbers -/

variable {bits value : Nat} {input rest : List UInt8}

theorem readVarintLoop_write (strict : Bool) {more i : Nat} (rest : List UInt8)
    (short : i < 0x80 ^ (more + 1)) (fits : i < 2 ^ (bits - shift)) (canonical : shift = 0 ∨ i ≠ 0)
    (below : write < 2 ^ shift) :
    readVarintLoop strict bits (writeVarintBytes more i ++ rest) shift write =
      some (write + i * 2 ^ shift, rest) := by
  induction more generalizing i shift write with
  | zero =>
    have low : i < 0x80 := by simpa using short
    have value : (UInt8.ofNat i).toNat = i := by
      rw [UInt8.toNat_ofNat']
      omega
    have last := @readVarintLoop_last strict bits shift write (UInt8.ofNat i) rest
    rw [value] at last
    exact last fits low canonical below
  | succ more ih =>
    by_cases low : i < 0x80
    · have value : (UInt8.ofNat i).toNat = i := by
        rw [UInt8.toNat_ofNat']
        omega
      have last := @readVarintLoop_last strict bits shift write (UInt8.ofNat i) rest
      rw [value] at last
      rw [writeVarintBytes_of_lt low]
      exact last fits low canonical below
    · have large := not_lt.mp low
      have inside : shift + 7 < bits := by
        by_contra last
        have power : 2 ^ (bits - shift) ≤ 2 ^ 7 := Nat.pow_le_pow_right Nat.two_pos (by omega)
        omega
      have value : (UInt8.ofNat (i % 0x80 + 0x80)).toNat = i % 0x80 + 0x80 := by
        rw [UInt8.toNat_ofNat']
        omega
      have digit : (i % 0x80 + 0x80) % 0x80 = i % 0x80 := by omega
      have higher : i / 0x80 < 2 ^ (bits - (shift + 7)) := by
        rw [div_lt_iff_lt_mul (by decide), show (0x80 : Nat) = 2 ^ 7 by rfl, ← pow_add,
          show bits - (shift + 7) + 7 = bits - shift by omega]
        exact fits
      have shorter : i / 0x80 < 0x80 ^ (more + 1) := by
        rw [div_lt_iff_lt_mul (by decide)]
        exact short
      rw [writeVarintBytes_of_ge large, List.cons_append,
        readVarintLoop_more inside (by omega) below, value, digit,
        ih shorter higher (.inr (by omega)) (digit_lt below i), pow_add]
      congr 2
      have split := div_add_mod i 0x80
      calc write + i % 0x80 * 2 ^ shift + i / 0x80 * (2 ^ shift * 2 ^ 7)
          = write + (0x80 * (i / 0x80) + i % 0x80) * 2 ^ shift := by ring
        _ = write + i * 2 ^ shift := by rw [split]

/-- What is read fits the type, also when it is cut off. -/
theorem readVarintLoop_lt {strict : Bool} (inside : shift < bits) (below : write < 2 ^ shift)
    (found : readVarintLoop strict bits input shift write = some (value, rest)) :
    value < 2 ^ bits := by
  induction input generalizing shift write with
  | nil =>
    cases strict with
    | true => cases found
    | false =>
      cases found
      exact below.trans (Nat.pow_lt_pow_right (by decide) inside)
  | cons byte input ih =>
    rcases readVarintLoop_cons inside found with ⟨low, fits, canonical⟩ | ⟨high, further⟩
    · rw [readVarintLoop_last fits low canonical below] at found
      cases found
      calc write + byte.toNat * 2 ^ shift
          < 2 ^ shift + byte.toNat * 2 ^ shift := Nat.add_lt_add_right below _
        _ = (byte.toNat + 1) * 2 ^ shift := by ring
        _ ≤ 2 ^ (bits - shift) * 2 ^ shift := mul_le_mul_right _ fits
        _ = 2 ^ bits := by rw [← Nat.pow_add, Nat.sub_add_cancel inside.le]
    · rw [readVarintLoop_more further high below] at found
      exact ih further (digit_lt below _) found

/-- A strict reader accepts only what is written. -/
theorem write_readVarintLoop (inside : shift < bits) (below : write < 2 ^ shift)
    (found : readVarintLoop true bits input shift write = some (value, rest)) :
    ∃ i, value = write + i * 2 ^ shift ∧ (shift = 0 ∨ i ≠ 0) ∧
      ∀ more, i < 0x80 ^ (more + 1) → input = writeVarintBytes more i ++ rest := by
  induction input generalizing shift write with
  | nil => cases found
  | cons byte input ih =>
    rcases readVarintLoop_cons inside found with ⟨low, fits, canonical⟩ | ⟨high, further⟩
    · rw [readVarintLoop_last fits low canonical below] at found
      cases found
      refine ⟨byte.toNat, rfl, canonical, fun more _ => ?_⟩
      rw [writeVarintBytes_of_lt low, UInt8.ofNat_toNat]
      rfl
    · rw [readVarintLoop_more further high below] at found
      obtain ⟨i, rfl, canonical, written⟩ := ih further (digit_lt below _) found
      have byteLt := byte.toNat_lt
      refine ⟨byte.toNat % 0x80 + 0x80 * i, ?_, .inr (by omega), fun more short => ?_⟩
      · rw [pow_add]
        ring
      · cases more with
        | zero =>
          omega
        | succ more =>
          have quotient : (byte.toNat % 0x80 + 0x80 * i) / 0x80 = i := by omega
          have digit : (byte.toNat % 0x80 + 0x80 * i) % 0x80 + 0x80 = byte.toNat := by omega
          have shorter : i < 0x80 ^ (more + 1) := by
            omega
          rw [writeVarintBytes_of_ge (by omega), quotient, digit, UInt8.ofNat_toNat,
            List.cons_append, ← written more shorter]

theorem readVarintLoop_cut_off
    (found : readVarintLoop false bits input shift write = some (value, rest)) :
    readVarintLoop true bits input shift write = some (value, rest) ∨ rest = [] := by
  induction input generalizing shift write with
  | nil =>
    cases found
    exact .inr rfl
  | cons byte input ih =>
    unfold readVarintLoop at found ⊢
    split at found
    · cases found
    · rename_i overflow
      rw [if_neg overflow]
      split at found
      · cases found
      · rename_i zero
        rw [if_neg zero]
        split at found
        · rename_i low
          rw [if_pos low]
          exact .inl found
        · rename_i high
          rw [if_neg high]
          exact ih found

/-- The format of `VARINT_FIELD`, for a type of `bits` bits. -/
def varint (bits : Nat) (positive : 0 < bits) (wide : bits ≤ 64) : BinaryFormat Nat where
  Fits i := i < 2 ^ bits
  valid _ := true
  write := writeVarint
  read strict := readVarint strict bits
  read_write := by
    intro strict i rest fits _
    have short : i < 0x80 ^ 10 := by
      have power : 2 ^ bits ≤ 2 ^ 64 := Nat.pow_le_pow_right Nat.two_pos wide
      omega
    have read := readVarintLoop_write strict rest short fits (.inl rfl) (Nat.two_pow_pos 0)
    rwa [Nat.pow_zero, Nat.mul_one, Nat.zero_add] at read
  read_sound := by
    intro strict input i rest found
    exact ⟨readVarintLoop_lt positive (Nat.two_pow_pos 0) found, rfl⟩
  write_read := by
    intro input i rest found
    have fits := readVarintLoop_lt positive (Nat.two_pow_pos 0) found
    obtain ⟨j, same, -, written⟩ := write_readVarintLoop positive (Nat.two_pow_pos 0) found
    rw [Nat.pow_zero, Nat.mul_one, Nat.zero_add] at same
    subst same
    have power : 2 ^ bits ≤ 2 ^ 64 := Nat.pow_le_pow_right Nat.two_pos wide
    apply written 9
    omega
  cut_off := readVarintLoop_cut_off

end Memero
