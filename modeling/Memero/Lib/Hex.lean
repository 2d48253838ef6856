import Mathlib.Data.UInt
import Mathlib.Tactic.IntervalCases

/-!
# Hexadecimal text

Two digits for each byte, the high half first. Letters of both cases are read and small letters are
written.
-/

namespace Hex

/-- The digit of a value below sixteen. -/
def digit (value : Nat) : UInt8 :=
  if value < 10 then UInt8.ofNat (48 + value) else UInt8.ofNat (87 + value)

/-- The value of a digit. -/
def value (byte : UInt8) : Option Nat :=
  if 48 ≤ byte.toNat ∧ byte.toNat ≤ 57 then some (byte.toNat - 48)
  else if 65 ≤ byte.toNat ∧ byte.toNat ≤ 70 then some (byte.toNat - 55)
  else if 97 ≤ byte.toNat ∧ byte.toNat ≤ 102 then some (byte.toNat - 87)
  else none

/-- Write bytes. -/
def encode (bytes : List UInt8) : List UInt8 :=
  bytes.flatMap fun byte => [digit (byte.toNat / 16), digit (byte.toNat % 16)]

/-- Read bytes. -/
def decode : List UInt8 → Option (List UInt8)
  | [] => some []
  | [_] => none
  | high :: low :: rest => do
      let high ← value high
      let low ← value low
      let bytes ← decode rest
      return UInt8.ofNat (high * 16 + low) :: bytes

theorem value_digit {number : Nat} (small : number < 16) : value (digit number) = some number := by
  interval_cases number <;> rfl

/-- Written bytes are read back. -/
theorem decode_encode (bytes : List UInt8) : decode (encode bytes) = some bytes := by
  induction bytes with
  | nil => rfl
  | cons byte rest ih =>
    have high : byte.toNat / 16 < 16 := by
      have := byte.toNat_lt
      omega
    have low : byte.toNat % 16 < 16 := Nat.mod_lt _ (by decide)
    have whole : byte.toNat / 16 * 16 + byte.toNat % 16 = byte.toNat := by omega
    change decode (digit _ :: digit _ :: encode rest) = _
    simp only [decode, value_digit high, value_digit low, ih, Option.bind_eq_bind, Option.bind_some,
      Option.pure_def, whole, UInt8.ofNat_toNat]

theorem encode_injective : Function.Injective encode := by
  intro bytes others same
  have read := decode_encode bytes
  rw [same, decode_encode] at read
  exact (Option.some.inj read).symm

end Hex
