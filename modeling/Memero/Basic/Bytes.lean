import Memero.Basic.Types
import Mathlib.Data.List.Induction

/-!
# Bytes

The byte strings that the program hashes and writes: 32-byte values, texts and the variable
length integers of `tools/common/varint.h`.
-/

namespace Memero

open List

/-- The bytes of a number, the highest first. -/
def bigEndian : Nat → Nat → List UInt8
  | 0, _ => []
  | width + 1, value => bigEndian width (value / 256) ++ [UInt8.ofNat value]

/-- The bytes of an integer in memory. -/
def littleEndian (width value : Nat) : List UInt8 :=
  (bigEndian width value).reverse

/-- The bytes of an `ec_point`. -/
def blob (point : EcPoint) : List UInt8 :=
  bigEndian 32 point

/-- The bytes of an `ec_scalar` or a `hash`. -/
def scalarBlob (value : Nat) : List UInt8 :=
  (bigEndian 32 value).reverse

/-- The number whose bytes are given, the highest first. -/
def ofBigEndian (bytes : List UInt8) : Nat :=
  bytes.foldl (fun value byte => value * 256 + byte.toNat) 0

/-- A scalar or a hash as `crypto_data`: the same bytes, read as those of a point are. -/
def dataOfScalar (value : Nat) : CryptoData :=
  ofBigEndian (scalarBlob value)

/-- The bytes of a text. -/
def ascii (text : String) : List UInt8 :=
  text.toList.map fun char => UInt8.ofNat char.toNat

/-- The blanks that `boost::trim` cuts off. -/
def isSpace (byte : UInt8) : Bool :=
  byte == 0x20 || (0x09 ≤ byte && byte ≤ 0x0d)

/-- The loop of `write_varint`, for at most `more` bytes before the last. -/
def writeVarintBytes : Nat → Nat → List UInt8
  | 0, i => [UInt8.ofNat i]
  | more + 1, i =>
    if i < 0x80 then
      [UInt8.ofNat i]
    else
      UInt8.ofNat (i % 0x80 + 0x80) :: writeVarintBytes more (i / 0x80)

/-- `write_varint`, on a number of 64 bits. -/
def writeVarint (i : Nat) : List UInt8 :=
  writeVarintBytes 9 i

/-! ## Numbers and their bytes -/

theorem bigEndian_length (width value : Nat) : (bigEndian width value).length = width := by
  induction width generalizing value with
  | zero => rfl
  | succ width ih => rw [bigEndian, length_append, ih, length_singleton]

variable (bytes : List UInt8)

theorem ofBigEndian_concat (byte : UInt8) :
    ofBigEndian (bytes ++ [byte]) = ofBigEndian bytes * 256 + byte.toNat := by
  rw [ofBigEndian, foldl_append]
  rfl

variable {width : Nat}

theorem ofBigEndian_bigEndian {value : Nat} (fits : value < 256 ^ width) :
    ofBigEndian (bigEndian width value) = value := by
  induction width generalizing value with
  | zero =>
    have zero : value = 0 := by simpa using fits
    rw [zero]
    rfl
  | succ width ih =>
    have high : value / 256 < 256 ^ width := by
      rw [Nat.div_lt_iff_lt_mul (by decide)]
      exact fits
    rw [bigEndian, ofBigEndian_concat, ih high, UInt8.toNat_ofNat']
    omega

theorem ofBigEndian_lt : ofBigEndian bytes < 256 ^ bytes.length := by
  induction bytes using reverseRecOn with
  | nil => exact Nat.one_pos
  | append_singleton bytes byte ih =>
    have low := byte.toNat_lt
    rw [ofBigEndian_concat, length_append, length_singleton]
    omega

theorem bigEndian_ofBigEndian : bigEndian bytes.length (ofBigEndian bytes) = bytes := by
  induction bytes using reverseRecOn with
  | nil => rfl
  | append_singleton bytes byte ih =>
    have low := byte.toNat_lt
    have high : (ofBigEndian bytes * 256 + byte.toNat) / 256 = ofBigEndian bytes := by omega
    have last : UInt8.ofNat (ofBigEndian bytes * 256 + byte.toNat) = byte := by
      apply UInt8.toNat_inj.mp
      rw [UInt8.toNat_ofNat']
      omega
    rw [ofBigEndian_concat, length_append, length_singleton, bigEndian, high, last, ih]

theorem littleEndian_length (width value : Nat) : (littleEndian width value).length = width := by
  rw [littleEndian, length_reverse, bigEndian_length]

theorem ofBigEndian_littleEndian {value : Nat} (fits : value < 256 ^ width) :
    ofBigEndian (littleEndian width value).reverse = value := by
  rw [littleEndian, reverse_reverse, ofBigEndian_bigEndian fits]

theorem littleEndian_ofBigEndian {bytes : List UInt8} (length : bytes.length = width) :
    littleEndian width (ofBigEndian bytes.reverse) = bytes := by
  have same := bigEndian_ofBigEndian bytes.reverse
  rw [length_reverse, length] at same
  rw [littleEndian, same, reverse_reverse]

end Memero
