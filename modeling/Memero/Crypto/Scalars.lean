import Memero.Crypto.Laws
import Mathlib.Algebra.Module.ZMod
import Mathlib.FieldTheory.Finite.Basic

/-!
# Scalars and exact results

The remaining operators of `math/group/functional/group.cpp` and `rct::commit`, and what the
library computes in terms of the group: scalars are residues modulo its order, and a call on
encodings returns the encoding of the result.
-/

namespace Memero

open Nat

/-! ## Exponentiation -/

/-- `base ^ exponent` modulo `modulus`, for an exponent of at most `bits` bits. -/
def powMod (modulus base : Nat) : Nat → Nat → Nat
  | 0, _ => 1 % modulus
  | bits + 1, exponent =>
    let root := powMod modulus base bits (exponent / 2)
    if exponent % 2 = 1 then root * root * base % modulus else root * root % modulus

theorem powMod_cast (modulus base : Nat) {bits exponent : Nat} (short : exponent < 2 ^ bits) :
    ((powMod modulus base bits exponent : Nat) : ZMod modulus) =
      (base : ZMod modulus) ^ exponent := by
  induction bits generalizing exponent with
  | zero =>
    have zero : exponent = 0 := by simpa using short
    simp [powMod, zero]
  | succ bits ih =>
    have half := @ih (exponent / 2) (by omega)
    unfold powMod
    split
    · rename_i odd
      have split : exponent = exponent / 2 + exponent / 2 + 1 := by omega
      rw [ZMod.natCast_mod, cast_mul, cast_mul, half, ← pow_add, ← pow_succ, ← split]
    · rename_i even
      have split : exponent = exponent / 2 + exponent / 2 := by omega
      rw [ZMod.natCast_mod, cast_mul, half, ← pow_add, ← split]

theorem powMod_lt {modulus base : Nat} (positive : 0 < modulus) (bits exponent : Nat) :
    powMod modulus base bits exponent < modulus := by
  cases bits with
  | zero => exact mod_lt _ positive
  | succ bits =>
    unfold powMod
    split
    · exact mod_lt _ positive
    · exact mod_lt _ positive

namespace Sodium

variable (sodium : Sodium)

/-- `ec_scalar::operator+`. -/
def addScalars (a b : EcScalar) : EcScalar :=
  (a + b) % sodium.order

/-- `ec_scalar::operator-`. -/
def subScalars (a b : EcScalar) : EcScalar :=
  (a + (sodium.order - b % sodium.order)) % sodium.order

/-- `crypto::multiplicative_inverse`: the power that the library computes. -/
def multiplicativeInverse (x : EcScalar) : EcScalar :=
  powMod sodium.order x (sodium.order.log2 + 1) (sodium.order - 2)

/-- `rct::commit`. -/
def commit (amount : Nat) (mask : EcScalar) : PointM EcPoint := do
  let masked ← sodium.multH amount
  sodium.addPoints (sodium.scalarmultBaseNoclamp mask) masked

end Sodium

namespace Sodium.Laws

variable {Γ : Type} [AddCommGroup Γ] {sodium : Sodium} {encode : Γ → EcPoint}
  (laws : sodium.Laws encode)

include laws

/-! ## Residues -/

theorem addScalars_lt (a b : EcScalar) : sodium.addScalars a b < sodium.order :=
  mod_lt _ laws.prime.pos

theorem subScalars_lt (a b : EcScalar) : sodium.subScalars a b < sodium.order :=
  mod_lt _ laws.prime.pos

omit [AddCommGroup Γ] laws in
theorem cast_addScalars (a b : EcScalar) :
    ((sodium.addScalars a b : Nat) : ZMod sodium.order) = a + b := by
  rw [addScalars, ZMod.natCast_mod, cast_add]

theorem cast_subScalars (a b : EcScalar) :
    ((sodium.subScalars a b : Nat) : ZMod sodium.order) = a - b := by
  have bound : b % sodium.order ≤ sodium.order := le_of_lt (mod_lt _ laws.prime.pos)
  rw [subScalars, ZMod.natCast_mod, cast_add, cast_sub bound, ZMod.natCast_self,
    ZMod.natCast_mod, zero_sub, sub_eq_add_neg]

omit [AddCommGroup Γ] laws in
theorem cast_mulScalars (a b : EcScalar) :
    ((sodium.mulScalars a b : Nat) : ZMod sodium.order) = a * b := by
  rw [mulScalars, ZMod.natCast_mod, cast_mul]

variable {a : EcScalar}

omit [AddCommGroup Γ] laws in
theorem cast_ne_zero (nonzero : a ≠ 0) (reduced : a < sodium.order) :
    (a : ZMod sodium.order) ≠ 0 := by
  rw [ne_eq, ZMod.natCast_eq_zero_iff]
  intro divides
  exact nonzero (eq_zero_of_dvd_of_lt divides reduced)

theorem multiplicativeInverse_lt (x : EcScalar) : sodium.multiplicativeInverse x < sodium.order :=
  powMod_lt laws.prime.pos _ _

theorem cast_multiplicativeInverse (nonzero : (a : ZMod sodium.order) ≠ 0) :
    ((sodium.multiplicativeInverse a : Nat) : ZMod sodium.order) = (a : ZMod sodium.order)⁻¹ := by
  have := Fact.mk laws.prime
  have two := laws.prime.two_le
  have short : sodium.order - 2 < 2 ^ (sodium.order.log2 + 1) :=
    lt_of_le_of_lt (sub_le _ _) lt_log2_self
  rw [multiplicativeInverse, powMod_cast _ _ short]
  refine eq_inv_of_mul_eq_one_left ?_
  rw [← pow_succ, show sodium.order - 2 + 1 = sodium.order - 1 by omega]
  exact ZMod.pow_card_sub_one_eq_one nonzero

/-- Residues act on the group as their representatives do. -/
theorem nsmul_eq_of_cast_eq {a b : Nat} (same : (a : ZMod sodium.order) = b) (x : Γ) :
    a • x = b • x := by
  let _ := AddCommGroup.zmodModule laws.torsion
  rw [← cast_smul_eq_nsmul (ZMod sodium.order) a, same, cast_smul_eq_nsmul]

theorem nsmul_ne_zero {x : Γ} (nonzero : a ≠ 0) (reduced : a < sodium.order) (other : x ≠ 0) :
    a • x ≠ 0 := by
  have := Fact.mk laws.prime
  let _ := AddCommGroup.zmodModule laws.torsion
  rw [← cast_smul_eq_nsmul (ZMod sodium.order)]
  intro zero
  have inverse := inv_smul_smul₀ (cast_ne_zero nonzero reduced) x
  rw [zero, smul_zero] at inverse
  exact other inverse.symm

/-! ## Calls -/

theorem mult_encode {x : Γ} (reduced : a < sodium.order) (nonzero : a ≠ 0 → x ≠ 0) :
    (sodium.mult a (encode x)).Returns (encode (a • x)) := by
  unfold mult
  split
  · rename_i zero
    rw [zero, zero_nsmul, laws.zero]
    exact .pure _
  · rename_i positive
    exact .ofResult (laws.scalarmult a x (pos_of_ne_zero positive) reduced (nonzero positive))

theorem addPoints_encode (x y : Γ) :
    (sodium.addPoints (encode x) (encode y)).Returns (encode (x + y)) :=
  .ofResult (laws.add x y)

theorem subPoints_encode (x y : Γ) :
    (sodium.subPoints (encode x) (encode y)).Returns (encode (x - y)) :=
  .ofResult (laws.sub x y)

theorem sum_encode (xs : List Γ) : (sodium.sum (xs.map encode)).Returns (encode xs.sum) := by
  have start : ∀ total : Γ, ((xs.map encode).foldlM sodium.addPoints (encode total)).Returns
      (encode (total + xs.sum)) := by
    induction xs with
    | nil =>
      intro total
      rw [List.sum_nil, add_zero]
      exact .pure _
    | cons x rest ih =>
      intro total
      rw [List.map_cons, List.sum_cons, ← add_assoc]
      exact (laws.addPoints_encode total x).bind (ih (total + x))
  rw [sum, ← laws.zero]
  simpa using start 0

theorem commit_encode {generator : Γ}
    (base : ∀ a, a < sodium.order → sodium.scalarmultBaseNoclamp a = encode (a • generator))
    {second : Γ} (nonzero : second ≠ 0) (isSecond : encode second = sodium.H)
    {amount : Nat} {mask : EcScalar} (bounded : amount < 2 ^ 64) (reduced : mask < sodium.order) :
    (sodium.commit amount mask).Returns (encode (mask • generator + amount • second)) := by
  unfold commit multH
  rw [base mask reduced, ← isSecond]
  refine (laws.mult_encode (lt_of_lt_of_le bounded laws.amounts) fun _ => nonzero).bind ?_
  exact laws.addPoints_encode _ _

/-- Eight times the inverse of eight. -/
theorem eight_nsmul_invEight (x : Γ) : 8 • sodium.invEight • x = x := by
  have inverse : ((8 * sodium.invEight : Nat) : ZMod sodium.order) = (1 : Nat) := by
    rw [ZMod.natCast_eq_natCast_iff', laws.invEight.2, mod_eq_of_lt laws.prime.one_lt]
  rw [← mul_nsmul', laws.nsmul_eq_of_cast_eq inverse, one_nsmul]

theorem toInv8_encode {x : Γ} (nonzero : x ≠ 0) :
    (sodium.toInv8 (encode x)).Returns (encode (sodium.invEight • x)) :=
  laws.mult_encode laws.invEight.1 fun _ => nonzero

theorem maybeFromInv8_encode {x : Γ} (nonzero : x ≠ 0) :
    sodium.maybeFromInv8 (encode (sodium.invEight • x)) = some (encode x) := by
  have valid : sodium.isValidPoint (encode (sodium.invEight • x)) = true := by
    rw [laws.valid_encode]
    intro zero
    have whole := laws.eight_nsmul_invEight x
    rw [zero, nsmul_zero] at whole
    exact nonzero whole.symm
  rw [maybeFromInv8, maybeSafePoint, if_pos valid, Option.map_some, laws.mult8,
    laws.eight_nsmul_invEight]

end Sodium.Laws

end Memero
