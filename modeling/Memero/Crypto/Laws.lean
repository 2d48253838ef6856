import Memero.Crypto.Calls
import Mathlib.Algebra.Group.Basic
import Mathlib.Data.Nat.Prime.Basic
import Mathlib.Data.Set.Basic
import Mathlib.NumberTheory.LucasLehmer

/-!
# What libsodium computes

The assumptions on the library: points are the encodings of the elements of a group of prime
order, the validity test accepts the encodings other than that of zero, and addition and
multiplication compute those of the group. Multiplication refuses what the validity test
refuses; addition is only described on encodings, which is all the program gives it.
-/

namespace Memero

open Nat

variable {Γ : Type} [AddCommGroup Γ]

/-- The assumptions on the library, for the main subgroup `Γ` and its canonical encoding. -/
structure Sodium.Laws (sodium : Sodium) (encode : Γ → EcPoint) : Prop where
  prime : sodium.order.Prime
  amounts : 2 ^ 64 ≤ sodium.order
  torsion : ∀ x : Γ, sodium.order • x = 0
  injective : Function.Injective encode
  zero : encode 0 = identity
  valid : ∀ point, sodium.isValidPoint point = true ↔ ∃ x, x ≠ 0 ∧ encode x = point
  add : ∀ x y, sodium.add (encode x) (encode y) = some (encode (x + y))
  sub : ∀ x y, sodium.sub (encode x) (encode y) = some (encode (x - y))
  scalarmult : ∀ a x, 0 < a → a < sodium.order → x ≠ 0 →
    sodium.scalarmultNoclamp a (encode x) = some (encode (a • x))
  refused : ∀ a point, sodium.isValidPoint point = false → sodium.scalarmultNoclamp a point = none
  base : ∃ g : Γ, ∀ a, a < sodium.order → sodium.scalarmultBaseNoclamp a = encode (a • g)
  second : sodium.isValidPoint sodium.H = true
  mult8 : ∀ x, sodium.mult8Fast (encode x) = encode (8 • x)
  invEight : sodium.invEight < sodium.order ∧ 8 * sodium.invEight % sodium.order = 1

namespace Sodium.Laws

variable {sodium : Sodium} {encode : Γ → EcPoint} (laws : sodium.Laws encode)

include laws

/-! ## Validity -/

theorem valid_encode {x : Γ} : sodium.isValidPoint (encode x) = true ↔ x ≠ 0 := by
  rw [laws.valid]
  constructor
  · rintro ⟨y, nonzero, same⟩
    rwa [← laws.injective same]
  · intro nonzero
    exact ⟨x, nonzero, rfl⟩

theorem identity_not_valid : sodium.isValidPoint identity = false := by
  rw [← laws.zero, Bool.eq_false_iff, ne_eq, laws.valid_encode]
  exact not_not.mpr rfl

variable {point : EcPoint} {a : EcScalar}

theorem mem_range (valid : sodium.isValidPoint point = true) : point ∈ Set.range encode := by
  obtain ⟨x, -, same⟩ := (laws.valid point).mp valid
  exact ⟨x, same⟩

/-- Multiplication by eight keeps points valid, since eight has an inverse. -/
theorem mult8_valid (valid : sodium.isValidPoint point = true) :
    sodium.isValidPoint (sodium.mult8Fast point) = true := by
  obtain ⟨x, nonzero, rfl⟩ := (laws.valid point).mp valid
  rw [laws.mult8, laws.valid_encode]
  intro zero
  have inverse : x = sodium.invEight • 8 • x := by
    rw [← mul_nsmul, ← div_add_mod (8 * sodium.invEight) sodium.order,
      laws.invEight.2, add_nsmul, one_nsmul, mul_nsmul, laws.torsion, nsmul_zero, zero_add]
  rw [zero, nsmul_zero] at inverse
  exact nonzero inverse

/-! ## Scalars -/

theorem reduce_lt (x : EcScalar) : sodium.reduce x < sodium.order :=
  mod_lt _ laws.prime.pos

theorem lt_of_isReduced {x : EcScalar} (reduced : sodium.isReduced x = true) :
    x < sodium.order := by
  rw [isReduced, beq_iff_eq] at reduced
  rw [← reduced]
  exact laws.reduce_lt x

theorem mulScalars_lt (a b : EcScalar) : sodium.mulScalars a b < sodium.order :=
  mod_lt _ laws.prime.pos

theorem mulScalars_ne_zero {b : EcScalar} (first : a ≠ 0) (firstReduced : a < sodium.order)
    (second : b ≠ 0) (secondReduced : b < sodium.order) : sodium.mulScalars a b ≠ 0 := by
  intro zero
  rcases (laws.prime.dvd_mul).mp (dvd_of_mod_eq_zero zero) with left | right
  · exact first (eq_zero_of_dvd_of_lt left firstReduced)
  · exact second (eq_zero_of_dvd_of_lt right secondReduced)

/-! ## Operations -/

theorem base_mem (reduced : a < sodium.order) :
    sodium.scalarmultBaseNoclamp a ∈ Set.range encode := by
  obtain ⟨g, multiples⟩ := laws.base
  exact ⟨a • g, (multiples a reduced).symm⟩

theorem mult_returns (reduced : a < sodium.order)
    (valid : a ≠ 0 → sodium.isValidPoint point = true) :
    ∃ result ∈ Set.range encode, (sodium.mult a point).Returns result := by
  unfold mult
  split
  · exact ⟨identity, ⟨0, laws.zero⟩, .pure _⟩
  · rename_i nonzero
    obtain ⟨x, other, rfl⟩ := (laws.valid point).mp (valid nonzero)
    exact ⟨_, ⟨a • x, rfl⟩, .ofResult (laws.scalarmult a x (pos_of_ne_zero nonzero) reduced other)⟩

theorem mult_fails (nonzero : a ≠ 0) (invalid : sodium.isValidPoint point = false) :
    (sodium.mult a point).Fails := by
  rw [mult, if_neg nonzero]
  exact .ofResult (laws.refused a point invalid)

theorem addPoints_returns {X Y : EcPoint} (first : X ∈ Set.range encode)
    (second : Y ∈ Set.range encode) :
    ∃ result ∈ Set.range encode, (sodium.addPoints X Y).Returns result := by
  obtain ⟨x, rfl⟩ := first
  obtain ⟨y, rfl⟩ := second
  exact ⟨_, ⟨x + y, rfl⟩, .ofResult (laws.add x y)⟩

theorem sum_returns {points : List EcPoint} (encoded : ∀ point ∈ points, point ∈ Set.range encode) :
    ∃ result ∈ Set.range encode, (sodium.sum points).Returns result := by
  unfold sum
  have start : identity ∈ Set.range encode := ⟨0, laws.zero⟩
  generalize identity = total at start ⊢
  induction points generalizing total with
  | nil => exact ⟨total, start, .pure total⟩
  | cons point rest ih =>
    obtain ⟨next, nextEncoded, added⟩ :=
      laws.addPoints_returns start (encoded point List.mem_cons_self)
    obtain ⟨result, resultEncoded, summed⟩ :=
      ih (fun other member => encoded other (List.mem_cons_of_mem _ member)) next nextEncoded
    exact ⟨result, resultEncoded, added.bind summed⟩

/-- The difference of two encoded points is refused by a multiplication exactly if they are
the same point. -/
theorem subPoints_returns {X Y : EcPoint} (first : X ∈ Set.range encode)
    (second : Y ∈ Set.range encode) :
    ∃ result, (sodium.subPoints X Y).Returns result ∧
      (sodium.isValidPoint result = true ↔ X ≠ Y) := by
  obtain ⟨x, rfl⟩ := first
  obtain ⟨y, rfl⟩ := second
  refine ⟨encode (x - y), .ofResult (laws.sub x y), ?_⟩
  rw [laws.valid_encode, ne_eq, sub_eq_zero, ne_eq, laws.injective.eq_iff]

/-- The commitment to a public amount is a point. -/
theorem dummyCommit_returns {amount : Nat} (bounded : amount < 2 ^ 64) :
    ∃ result ∈ Set.range encode, (sodium.dummyCommit amount).Returns result := by
  obtain ⟨masked, maskedEncoded, multiplied⟩ := laws.mult_returns
    (lt_of_lt_of_le bounded laws.amounts) fun _ => laws.second
  obtain ⟨result, resultEncoded, added⟩ :=
    laws.addPoints_returns (laws.base_mem laws.prime.one_lt) maskedEncoded
  exact ⟨result, resultEncoded, multiplied.bind added⟩

end Sodium.Laws

/-! ## A cyclic group

The assumptions can be met: the numbers below a prime, shifted by the encoding of zero. The
hash of this instance is a parity. -/

/-- The number a point encodes. -/
def cyclicDecode (order : Nat) (point : EcPoint) : Option Nat :=
  if identity ≤ point ∧ point < identity + order then some (point - identity) else none

/-- The group operations on encodings. -/
def cyclicSodium (order : Nat) : Sodium where
  order := order
  add := fun X Y => do
    let x ← cyclicDecode order X
    let y ← cyclicDecode order Y
    return identity + (x + y) % order
  sub := fun X Y => do
    let x ← cyclicDecode order X
    let y ← cyclicDecode order Y
    return identity + (x + (order - y)) % order
  scalarmultNoclamp := fun a X => do
    let x ← cyclicDecode order X
    if x = 0 then none else return identity + a * x % order
  scalarmultBaseNoclamp := fun a => identity + a % order
  isValidPoint := fun point => decide (identity < point ∧ point < identity + order)
  mult8Fast := fun point => identity + 8 * ((cyclicDecode order point).getD 0) % order
  hashToPointViaField := fun _ => identity + 1
  H := identity + 2
  invEight := (order + 1) / 8
  hashDataV := fun keys => 1 + keys.sum % 2

section Cyclic

variable {order : Nat}

/-- The encoding of a residue. -/
def cyclicEncode (x : ZMod order) : EcPoint :=
  identity + x.val

theorem cyclicEncode_natCast (value : Nat) :
    cyclicEncode (value : ZMod order) = identity + value % order := by
  rw [cyclicEncode, ZMod.val_natCast]

theorem cyclicDecode_encode [NeZero order] (x : ZMod order) :
    cyclicDecode order (cyclicEncode x) = some x.val := by
  have below := ZMod.val_lt x
  rw [cyclicDecode, cyclicEncode, if_pos ⟨Nat.le_add_right _ _, Nat.add_lt_add_left below _⟩,
    Nat.add_sub_cancel_left]

theorem cyclicSodium_valid [NeZero order] (point : EcPoint) :
    (cyclicSodium order).isValidPoint point = true ↔
      ∃ x : ZMod order, x ≠ 0 ∧ cyclicEncode x = point := by
  simp only [cyclicSodium, decide_eq_true_eq]
  constructor
  · rintro ⟨above, below⟩
    have small : point - identity < order :=
      Nat.sub_lt_left_of_lt_add (Nat.le_of_lt above) below
    refine ⟨((point - identity : Nat) : ZMod order), ?_, ?_⟩
    · intro zero
      rw [ZMod.natCast_eq_zero_iff] at zero
      exact sub_ne_zero_of_lt above (eq_zero_of_dvd_of_lt zero small)
    · rw [cyclicEncode_natCast, mod_eq_of_lt small]
      exact add_sub_of_le (le_of_lt above)
  · rintro ⟨x, nonzero, rfl⟩
    have positive : 0 < x.val := pos_of_ne_zero ((ZMod.val_ne_zero x).mpr nonzero)
    exact ⟨Nat.lt_add_of_pos_right positive, Nat.add_lt_add_left (ZMod.val_lt x) _⟩

theorem cyclicSodium_laws (prime : order.Prime) (amounts : 2 ^ 64 ≤ order)
    (eight : 8 ∣ order + 1) : (cyclicSodium order).Laws (fun x : ZMod order => cyclicEncode x) := by
  have := NeZero.mk prime.ne_zero
  have multiple : ∀ (a : Nat) (x : ZMod order), a • x = ((a * x.val : Nat) : ZMod order) := by
    intro a x
    rw [cast_mul, ZMod.natCast_zmod_val, nsmul_eq_mul]
  refine ⟨prime, amounts, fun x => ?_, fun x y same => ?_, ?_, cyclicSodium_valid, fun x y => ?_,
    fun x y => ?_, fun a x _ _ nonzero => ?_, fun a point invalid => ?_, ⟨1, fun a _ => ?_⟩, ?_,
    fun x => ?_, ?_, ?_⟩
  · change order • x = 0
    rw [nsmul_eq_mul, ZMod.natCast_self, zero_mul]
  · exact ZMod.val_injective _ (add_left_cancel same)
  · rw [cyclicEncode, ZMod.val_zero, add_zero]
  · simp only [cyclicSodium, cyclicDecode_encode]
    rw [cyclicEncode, ZMod.val_add]
    rfl
  · have same : x - y = ((x.val + (order - y.val) : Nat) : ZMod order) := by
      rw [cast_add, cast_sub (le_of_lt (ZMod.val_lt y)), ZMod.natCast_self, zero_sub,
        ZMod.natCast_zmod_val, ZMod.natCast_zmod_val, sub_eq_add_neg]
    simp only [cyclicSodium, cyclicDecode_encode]
    rw [same, cyclicEncode_natCast]
    rfl
  · simp only [cyclicSodium, cyclicDecode_encode]
    rw [multiple, cyclicEncode_natCast]
    change (if x.val = 0 then none else _) = _
    rw [if_neg ((ZMod.val_ne_zero x).mpr nonzero)]
    rfl
  · simp only [cyclicSodium, decide_eq_false_iff_not] at invalid ⊢
    unfold cyclicDecode
    split
    · rename_i encoded
      have zero : point - identity = 0 :=
        Nat.sub_eq_zero_of_le (Nat.le_of_not_lt fun above => invalid ⟨above, encoded.2⟩)
      simp [zero]
    · rfl
  · rw [nsmul_eq_mul, mul_one, cyclicEncode_natCast]
    rfl
  · simp only [cyclicSodium, decide_eq_true_eq]
    exact ⟨Nat.lt_add_of_pos_right Nat.two_pos, Nat.add_lt_add_left (by omega) _⟩
  · simp only [cyclicSodium, cyclicDecode_encode]
    rw [multiple, cyclicEncode_natCast]
    rfl
  · change (order + 1) / 8 < order
    omega
  · change 8 * ((order + 1) / 8) % order = 1
    rw [Nat.mul_div_cancel' eight, Nat.add_mod_left, Nat.mod_eq_of_lt prime.one_lt]

end Cyclic

/-- A prime above every 32-byte number. -/
@[irreducible] def cyclicOrder : Nat :=
  mersenne 521

theorem cyclicOrder_prime : cyclicOrder.Prime := by
  unfold cyclicOrder
  exact lucas_lehmer_sufficiency 521 (by decide) (by norm_num)

end Memero
