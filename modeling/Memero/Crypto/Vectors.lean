import Memero.Crypto.Scalars
import Memero.Lib.InnerProduct
import Memero.Lib.Tabulate

/-!
# Vectors of scalars and points

`math/ringct/functional/vectorOps.cpp`. An operation on two vectors throws if the second is
shorter than the first and ignores what the second has beyond the first. `std::reduce` adds up
from the left.
-/

namespace Memero

namespace Sodium

variable (sodium : Sodium)

/-! ## Scalars -/

/-- The powers of `x` from `accum` on. -/
def scalarPowersFrom (x : EcScalar) : EcScalar → Nat → List EcScalar
  | _, 0 => []
  | accum, n + 1 => accum :: scalarPowersFrom x (sodium.mulScalars accum x) n

/-- `scalar_powers`. -/
def scalarPowers (x : EcScalar) (n : Nat) : List EcScalar :=
  sodium.scalarPowersFrom x 1 n

/-- `vector_sum` of scalars. -/
def vectorSum (xs : List EcScalar) : EcScalar :=
  xs.foldl sodium.addScalars 0

/-- `sum_of_scalar_powers`. -/
def sumOfScalarPowers (x : EcScalar) (n : Nat) : EcScalar :=
  sodium.vectorSum (sodium.scalarPowers x n)

/-- `vector_add`. -/
def vectorAdd (a : List EcScalar) (b : EcScalar) : List EcScalar :=
  a.map fun x => sodium.addScalars x b

/-- `vector_subtract`. -/
def vectorSubtract (a : List EcScalar) (b : EcScalar) : List EcScalar :=
  a.map fun x => sodium.subScalars x b

/-- `vector_mult`. -/
def vectorMult (a : List EcScalar) (b : EcScalar) : List EcScalar :=
  a.map fun x => sodium.mulScalars x b

/-- `scalar_repeat`. -/
def scalarRepeat (x : EcScalar) (n : Nat) : List EcScalar :=
  sodium.vectorMult (sodium.scalarPowers 1 n) x

/-- `vector_concat`. -/
def vectorConcat (xs : List (List EcScalar)) : List EcScalar :=
  xs.foldl (· ++ ·) []

/-- `vector_mult_V_monadic`. -/
def vectorMultVMonadic (xs ys : List EcScalar) : List (List EcScalar) :=
  xs.map fun x => sodium.vectorMult ys x

/-! ## Two vectors -/

/-- `std::transform` over two vectors, behind the check of their sizes. -/
def transform {α β γ : Type} (operation : α → β → PointM γ) (a : List α) (b : List β) :
    CheckedM (List γ) := do
  CheckedM.require (a.length ≤ b.length)
  OptionT.lift ((a.zip b).mapM fun pair => operation pair.1 pair.2)

/-- `hadamard_product`. -/
def hadamardProduct (a b : List EcScalar) : CheckedM (List EcScalar) :=
  transform (fun x y => pure (sodium.mulScalars x y)) a b

/-- `inner_product`. -/
def innerProduct (a b : List EcScalar) : CheckedM EcScalar := do
  CheckedM.require (a.length ≤ b.length)
  return sodium.vectorSum (← sodium.hadamardProduct a b)

/-- `vector_add_V` of scalars. -/
def vectorAddV (a b : List EcScalar) : CheckedM (List EcScalar) :=
  transform (fun x y => pure (sodium.addScalars x y)) a b

/-- `vector_add_V` of points. -/
def vectorAddPV (a b : List EcPoint) : CheckedM (List EcPoint) :=
  transform sodium.addPoints a b

/-- `vector_multP_V`. -/
def vectorMultPV (a : List EcScalar) (p : List EcPoint) : CheckedM (List EcPoint) :=
  transform sodium.mult a p

/-- `scalar_multP_V`. -/
def scalarMultPV (a : EcScalar) (p : List EcPoint) : CheckedM (List EcPoint) :=
  sodium.vectorMultPV (sodium.scalarRepeat a p.length) p

/-- `vector_commit`. -/
def vectorCommit (a : List EcScalar) (p : List EcPoint) : CheckedM EcPoint := do
  CheckedM.require (a.length ≤ p.length)
  let xs ← sodium.vectorMultPV a p
  OptionT.lift (sodium.sum xs)

/-- `evaluate_polynomial` with scalars. -/
def evaluatePolynomial (a : List EcScalar) (X : EcScalar) : CheckedM EcScalar :=
  sodium.innerProduct a (sodium.scalarPowers X a.length)

/-- `evaluate_polynomial` with points. -/
def evaluatePolynomialP (a : List EcPoint) (X : EcScalar) : CheckedM EcPoint :=
  sodium.vectorCommit (sodium.scalarPowers X a.length) a

/-- `split_vector`. -/
def splitVector {α : Type} (v : List α) : CheckedM (List α × List α) := do
  CheckedM.require (¬ v.isEmpty)
  CheckedM.require (v.length % 2 = 0)
  return (v.take (v.length / 2), v.drop (v.length / 2))

/-- `homomorphic_hash`. -/
def homomorphicHash (G H : List EcPoint) (a b : List EcScalar) (u : EcPoint) (c : EcScalar) :
    CheckedM EcPoint := do
  let first ← sodium.vectorCommit a G
  let second ← sodium.vectorCommit b H
  let both ← OptionT.lift (sodium.addPoints first second)
  let product ← OptionT.lift (sodium.mult c u)
  OptionT.lift (sodium.addPoints both product)

/-- `homomorphic_hash_full`. -/
def homomorphicHashFull (G H : List EcPoint) (a1 a2 b1 b2 : List EcScalar) (u : EcPoint)
    (c : EcScalar) : CheckedM EcPoint := do
  let G ← splitVector G
  let H ← splitVector H
  let first ← sodium.vectorCommit a1 G.1
  let second ← sodium.vectorCommit a2 G.2
  let total ← OptionT.lift (sodium.addPoints first second)
  let third ← sodium.vectorCommit b1 H.1
  let total ← OptionT.lift (sodium.addPoints total third)
  let fourth ← sodium.vectorCommit b2 H.2
  let total ← OptionT.lift (sodium.addPoints total fourth)
  let product ← OptionT.lift (sodium.mult c u)
  OptionT.lift (sodium.addPoints total product)

end Sodium

/-! ## Residues

What the operations compute on the representatives of residues modulo the order and on the
encodings of group elements. -/

/-- The representatives of the first `n` residues. -/
def residues {order : Nat} (n : Nat) (a : Nat → ZMod order) : List EcScalar :=
  table n fun i => (a i).val

/-- The encodings of the first `n` group elements. -/
def encodings {Γ : Type} (encode : Γ → EcPoint) (n : Nat) (g : Nat → Γ) : List EcPoint :=
  table n fun i => encode (g i)

@[simp] theorem residues_length {order : Nat} (n : Nat) (a : Nat → ZMod order) :
    (residues n a).length = n :=
  table_length n _

@[simp] theorem encodings_length {Γ : Type} (encode : Γ → EcPoint) (n : Nat) (g : Nat → Γ) :
    (encodings encode n g).length = n :=
  table_length n _

namespace Sodium.Laws

open Finset InnerProduct

section Scalars

variable {sodium : Sodium} [prime : Fact sodium.order.Prime]

theorem mulScalars_val (a b : ZMod sodium.order) : sodium.mulScalars a.val b.val = (a * b).val :=
  (ZMod.val_mul a b).symm

theorem addScalars_val (a b : ZMod sodium.order) : sodium.addScalars a.val b.val = (a + b).val := by
  rw [addScalars, ZMod.val_add]

variable (x : ZMod sodium.order)

theorem scalarPowersFrom_val (accum : ZMod sodium.order) (n : Nat) :
    sodium.scalarPowersFrom x.val accum.val n = residues n fun i => accum * x ^ i := by
  induction n generalizing accum with
  | zero => rfl
  | succ n ih =>
    rw [scalarPowersFrom, mulScalars_val, ih, residues, residues, table_succ, pow_zero, mul_one]
    simp only [pow_succ', mul_assoc]

theorem scalarPowers_val (n : Nat) : sodium.scalarPowers x.val n = residues n fun i => x ^ i := by
  have one := scalarPowersFrom_val x 1 n
  rw [ZMod.val_one] at one
  rw [scalarPowers, one]
  simp only [one_mul]

theorem vectorSum_residues (n : Nat) (a : Nat → ZMod sodium.order) :
    sodium.vectorSum (residues n a) = (∑ i ∈ range n, a i).val := by
  have start : ∀ total : ZMod sodium.order,
      (residues n a).foldl sodium.addScalars total.val = (total + ∑ i ∈ range n, a i).val := by
    intro total
    induction n generalizing a total with
    | zero => simp [residues, table]
    | succ n ih =>
      rw [residues, table_succ, List.foldl_cons, addScalars_val, ← residues, ih, sum_range_succ',
        add_assoc, add_comm (a 0)]
  have whole := start 0
  rwa [ZMod.val_zero, zero_add] at whole

theorem sumOfScalarPowers_val (n : Nat) :
    sodium.sumOfScalarPowers x.val n = (∑ i ∈ range n, x ^ i).val := by
  rw [sumOfScalarPowers, scalarPowers_val, vectorSum_residues]

theorem vectorAdd_residues (n : Nat) (a : Nat → ZMod sodium.order) (b : ZMod sodium.order) :
    sodium.vectorAdd (residues n a) b.val = residues n fun i => a i + b := by
  simp only [vectorAdd, residues, map_table, addScalars_val]

theorem vectorMult_residues (n : Nat) (a : Nat → ZMod sodium.order) (b : ZMod sodium.order) :
    sodium.vectorMult (residues n a) b.val = residues n fun i => a i * b := by
  simp only [vectorMult, residues, map_table, mulScalars_val]

theorem scalarRepeat_val (n : Nat) : sodium.scalarRepeat x.val n = residues n fun _ => x := by
  have ones := scalarPowers_val (1 : ZMod sodium.order) n
  rw [ZMod.val_one] at ones
  rw [scalarRepeat, ones, vectorMult_residues]
  simp only [one_pow, one_mul]

end Scalars

/-! ### Two vectors -/

variable {α β : Type} {n : Nat} {entry : Nat → α} {result : Nat → β} {sodium : Sodium}

/-- A call for every entry of a table. -/
theorem mapM_table {call : α → PointM β} (each : ∀ i < n, (call (entry i)).Returns (result i)) :
    ((table n entry).mapM call).Returns (table n result) := by
  induction n generalizing entry result with
  | zero => exact .pure []
  | succ n ih =>
    rw [table_succ, table_succ, List.mapM_cons]
    apply PointM.Returns.bind (each 0 (Nat.succ_pos n))
    apply PointM.Returns.bind (ih fun i inside => each (i + 1) (Nat.succ_lt_succ inside))
    exact .pure _

theorem mapM_table_gives {call : α → CheckedM β}
    (each : ∀ i < n, (call (entry i)).Gives (result i)) :
    ((table n entry).mapM call).Gives (table n result) := by
  induction n generalizing entry result with
  | zero => exact .pure []
  | succ n ih =>
    rw [table_succ, table_succ, List.mapM_cons]
    apply CheckedM.Gives.bind (each 0 (Nat.succ_pos n))
    apply CheckedM.Gives.bind (ih fun i inside => each (i + 1) (Nat.succ_lt_succ inside))
    exact .pure _

theorem transform_gives {γ : Type} {operation : α → β → PointM γ} {m : Nat} (short : n ≤ m)
    {f : Nat → α} {g : Nat → β} {h : Nat → γ}
    (each : ∀ i < n, (operation (f i) (g i)).Returns (h i)) :
    (transform operation (table n f) (table m g)).Gives (table n h) := by
  apply CheckedM.Gives.bind (.require (by simpa using short))
  apply CheckedM.Gives.lift
  rw [zip_table short]
  exact mapM_table each

section TwoVectors

variable {sodium : Sodium} [prime : Fact sodium.order.Prime] {n m : Nat} (short : n ≤ m)
  (a b : Nat → ZMod sodium.order)

include short

theorem hadamardProduct_residues :
    (sodium.hadamardProduct (residues n a) (residues m b)).Gives (residues n fun i => a i * b i) :=
  transform_gives short fun i _ => by
    rw [mulScalars_val]
    exact .pure _

theorem vectorAddV_residues :
    (sodium.vectorAddV (residues n a) (residues m b)).Gives (residues n fun i => a i + b i) :=
  transform_gives short fun i _ => by
    rw [addScalars_val]
    exact .pure _

theorem innerProduct_residues :
    (sodium.innerProduct (residues n a) (residues m b)).Gives (dot n a b).val := by
  apply CheckedM.Gives.bind (.require (by simpa using short))
  apply CheckedM.Gives.bind (hadamardProduct_residues short a b)
  rw [vectorSum_residues]
  exact .pure _

end TwoVectors

theorem evaluatePolynomial_residues [Fact sodium.order.Prime] (n : Nat)
    (a : Nat → ZMod sodium.order) (x : ZMod sodium.order) :
    (sodium.evaluatePolynomial (residues n a) x.val).Gives (dot n a fun i => x ^ i).val := by
  rw [evaluatePolynomial, residues_length, scalarPowers_val]
  exact innerProduct_residues le_rfl a _

theorem evaluatePolynomial_three [Fact sodium.order.Prime] (t0 t1 t2 x : ZMod sodium.order) :
    (sodium.evaluatePolynomial [t0.val, t1.val, t2.val] x.val).Gives
      (t0 + t1 * x + t2 * (x * x)).val := by
  have evaluated := evaluatePolynomial_residues 3 (fun i => [t0, t1, t2].getD i 0) x
  simpa [dot, sum_range_succ, residues, table, List.range_succ, pow_two] using evaluated

theorem splitVector_table (positive : 0 < n) (entry : Nat → α) :
    (splitVector (table (2 * n) entry)).Gives (table n entry, table n fun i => entry (n + i)) := by
  have nonempty : ¬ (table (2 * n) entry).isEmpty = true := by
    rw [List.isEmpty_iff, ← List.length_eq_zero_iff, table_length]
    omega
  apply CheckedM.Gives.bind (.require nonempty)
  rw [table_length]
  apply CheckedM.Gives.bind (.require (Nat.mul_mod_right 2 n))
  rw [Nat.mul_div_cancel_left n Nat.two_pos, take_table (Nat.le_mul_of_pos_left n Nat.two_pos),
    drop_table, Nat.two_mul, Nat.add_sub_cancel]
  exact .pure _

/-! ### Points -/

section Points

variable {Γ : Type} [AddCommGroup Γ] {sodium : Sodium} {encode : Γ → EcPoint}
  (laws : sodium.Laws encode) [prime : Fact sodium.order.Prime]

include laws

theorem subScalars_val (a b : ZMod sodium.order) : sodium.subScalars a.val b.val = (a - b).val := by
  rw [← ZMod.val_cast_of_lt (laws.subScalars_lt a.val b.val), laws.cast_subScalars,
    ZMod.natCast_zmod_val, ZMod.natCast_zmod_val]

theorem scalarPowers_two (n : Nat) :
    sodium.scalarPowers 2 n = residues n fun i => (2 : ZMod sodium.order) ^ i := by
  have two : ((2 : Nat) : ZMod sodium.order).val = 2 := by
    have large := laws.amounts
    exact ZMod.val_cast_of_lt (by omega)
  have powers := scalarPowers_val ((2 : Nat) : ZMod sodium.order) n
  rwa [two] at powers

theorem vectorSubtract_residues (n : Nat) (a : Nat → ZMod sodium.order) (b : ZMod sodium.order) :
    sodium.vectorSubtract (residues n a) b.val = residues n fun i => a i - b := by
  simp only [vectorSubtract, residues, map_table, laws.subScalars_val]

theorem multiplicativeInverse_val {a : ZMod sodium.order} (nonzero : a ≠ 0) :
    sodium.multiplicativeInverse a.val = a⁻¹.val := by
  have cast : ((a.val : Nat) : ZMod sodium.order) = a := ZMod.natCast_zmod_val a
  rw [← ZMod.val_cast_of_lt (laws.multiplicativeInverse_lt a.val), laws.cast_multiplicativeInverse
    (cast.symm ▸ nonzero), cast]

variable [Module (ZMod sodium.order) Γ]

omit laws in
/-- Residues act on the group through their representatives. -/
theorem val_nsmul (a : ZMod sodium.order) (x : Γ) : a.val • x = a • x := by
  rw [← Nat.cast_smul_eq_nsmul (ZMod sodium.order), ZMod.natCast_zmod_val]

theorem mult_val {a : ZMod sodium.order} {x : Γ} (nonzero : a ≠ 0 → x ≠ 0) :
    (sodium.mult a.val (encode x)).Returns (encode (a • x)) := by
  rw [← val_nsmul]
  apply laws.mult_encode (ZMod.val_lt a)
  intro positive
  exact nonzero ((ZMod.val_ne_zero a).mp positive)

variable {a : Nat → ZMod sodium.order}
variable {n : Nat} {g G H : Nat → Γ} {c : ZMod sodium.order}

theorem vectorMultPV_encodings {m : Nat} (short : n ≤ m) (nonzero : ∀ i < n, a i ≠ 0 → g i ≠ 0) :
    (sodium.vectorMultPV (residues n a) (encodings encode m g)).Gives
      (encodings encode n fun i => a i • g i) :=
  transform_gives short fun i inside => laws.mult_val (nonzero i inside)

theorem vectorCommit_encodings {m : Nat} (short : n ≤ m) (nonzero : ∀ i < n, a i ≠ 0 → g i ≠ 0) :
    (sodium.vectorCommit (residues n a) (encodings encode m g)).Gives (encode (dot n a g)) := by
  apply CheckedM.Gives.bind (.require (by simpa using short))
  apply CheckedM.Gives.bind (laws.vectorMultPV_encodings short nonzero)
  apply CheckedM.Gives.lift
  have summed := laws.sum_encode (table n fun i => a i • g i)
  rwa [map_table, table_sum] at summed

theorem scalarMultPV_encodings {a : ZMod sodium.order} (nonzero : ∀ i < n, g i ≠ 0) :
    (sodium.scalarMultPV a.val (encodings encode n g)).Gives
      (encodings encode n fun i => a • g i) := by
  rw [scalarMultPV, encodings_length, scalarRepeat_val]
  exact laws.vectorMultPV_encodings le_rfl fun i inside _ => nonzero i inside

omit prime [Module (ZMod sodium.order) Γ] in
theorem vectorAddPV_encodings (n : Nat) (g h : Nat → Γ) :
    (sodium.vectorAddPV (encodings encode n g) (encodings encode n h)).Gives
      (encodings encode n fun i => g i + h i) :=
  transform_gives le_rfl fun i _ => laws.addPoints_encode (g i) (h i)

theorem evaluatePolynomialP_encodings (nonzero : ∀ i < n, g i ≠ 0) (x : ZMod sodium.order) :
    (sodium.evaluatePolynomialP (encodings encode n g) x.val).Gives
      (encode (dot n (fun i => x ^ i) g)) := by
  rw [evaluatePolynomialP, encodings_length, scalarPowers_val]
  exact laws.vectorCommit_encodings le_rfl fun i inside _ => nonzero i inside

theorem homomorphicHash_encodings {b : Nat → ZMod sodium.order} {u : Γ}
    (nonzeroG : ∀ i < n, G i ≠ 0) (nonzeroH : ∀ i < n, H i ≠ 0) (nonzero : u ≠ 0) :
    (sodium.homomorphicHash (encodings encode n G) (encodings encode n H) (residues n a)
      (residues n b) (encode u) c.val).Gives (encode (dot n a G + dot n b H + c • u)) := by
  apply CheckedM.Gives.bind (laws.vectorCommit_encodings le_rfl fun i inside _ => nonzeroG i inside)
  apply CheckedM.Gives.bind (laws.vectorCommit_encodings le_rfl fun i inside _ => nonzeroH i inside)
  apply CheckedM.Gives.bind (.lift (laws.addPoints_encode _ _))
  apply CheckedM.Gives.bind (.lift (laws.mult_val fun _ => nonzero))
  exact .lift (laws.addPoints_encode _ _)

theorem homomorphicHashFull_encodings (positive : 0 < n) {a1 a2 b1 b2 : Nat → ZMod sodium.order}
    {u : Γ} (nonzeroG : ∀ i < 2 * n, G i ≠ 0) (nonzeroH : ∀ i < 2 * n, H i ≠ 0) (nonzero : u ≠ 0) :
    (sodium.homomorphicHashFull (encodings encode (2 * n) G) (encodings encode (2 * n) H)
      (residues n a1) (residues n a2) (residues n b1) (residues n b2) (encode u) c.val).Gives
      (encode (dot n a1 G + dot n a2 (fun i => G (n + i)) + dot n b1 H +
        dot n b2 (fun i => H (n + i)) + c • u)) := by
  have commit : ∀ {a : Nat → ZMod sodium.order} {g : Nat → Γ}, (∀ i < n, g i ≠ 0) →
      (sodium.vectorCommit (residues n a) (encodings encode n g)).Gives (encode (dot n a g)) :=
    fun good => laws.vectorCommit_encodings le_rfl fun i inside _ => good i inside
  have lower : ∀ i < n, i < 2 * n := fun i inside => by omega
  have upper : ∀ i < n, n + i < 2 * n := fun i inside => by omega
  apply CheckedM.Gives.bind (splitVector_table positive _)
  apply CheckedM.Gives.bind (splitVector_table positive _)
  apply CheckedM.Gives.bind (commit fun i inside => nonzeroG i (lower i inside))
  apply CheckedM.Gives.bind (commit fun i inside => nonzeroG (n + i) (upper i inside))
  apply CheckedM.Gives.bind (.lift (laws.addPoints_encode _ _))
  apply CheckedM.Gives.bind (commit fun i inside => nonzeroH i (lower i inside))
  apply CheckedM.Gives.bind (.lift (laws.addPoints_encode _ _))
  apply CheckedM.Gives.bind (commit fun i inside => nonzeroH (n + i) (upper i inside))
  apply CheckedM.Gives.bind (.lift (laws.addPoints_encode _ _))
  apply CheckedM.Gives.bind (.lift (laws.mult_val fun _ => nonzero))
  exact .lift (laws.addPoints_encode _ _)

end Points

end Sodium.Laws

end Memero
