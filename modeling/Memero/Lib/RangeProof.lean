import Memero.Lib.InnerProduct
import Mathlib.Algebra.Module.BigOperators
import Mathlib.Tactic.LinearCombination

/-!
# Aggregated range proofs

The algebra of a proof that several committed values have a given number of bits. The bits of
all values are one vector; two challenges make it the constant term of a polynomial in a third,
and what the verifier compares are the commitment to the value of the polynomial and the
commitment to the vectors it is the inner product of.
-/

open Finset InnerProduct

namespace RangeProof

variable {F M : Type} [Field F] [AddCommGroup M] [Module F M]

/-- What the prover knows: `count` values of `width` bits each with their blinding factors, and
the scalars it has drawn. -/
structure Secret (F : Type) where
  width : Nat
  count : Nat
  bit : Nat → F
  mask : Nat → F
  alpha : F
  sL : Nat → F
  sR : Nat → F
  rho : F
  tau1 : F
  tau2 : F

namespace Secret

variable (s : Secret F)

/-- The number of bits of all values. -/
def size : Nat :=
  s.count * s.width

/-- The value with number `j`. -/
def value (j : Nat) : F :=
  ∑ i ∈ range s.width, s.bit (j * s.width + i) * 2 ^ i

/-- The weight of a bit: its power of two under the power of `z` that belongs to its value. -/
def weight (z : F) (i : Nat) : F :=
  2 ^ (i % s.width) * z ^ (i / s.width + 2)

def l0 (z : F) (i : Nat) : F :=
  s.bit i - z

def r0 (y z : F) (i : Nat) : F :=
  y ^ i * (s.bit i - 1 + z) + s.weight z i

def r1 (y : F) (i : Nat) : F :=
  y ^ i * s.sR i

def l (z x : F) (i : Nat) : F :=
  s.l0 z i + s.sL i * x

def r (y z x : F) (i : Nat) : F :=
  s.r0 y z i + s.r1 y i * x

/-- The linear coefficient of the inner product of `l` and `r`. -/
def t1 (y z : F) : F :=
  dot s.size (s.l0 z) (s.r1 y) + dot s.size s.sL (s.r0 y z)

/-- The quadratic coefficient. -/
def t2 (y : F) : F :=
  dot s.size s.sL (s.r1 y)

def t (y z x : F) : F :=
  dot s.size (s.l z x) (s.r y z x)

def tau0 (z : F) : F :=
  ∑ j ∈ range s.count, s.mask j * z ^ (j + 2)

def tau (z x : F) : F :=
  s.tau0 z + s.tau1 * x + s.tau2 * (x * x)

def mu (x : F) : F :=
  x * s.rho + s.alpha

/-- What the verifier knows of the constant coefficient beyond the values. -/
def delta (y z : F) : F :=
  (z - z * z) * ∑ i ∈ range s.size, y ^ i -
    (∑ j ∈ range s.count, z ^ (j + 3)) * ∑ i ∈ range s.width, 2 ^ i

/-! ## The polynomial -/

theorem t_eq (y z x : F) :
    s.t y z x = dot s.size (s.l0 z) (s.r0 y z) + s.t1 y z * x + s.t2 y * (x * x) := by
  simp only [t, t1, t2, dot, l, r, sum_mul, ← sum_add_distrib]
  apply sum_congr rfl
  intro i _
  ring

/-- A sum over all bits, value by value. -/
theorem sum_size {A : Type} [AddCommMonoid A] (n width : Nat) (f : Nat → A) :
    ∑ i ∈ range (n * width), f i = ∑ j ∈ range n, ∑ i ∈ range width, f (j * width + i) := by
  induction n with
  | zero => simp
  | succ n ih => rw [Nat.succ_mul, sum_range_add, ih, sum_range_succ]

theorem sum_weight (positive : 0 < s.width) (z : F) (f : Nat → F) :
    ∑ i ∈ range s.size, f i * s.weight z i =
      ∑ j ∈ range s.count, z ^ (j + 2) * ∑ i ∈ range s.width, f (j * s.width + i) * 2 ^ i := by
  rw [size, sum_size]
  apply sum_congr rfl
  intro j _
  rw [mul_sum]
  apply sum_congr rfl
  intro i member
  have small := mem_range.mp member
  rw [weight, Nat.mul_comm j, Nat.mul_add_mod, Nat.mod_eq_of_lt small, Nat.mul_add_div positive,
    Nat.div_eq_of_lt small]
  ring

/-- The constant coefficient is made of the values, if the bits are bits. -/
theorem dot_l0_r0 (positive : 0 < s.width) (bits : ∀ i < s.size, s.bit i * s.bit i = s.bit i)
    (y z : F) :
    dot s.size (s.l0 z) (s.r0 y z) =
      (∑ j ∈ range s.count, z ^ (j + 2) * s.value j) + s.delta y z := by
  -- Each bit contributes what does not depend on it and its weight less `z` times its weight.
  have split : ∀ i ∈ range s.size, s.l0 z i * s.r0 y z i =
      (z - z * z) * y ^ i + (s.bit i * s.weight z i - z * (1 * s.weight z i)) := by
    intro i member
    have bit := bits i (mem_range.mp member)
    rw [l0, r0]
    linear_combination (y ^ i) * bit
  have values := s.sum_weight positive z s.bit
  have ones := s.sum_weight positive z fun _ => 1
  simp only [one_mul] at split ones
  simp only [dot, smul_eq_mul]
  rw [sum_congr rfl split, sum_add_distrib, sum_sub_distrib, ← mul_sum, ← mul_sum, values, ones,
    delta]
  simp only [value, pow_succ _ (_ + 2), ← sum_mul]
  ring

/-! ## What the verifier compares -/

/-- The commitment to the value with number `j`. -/
def commitment (g h : M) (j : Nat) : M :=
  s.mask j • g + s.value j • h

/-- The commitment to the constant coefficient, from the commitments to the values. -/
def T0 (g h : M) (y z : F) : M :=
  s.delta y z • h + ∑ j ∈ range s.count, z ^ (j + 2) • s.commitment g h j

def T1 (g h : M) (y z : F) : M :=
  s.tau1 • g + s.t1 y z • h

def T2 (g h : M) (y : F) : M :=
  s.tau2 • g + s.t2 y • h

def A (g : M) (G H : Nat → M) : M :=
  dot s.size s.bit G + dot s.size (fun i => s.bit i - 1) H + s.alpha • g

def S (g : M) (G H : Nat → M) : M :=
  dot s.size s.sL G + dot s.size s.sR H + s.rho • g

section

variable (positive : 0 < s.width) (bits : ∀ i < s.size, s.bit i * s.bit i = s.bit i) (g h : M)
  (y z : F)
include positive bits

theorem T0_eq : s.T0 g h y z = dot s.size (s.l0 z) (s.r0 y z) • h + s.tau0 z • g := by
  simp only [T0, commitment, smul_add, smul_smul, sum_add_distrib]
  rw [s.dot_l0_r0 positive bits, tau0, sum_smul, add_smul, sum_smul]
  simp only [mul_comm (z ^ _) (s.mask _)]
  module

/-- The commitment to the value of the polynomial is the polynomial of the commitments. -/
theorem blinding_terms (x : F) :
    s.t y z x • h + s.tau z x • g = s.T0 g h y z + x • s.T1 g h y z + (x * x) • s.T2 g h y := by
  rw [s.t_eq, s.T0_eq positive bits, tau, T1, T2]
  module

end

/-- The vectors whose inner product the polynomial is, with the second generators divided by
the powers of `y`. -/
def witness (G H : Nat → M) (y z x : F) : Witness F M where
  G := G
  H := fun i => y⁻¹ ^ i • H i
  a := s.l z x
  b := s.r y z x

/-- The commitment to the vectors, from the commitments to the bits and to the drawn
scalars. -/
theorem commitment_witness {y : F} (nonzero : y ≠ 0) (g : M) (G H : Nat → M) (z x : F) (u : M) :
    (s.witness G H y z x).commitment s.size u =
      s.A g G H + x • s.S g G H + dot s.size (fun _ => -z) G +
        dot s.size (fun i => s.weight z i + y ^ i * z) (fun i => y⁻¹ ^ i • H i) +
        s.t y z x • u + -s.mu x • g := by
  have first : dot s.size (s.l z x) G =
      dot s.size s.bit G + x • dot s.size s.sL G + dot s.size (fun _ => -z) G := by
    simp only [dot, smul_sum, ← sum_add_distrib]
    apply sum_congr rfl
    intro i _
    rw [l, l0]
    module
  have second : dot s.size (s.r y z x) (fun i => y⁻¹ ^ i • H i) =
      dot s.size (fun i => s.bit i - 1) H + x • dot s.size s.sR H +
        dot s.size (fun i => s.weight z i + y ^ i * z) (fun i => y⁻¹ ^ i • H i) := by
    simp only [dot, smul_sum, ← sum_add_distrib]
    apply sum_congr rfl
    intro i _
    have cancel : y ^ i * y⁻¹ ^ i = 1 := by rw [← mul_pow, mul_inv_cancel₀ nonzero, one_pow]
    rw [r, r0, r1]
    match_scalars
    linear_combination (s.bit i - 1 + x * s.sR i) * cancel
  simp only [Witness.commitment, witness]
  rw [first, second, A, S, mu, t]
  module

end Secret

end RangeProof
