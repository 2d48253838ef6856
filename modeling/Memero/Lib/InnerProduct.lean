import Mathlib.Algebra.BigOperators.Intervals
import Mathlib.Tactic.Module
import Mathlib.Tactic.Ring

/-!
# Inner product arguments

A witness consists of two vectors of generators and two vectors of scalars. One round folds all
four to half their length, and two cross terms carry the commitment to the folded witness.

A vector is a function on indices, and its length is given separately; what it does behind its
length does not count.
-/

open Finset

namespace InnerProduct

variable {F M : Type} [Field F] [AddCommGroup M] [Module F M]

/-- The sum of the products of the first `n` entries. -/
def dot (n : Nat) (a : Nat → F) (g : Nat → M) : M :=
  ∑ i ∈ range n, a i • g i

theorem dot_congr {n : Nat} {a b : Nat → F} {g h : Nat → M} (scalars : ∀ i < n, a i = b i)
    (points : ∀ i < n, g i = h i) : dot n a g = dot n b h := by
  apply sum_congr rfl
  intro i member
  rw [scalars i (mem_range.mp member), points i (mem_range.mp member)]

theorem dot_comm (n : Nat) (a b : Nat → F) : dot n a b = dot n b a := by
  simp only [dot, smul_eq_mul, mul_comm]

/-- Factors of the points may go to the scalars. -/
theorem dot_combine (n : Nat) (x y : F) (a : Nat → F) (g h : Nat → M) :
    dot n a (fun i => x • g i + y • h i) =
      dot n (fun i => a i * x) g + dot n (fun i => a i * y) h := by
  simp only [dot, smul_add, smul_smul, sum_add_distrib]

/-- Both halves folded, the first with `x` among the scalars and its inverse among the points:
the cross terms are what is left over. -/
theorem dot_fold {x : F} (nonzero : x ≠ 0) (n : Nat) (a : Nat → F) (g : Nat → M) :
    dot n (fun i => a i * x + a (n + i) * x⁻¹) (fun i => x⁻¹ • g i + x • g (n + i)) =
      (x * x) • dot n a (fun i => g (n + i)) + dot (2 * n) a g +
        (x⁻¹ * x⁻¹) • dot n (fun i => a (n + i)) g := by
  simp only [dot, two_mul, sum_range_add, smul_sum, ← sum_add_distrib]
  apply sum_congr rfl
  intro i _
  have first : (a i * x) • x⁻¹ • g i = a i • g i := by
    rw [smul_smul, mul_inv_cancel_right₀ nonzero]
  have second : (a (n + i) * x⁻¹) • x • g (n + i) = a (n + i) • g (n + i) := by
    rw [smul_smul, inv_mul_cancel_right₀ nonzero]
  rw [add_smul, smul_add, smul_add, first, second]
  module

/-! ## Witnesses -/

/-- The generators and the scalars committed to with them. -/
structure Witness (F M : Type) where
  G : Nat → M
  H : Nat → M
  a : Nat → F
  b : Nat → F

namespace Witness

/-- The commitment to both vectors and, with `u`, to their inner product. -/
def commitment (n : Nat) (w : Witness F M) (u : M) : M :=
  dot n w.a w.G + dot n w.b w.H + dot n w.a w.b • u

/-- The cross term of the first half of `a`. -/
def crossL (n : Nat) (w : Witness F M) (u : M) : M :=
  dot n w.a (fun i => w.G (n + i)) + dot n (fun i => w.b (n + i)) w.H +
    dot n w.a (fun i => w.b (n + i)) • u

/-- The cross term of the second half of `a`. -/
def crossR (n : Nat) (w : Witness F M) (u : M) : M :=
  dot n (fun i => w.a (n + i)) w.G + dot n w.b (fun i => w.H (n + i)) +
    dot n (fun i => w.a (n + i)) w.b • u

/-- One round with challenge `x`: what has length `2 * n` gets length `n`. -/
def fold (n : Nat) (x : F) (w : Witness F M) : Witness F M where
  G := fun i => x⁻¹ • w.G i + x • w.G (n + i)
  H := fun i => x • w.H i + x⁻¹ • w.H (n + i)
  a := fun i => w.a i * x + w.a (n + i) * x⁻¹
  b := fun i => w.b i * x⁻¹ + w.b (n + i) * x

/-- The cross terms carry the commitment from one round to the next. -/
theorem commitment_fold {x : F} (nonzero : x ≠ 0) (n : Nat) (w : Witness F M) (u : M) :
    (w.fold n x).commitment n u =
      (x * x) • w.crossL n u + w.commitment (2 * n) u + (x⁻¹ * x⁻¹) • w.crossR n u := by
  have first := dot_fold nonzero n w.a w.G
  have second := dot_fold (inv_ne_zero nonzero) n w.b w.H
  have third := dot_fold nonzero n w.a w.b
  simp only [inv_inv, smul_eq_mul] at second third
  have products : dot n (w.fold n x).a (w.fold n x).b =
      dot n (fun i => w.a i * x + w.a (n + i) * x⁻¹) (fun i => x⁻¹ * w.b i + x * w.b (n + i)) := by
    apply dot_congr (fun _ _ => rfl)
    intro i _
    simp only [fold]
    ring
  rw [commitment, products, third]
  simp only [fold]
  rw [first, second, commitment, crossL, crossR]
  module

/-- The commitment after a round, over the generators before it. -/
theorem commitment_fold_generators (n : Nat) (x : F) (w : Witness F M) (u : M) :
    (w.fold n x).commitment n u =
      dot n (fun i => (w.fold n x).a i * x⁻¹) w.G +
        dot n (fun i => (w.fold n x).a i * x) (fun i => w.G (n + i)) +
        dot n (fun i => (w.fold n x).b i * x) w.H +
        dot n (fun i => (w.fold n x).b i * x⁻¹) (fun i => w.H (n + i)) +
        dot n (w.fold n x).a (w.fold n x).b • u := by
  have first := dot_combine n x⁻¹ x (w.fold n x).a w.G fun i => w.G (n + i)
  have second := dot_combine n x x⁻¹ (w.fold n x).b w.H fun i => w.H (n + i)
  rw [add_assoc (_ + _) (dot n _ w.H), ← first, ← second]
  rfl

end Witness

/-! ## Runs -/

section Runs

variable (next : F → M → M → F) (u : M)

/-- The cross terms of `k` rounds and what is left of the witness. Each challenge depends on
the one before it and on the cross terms. -/
def prove : Nat → F → Witness F M → List (M × M) × Witness F M
  | 0, _, w => ([], w)
  | k + 1, c, w =>
    let L := w.crossL (2 ^ k) u
    let R := w.crossR (2 ^ k) u
    let rest := prove k (next c L R) (w.fold (2 ^ k) (next c L R))
    ((L, R) :: rest.1, rest.2)

/-- Every round's challenge and witness, with the length of the witness, satisfy `good`. -/
def Along (good : Nat → F → Witness F M → Prop) : Nat → F → Witness F M → Prop
  | 0, _, _ => True
  | k + 1, c, w =>
    let x := next c (w.crossL (2 ^ k) u) (w.crossR (2 ^ k) u)
    good (2 ^ k) x w ∧ Along good k x (w.fold (2 ^ k) x)

theorem prove_length (k : Nat) (c : F) (w : Witness F M) : (prove next u k c w).1.length = k := by
  induction k generalizing c w with
  | zero => rfl
  | succ k ih => simp only [prove, List.length_cons, ih]

variable {next u}

theorem Along.mono {good later : Nat → F → Witness F M → Prop}
    (step : ∀ k x w, good (2 ^ k) x w → later (2 ^ k) x w) {k : Nat} {c : F} {w : Witness F M}
    (along : Along next u good k c w) : Along next u later k c w := by
  induction k generalizing c w with
  | zero => trivial
  | succ k ih =>
    obtain ⟨here, rest⟩ := along
    exact ⟨step k _ w here, ih rest⟩

end Runs

end InnerProduct
