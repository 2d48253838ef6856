import Mathlib.Algebra.Ring.Nat
import Mathlib.Tactic.Common

/-!
# Machine words as natural numbers

An unsigned word of `bits` bits is a natural number that every operation reduces modulo
`2 ^ bits`. The reduction is written where the program performs it, so a statement about
the absence of overflow is a statement about these functions.
-/

namespace Word

open Nat

variable {bits : Nat}

/-- The value an unsigned word of `bits` bits keeps of `n`. -/
def wrap (bits n : Nat) : Nat :=
  n % 2 ^ bits

/-- Subtraction of unsigned words. -/
def sub (bits a b : Nat) : Nat :=
  wrap bits (a + (2 ^ bits - b % 2 ^ bits))

/-- Addition of unsigned words. -/
def add (bits a b : Nat) : Nat :=
  wrap bits (a + b)

theorem wrap_lt (n : Nat) : wrap bits n < 2 ^ bits :=
  Nat.mod_lt _ (Nat.two_pow_pos bits)

theorem wrap_le (n : Nat) : wrap bits n ≤ n :=
  mod_le _ _

theorem wrap_of_lt {n : Nat} (fits : n < 2 ^ bits) : wrap bits n = n :=
  mod_eq_of_lt fits

theorem add_le (a b : Nat) : add bits a b ≤ a + b :=
  wrap_le _

variable {a b : Nat}

theorem add_of_lt (fits : a + b < 2 ^ bits) : add bits a b = a + b :=
  wrap_of_lt fits

/-- A sum that does not fit loses one multiple of the word size. -/
theorem add_of_ge (first : a < 2 ^ bits) (second : b < 2 ^ bits) (wraps : 2 ^ bits ≤ a + b) :
    add bits a b = a + b - 2 ^ bits := by
  rw [add, wrap, mod_eq_sub_mod wraps, mod_eq_of_lt (by omega)]

theorem sub_of_le (le : b ≤ a) (fits : a < 2 ^ bits) : sub bits a b = a - b := by
  have small : b % 2 ^ bits = b := mod_eq_of_lt (by omega)
  have shifted : a + (2 ^ bits - b) = (a - b) + 2 ^ bits := by omega
  rw [sub, wrap, small, shifted, add_mod_right, mod_eq_of_lt (by omega)]

/-- A difference below zero counts from the end of the word. -/
theorem sub_of_lt (less : a < b) (fits : b < 2 ^ bits) : sub bits a b = 2 ^ bits - (b - a) := by
  have small : b % 2 ^ bits = b := mod_eq_of_lt fits
  rw [sub, wrap, mod_eq_of_lt (by omega)]
  omega

theorem add_wrap (a b : Nat) : add bits (wrap bits a) b = wrap bits (a + b) := by
  simp [add, wrap]

/-- Subtracting a term of a wrapped sum leaves the wrapped sum of the others. -/
theorem sub_wrap_add (a b : Nat) : sub bits (wrap bits (b + a)) b = wrap bits a := by
  rw [sub, wrap, wrap, mod_add_mod, ← mod_add_mod, add_mod b a]
  rw [wrap, mod_add_mod, show b % 2 ^ bits + a % 2 ^ bits + (2 ^ bits - b % 2 ^ bits) =
    a % 2 ^ bits + 2 ^ bits by omega, add_mod_right, mod_mod]

theorem foldl_add (start : Nat) (terms : List Nat) :
    terms.foldl (add bits) (wrap bits start) = wrap bits (start + terms.sum) := by
  induction terms generalizing start with
  | nil => simp
  | cons term rest ih =>
    rw [List.foldl_cons, add_wrap, ih, List.sum_cons, add_assoc]

end Word
