import Mathlib.Algebra.BigOperators.Ring.Finset
import Mathlib.Tactic.Ring

/-!
# The discrete Fourier transform

Over any commutative ring, of `n` entries and at any exponent. A transform of `2 * n` entries is two of `n`, joined
(`dft_two_mul`); where a power of the root is `-1`, the same two give the exponents of the other half (`dft_add`).
-/

namespace Dft

open Finset

variable {R : Type} [CommRing R]

def dft (w : R) (n : Nat) (f : Nat → R) (i : Nat) : R := ∑ j ∈ range n, f j * w ^ (i * j)

theorem dft_zero (w : R) (f : Nat → R) (i : Nat) : dft w 0 f i = 0 := sum_range_zero _

theorem dft_succ (w : R) (n : Nat) (f : Nat → R) (i : Nat) : dft w (n + 1) f i = dft w n f i + f n * w ^ (i * n) :=
  sum_range_succ ..

/-- The even and the odd entries. -/
theorem dft_two_mul (w : R) (n : Nat) (f : Nat → R) (i : Nat) :
    dft w (2 * n) f i = dft (w ^ 2) n (fun j => f (2 * j)) i + w ^ i * dft (w ^ 2) n (fun j => f (2 * j + 1)) i := by
  induction n with
  | zero =>
    rw [Nat.mul_zero, dft_zero, dft_zero, dft_zero, mul_zero, add_zero]
  | succ n ih =>
    rw [Nat.mul_succ, dft_succ, dft_succ, ih, dft_succ, dft_succ]
    ring

theorem dft_period (w : R) {h : Nat} (hw : w ^ h = 1) (n : Nat) (f : Nat → R) (i : Nat) : dft w n f (h + i) = dft w n f i := by
  induction n with
  | zero => rw [dft_zero, dft_zero]
  | succ n ih => rw [dft_succ, dft_succ, ih, Nat.add_mul, pow_add, pow_mul, hw, one_pow, one_mul]

/-- The exponents of the other half. -/
theorem dft_add (w : R) {h : Nat} (hw : w ^ h = -1) (n : Nat) (f : Nat → R) (i : Nat) :
    dft w (2 * n) f (h + i) = dft (w ^ 2) n (fun j => f (2 * j)) i - w ^ i * dft (w ^ 2) n (fun j => f (2 * j + 1)) i := by
  have hsq : (w ^ 2) ^ h = 1 := by rw [← pow_mul, Nat.mul_comm, pow_mul, hw, neg_one_sq]
  rw [dft_two_mul, dft_period _ hsq, dft_period _ hsq, pow_add, hw]
  ring

end Dft
