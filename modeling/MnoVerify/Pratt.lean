import Mathlib.Data.List.Prime
import Mathlib.NumberTheory.LucasPrimality

/-!
# Primality by Lucas's test

`prime_of_lucas`: a number is prime when some base has order `p - 1`, which the powers at the prime factors of
`p - 1` show. A power is evaluated by squaring, from the high bits of the exponent down.
-/

namespace Pratt

/-- `a ^ (n / 2 ^ s) % m`, when `n` has no bit from `s + k` up. -/
def powMod (m a n : Nat) : Nat → Nat → Nat
  | 0, _ => 1 % m
  | k + 1, s =>
    let r := powMod m a n k (s + 1)
    r * r * (if n.testBit s then a else 1) % m

theorem powMod_eq (m a n : Nat) : ∀ k s, n < 2 ^ (s + k) → powMod m a n k s = a ^ (n / 2 ^ s) % m := by
  intro k
  induction k with
  | zero =>
    intro s h
    rw [powMod, Nat.div_eq_of_lt (by rwa [Nat.add_zero] at h), pow_zero]
  | succ k ih =>
    intro s h
    have hhalf : n / 2 ^ s / 2 = n / 2 ^ (s + 1) := by rw [Nat.pow_succ, Nat.div_div_eq_div_mul]
    have hbit : a ^ (n / 2 ^ s) = a ^ (n / 2 ^ (s + 1)) * a ^ (n / 2 ^ (s + 1)) * (if n.testBit s then a else 1) := by
      have hsplit : n / 2 ^ s = n / 2 ^ (s + 1) + n / 2 ^ (s + 1) + n / 2 ^ s % 2 := by omega
      rw [Nat.testBit_eq_decide_div_mod_eq]
      conv_lhs => rw [hsplit, pow_add, pow_add]
      rcases Nat.mod_two_eq_zero_or_one (n / 2 ^ s) with hb | hb
      · simp [hb]
      · simp [hb]
    rw [powMod, ih (s + 1) (by rwa [Nat.add_right_comm]), hbit, ← Nat.mod_mul_mod, ← Nat.mul_mod, Nat.mod_mul_mod]

/-- A power in the ring is one when its representative is. -/
theorem pow_eq_one_iff {p : Nat} (hp : 1 < p) (a : Nat) {n k : Nat} (hn : n < 2 ^ k) :
    (a : ZMod p) ^ n = 1 ↔ powMod p a n k 0 = 1 := by
  have hone : (1 : ZMod p) = ((1 : Nat) : ZMod p) := Nat.cast_one.symm
  rw [powMod_eq p a n k 0 (by rwa [Nat.zero_add]), pow_zero, Nat.div_one, hone, ← Nat.cast_pow,
    ZMod.natCast_eq_natCast_iff', Nat.mod_eq_of_lt hp]

/-- What is evaluated: `a` to the `p - 1` is one, and at no prime factor of `p - 1` is it one before. -/
def order (p a k : Nat) (factors : List Nat) : Bool :=
  decide (factors.prod = p - 1) && decide (p ≤ 2 ^ k) && decide (powMod p a (p - 1) k 0 = 1) &&
    factors.all fun q => decide (powMod p a ((p - 1) / q) k 0 ≠ 1)

theorem prime_of_lucas {p : Nat} (a k : Nat) {factors : List Nat} (hp : 1 < p) (hprime : ∀ q ∈ factors, q.Prime)
    (h : order p a k factors = true) : p.Prime := by
  simp only [order, Bool.and_eq_true, decide_eq_true_eq, List.all_eq_true] at h
  obtain ⟨⟨⟨hprod, hk⟩, hone⟩, hall⟩ := h
  have hlt : ∀ n ≤ p - 1, n < 2 ^ k := by
    intro n hn
    omega
  apply lucas_primality p (a : ZMod p)
  · exact (pow_eq_one_iff hp a (hlt _ (le_refl _))).2 hone
  · intro q hq hdvd
    have hmem : q ∈ factors :=
      mem_list_primes_of_dvd_prod hq.prime (fun f hf => (hprime f hf).prime) (by rwa [hprod])
    rw [ne_eq, pow_eq_one_iff hp a (hlt _ (Nat.div_le_self _ _))]
    exact hall q hmem

end Pratt
