import Mathlib.RingTheory.AdjoinRoot
import Mathlib.Algebra.Field.ZMod
import Mathlib.Data.BitVec
import Mathlib.GroupTheory.OrderOfElement
import Mathlib.Tactic.ComputeDegree
import Mathlib.Tactic.LinearCombination
import Mathlib.Tactic.NormNum.Prime

/-!
# The AES field

The polynomials over the integers modulo 2, modulo `X ^ 8 + X ^ 4 + X ^ 3 + X + 1`, with bytes for their elements: bit `k` of
a byte is the coefficient of `X ^ k` (`byteEquiv`). Exclusive or is the sum, `xtime` multiplies by `X`, and the powers of
`X + 1` are the elements other than zero (`exists_pow`), so that it is a field.
-/

namespace Gf256

open Polynomial

noncomputable def modulus : (ZMod 2)[X] := X ^ 8 + X ^ 4 + X ^ 3 + X + 1

theorem modulus_monic : modulus.Monic := by
  unfold modulus
  monicity!

theorem modulus_degree : modulus.degree = 8 := by
  unfold modulus
  compute_degree!

abbrev Elt : Type := AdjoinRoot modulus

noncomputable def x : Elt := AdjoinRoot.root modulus

theorem x_pow_eight : x ^ 8 + x ^ 4 + x ^ 3 + x + 1 = 0 := by
  have h : AdjoinRoot.mk modulus (X ^ 8 + X ^ 4 + X ^ 3 + X + 1) = 0 := AdjoinRoot.mk_self
  simp only [map_add, map_pow, map_one, AdjoinRoot.mk_X] at h
  exact h

theorem two_eq_zero : (2 : Elt) = 0 := by
  have h : AdjoinRoot.of modulus 2 = AdjoinRoot.of modulus 0 := congrArg _ rfl
  rwa [map_ofNat, map_zero] at h

theorem add_self (a : Elt) : a + a = 0 := by
  rw [← two_mul, two_eq_zero, zero_mul]

/-! ## Bytes -/

/-- The byte with given bits. -/
def ofBits (f : Nat → Bool) : BitVec 8 := (BitVec.ofBoolListLE ((List.range 8).map f)).setWidth 8

theorem getLsbD_ofBits (f : Nat → Bool) {k : Nat} (hk : k < 8) : (ofBits f).getLsbD k = f k := by
  rw [ofBits, BitVec.getLsbD_setWidth, BitVec.getLsbD_ofBoolListLE, decide_eq_true hk, Bool.true_and,
    List.getD_eq_getElem?_getD, List.getElem?_map, List.getElem?_range hk]
  rfl

/-- A bit in the field of two elements. -/
def bit (b : Bool) : ZMod 2 := if b then 1 else 0

theorem bit_xor (a b : Bool) : bit (a ^^ b) = bit a + bit b := by
  cases a <;> cases b <;> decide

noncomputable def poly (b : BitVec 8) : (ZMod 2)[X] := ∑ k ∈ Finset.range 8, C (bit (b.getLsbD k)) * X ^ k

theorem coeff_poly (b : BitVec 8) (n : Nat) : (poly b).coeff n = if n < 8 then bit (b.getLsbD n) else 0 := by
  simp [poly, Polynomial.coeff_C_mul, Polynomial.coeff_X_pow]

/-- The element of a byte. -/
noncomputable def ofByte (b : BitVec 8) : Elt := AdjoinRoot.mk modulus (poly b)

theorem ofByte_eq_sum (b : BitVec 8) : ofByte b = ∑ k ∈ Finset.range 8, AdjoinRoot.of modulus (bit (b.getLsbD k)) * x ^ k := by
  rw [ofByte, poly, map_sum]
  refine Finset.sum_congr rfl fun k _ => ?_
  rw [map_mul, map_pow, AdjoinRoot.mk_C, AdjoinRoot.mk_X, x]

theorem degree_poly (b : BitVec 8) : (poly b).degree < 8 := by
  refine (Polynomial.degree_lt_iff_coeff_zero _ 8).2 fun n hn => ?_
  rw [coeff_poly, if_neg (Nat.not_lt.2 hn)]

theorem poly_injective : Function.Injective poly := by
  intro a b h
  refine BitVec.eq_of_getLsbD_eq fun k hk => ?_
  have hk' : (poly a).coeff k = (poly b).coeff k := by rw [h]
  rw [coeff_poly, coeff_poly, if_pos hk, if_pos hk] at hk'
  revert hk'
  cases a.getLsbD k <;> cases b.getLsbD k <;> decide

theorem ofByte_injective : Function.Injective ofByte := by
  intro a b h
  have hdvd : modulus ∣ poly a - poly b := AdjoinRoot.mk_eq_mk.1 h
  have hdeg : (poly a - poly b).degree < modulus.degree := by
    rw [modulus_degree]
    exact lt_of_le_of_lt (Polynomial.degree_sub_le _ _) (max_lt (degree_poly a) (degree_poly b))
  exact poly_injective (sub_eq_zero.1 (Polynomial.eq_zero_of_dvd_of_degree_lt hdvd hdeg))

/-- The byte of the coefficients of a polynomial. -/
noncomputable def byteOf (p : (ZMod 2)[X]) : BitVec 8 := ofBits fun k => decide (p.coeff k = 1)

theorem poly_byteOf {p : (ZMod 2)[X]} (h : p.degree < 8) : poly (byteOf p) = p := by
  refine Polynomial.ext fun n => ?_
  rw [coeff_poly]
  split
  · next hn =>
    rw [byteOf, getLsbD_ofBits _ hn]
    generalize p.coeff n = c
    revert c
    decide
  · next hn => exact ((Polynomial.degree_lt_iff_coeff_zero _ 8).1 h n (Nat.not_lt.1 hn)).symm

theorem ofByte_surjective : Function.Surjective ofByte := by
  intro z
  obtain ⟨p, rfl⟩ := AdjoinRoot.mk_surjective z
  refine ⟨byteOf (p %ₘ modulus), ?_⟩
  rw [ofByte, poly_byteOf (modulus_degree ▸ Polynomial.degree_modByMonic_lt p modulus_monic), AdjoinRoot.mk_eq_mk]
  exact ⟨-(p /ₘ modulus), by rw [Polynomial.modByMonic_eq_sub_mul_div]; ring⟩

noncomputable def byteEquiv : BitVec 8 ≃ Elt := Equiv.ofBijective ofByte ⟨ofByte_injective, ofByte_surjective⟩

/-! ## Operations -/

theorem ofByte_zero : ofByte 0#8 = 0 := by
  rw [ofByte_eq_sum]
  exact Finset.sum_eq_zero fun k _ => by rw [BitVec.getLsbD_zero, bit, if_neg Bool.false_ne_true, map_zero, zero_mul]

theorem ofByte_xor (a b : BitVec 8) : ofByte (a ^^^ b) = ofByte a + ofByte b := by
  rw [ofByte_eq_sum, ofByte_eq_sum, ofByte_eq_sum, ← Finset.sum_add_distrib]
  refine Finset.sum_congr rfl fun k _ => ?_
  rw [BitVec.getLsbD_xor, bit_xor, map_add, add_mul]

/-- The eight terms. -/
theorem ofByte_eq (b : BitVec 8) : ofByte b = AdjoinRoot.of modulus (bit (b.getLsbD 0)) +
    AdjoinRoot.of modulus (bit (b.getLsbD 1)) * x + AdjoinRoot.of modulus (bit (b.getLsbD 2)) * x ^ 2 +
    AdjoinRoot.of modulus (bit (b.getLsbD 3)) * x ^ 3 + AdjoinRoot.of modulus (bit (b.getLsbD 4)) * x ^ 4 +
    AdjoinRoot.of modulus (bit (b.getLsbD 5)) * x ^ 5 + AdjoinRoot.of modulus (bit (b.getLsbD 6)) * x ^ 6 +
    AdjoinRoot.of modulus (bit (b.getLsbD 7)) * x ^ 7 := by
  rw [ofByte_eq_sum]
  simp only [Finset.sum_range_succ, Finset.sum_range_zero, pow_zero, pow_one, mul_one, zero_add]

/-- A byte from its lowest bit and the others. -/
theorem ofByte_shiftRight (b : BitVec 8) :
    ofByte b = AdjoinRoot.of modulus (bit (b.getLsbD 0)) + x * ofByte (b >>> 1) := by
  have h8 : b.getLsbD 8 = false := BitVec.getLsbD_of_ge b 8 (Nat.le_refl 8)
  rw [ofByte_eq, ofByte_eq]
  simp only [BitVec.getLsbD_ushiftRight, Nat.reduceAdd, h8, bit, Bool.false_eq_true, if_false, map_zero]
  ring

/-- The byte times `X`, with its highest bit folded back. -/
def xtime (a : BitVec 8) : BitVec 8 := if a.getLsbD 7 then (a <<< 1) ^^^ 0x1b#8 else a <<< 1

theorem ofByte_shiftLeft (a : BitVec 8) :
    ofByte (a <<< 1) + AdjoinRoot.of modulus (bit (a.getLsbD 7)) * x ^ 8 = x * ofByte a := by
  rw [ofByte_eq, ofByte_eq]
  simp only [BitVec.getLsbD_shiftLeft, Nat.reduceLT, Nat.reduceSub, decide_true, decide_false, Bool.not_true, Bool.not_false,
    Bool.true_and, Bool.and_false, Bool.false_and, bit, Bool.false_eq_true, if_false, map_zero]
  ring

theorem ofByte_fold : ofByte 0x1b#8 = x ^ 8 := by
  have hsum : ofByte 0x1b#8 = x ^ 4 + x ^ 3 + x + 1 := by
    rw [ofByte_eq]
    simp [bit]
    ring
  rw [hsum]
  linear_combination x_pow_eight - add_self (x ^ 8)

theorem ofByte_xtime (a : BitVec 8) : ofByte (xtime a) = x * ofByte a := by
  rw [xtime, ← ofByte_shiftLeft]
  cases a.getLsbD 7 with
  | true => rw [if_pos rfl, ofByte_xor, ofByte_fold, bit, if_pos rfl, map_one, one_mul]
  | false => rw [if_neg Bool.false_ne_true, bit, if_neg Bool.false_ne_true, map_zero, zero_mul, add_zero]

theorem ofByte_one : ofByte 1#8 = 1 := by
  rw [ofByte_eq]
  simp [bit]

/-! ## The powers of `X + 1` -/

/-- The byte times `X + 1`. -/
def triple (a : BitVec 8) : BitVec 8 := a ^^^ xtime a

noncomputable def gen : Elt := x + 1

theorem ofByte_triple (a : BitVec 8) : ofByte (triple a) = gen * ofByte a := by
  rw [triple, ofByte_xor, ofByte_xtime, gen]
  ring

def power (n : Nat) : BitVec 8 := triple^[n] 1

theorem power_succ (n : Nat) : power (n + 1) = triple (power n) := Function.iterate_succ_apply' ..

theorem ofByte_power (n : Nat) : ofByte (power n) = gen ^ n := by
  induction n with
  | zero => exact ofByte_one
  | succ n ih => rw [power_succ, ofByte_triple, ih, pow_succ']

theorem gen_pow_eq_one {n : Nat} : gen ^ n = 1 ↔ power n = 1#8 := by
  rw [← ofByte_power, ← ofByte_one]
  exact ofByte_injective.eq_iff

theorem orderOf_gen : orderOf gen = 255 := by
  refine orderOf_eq_of_pow_and_pow_div_prime (by decide) (gen_pow_eq_one.2 (by decide +kernel)) fun p hp hdvd => ?_
  have hmem : p = 3 ∨ p = 5 ∨ p = 17 := by
    have hfactors : (255 : Nat) = 3 * (5 * 17) := rfl
    rw [hfactors, hp.dvd_mul, hp.dvd_mul] at hdvd
    rw [Nat.prime_dvd_prime_iff_eq hp Nat.prime_three, Nat.prime_dvd_prime_iff_eq hp Nat.prime_five,
      Nat.prime_dvd_prime_iff_eq hp (by norm_num)] at hdvd
    exact hdvd
  rw [Ne, gen_pow_eq_one]
  rcases hmem with rfl | rfl | rfl
  · decide +kernel
  · decide +kernel
  · decide +kernel

noncomputable instance : Fintype Elt := Fintype.ofEquiv (Fin (2 ^ 8)) ((BitVec.equivFin).toEquiv.symm.trans byteEquiv)

theorem card_elt : Fintype.card Elt = 256 := by
  rw [← Fintype.card_congr ((BitVec.equivFin).toEquiv.symm.trans byteEquiv), Fintype.card_fin]
  rfl

instance : Nontrivial Elt := ⟨ofByte 0#8, ofByte 1#8, fun h => absurd (ofByte_injective h) (by decide)⟩

theorem gen_pow_mul {m n : Nat} (h : m + n = 255) : gen ^ m * gen ^ n = 1 := by
  rw [← pow_add, h, ← orderOf_gen, pow_orderOf_eq_one]

theorem gen_pow_ne_zero (n : Nat) : gen ^ n ≠ 0 := by
  have hunit : IsUnit (gen ^ 1) := IsUnit.of_mul_eq_one _ (gen_pow_mul (show 1 + 254 = 255 from rfl))
  rw [pow_one] at hunit
  exact (hunit.pow n).ne_zero

/-- Every element but zero. -/
theorem exists_pow {z : Elt} (hz : z ≠ 0) : ∃ n < 255, gen ^ n = z := by
  classical
  have hinj : Set.InjOn (fun n => gen ^ n) (Finset.range 255) := by
    intro m hm n hn h
    refine pow_injOn_Iio_orderOf ?_ ?_ h <;> rw [orderOf_gen]
    · exact Finset.mem_range.1 hm
    · exact Finset.mem_range.1 hn
  have hsub : (Finset.range 255).image (fun n => gen ^ n) ⊆ Finset.univ.erase 0 := by
    intro y hy
    obtain ⟨n, -, rfl⟩ := Finset.mem_image.1 hy
    exact Finset.mem_erase.2 ⟨gen_pow_ne_zero n, Finset.mem_univ _⟩
  have hcard : (Finset.univ.erase (0 : Elt)).card ≤ ((Finset.range 255).image fun n => gen ^ n).card := by
    rw [Finset.card_image_of_injOn hinj, Finset.card_erase_of_mem (Finset.mem_univ _), Finset.card_univ, card_elt, Finset.card_range]
  have hmem : z ∈ (Finset.range 255).image fun n => gen ^ n := by
    rw [Finset.eq_of_subset_of_card_le hsub hcard]
    exact Finset.mem_erase.2 ⟨hz, Finset.mem_univ _⟩
  obtain ⟨n, hn, he⟩ := Finset.mem_image.1 hmem
  exact ⟨n, Finset.mem_range.1 hn, he⟩

theorem isField : IsField Elt where
  exists_pair_ne := exists_pair_ne Elt
  mul_comm := mul_comm
  mul_inv_cancel := fun {z} hz => by
    obtain ⟨n, hn, rfl⟩ := exists_pow hz
    exact ⟨gen ^ (255 - n), gen_pow_mul (by omega)⟩

theorem inverse_eq {z w : Elt} (h : z * w = 1) : Ring.inverse z = w := by
  have hu : IsUnit z := IsUnit.of_mul_eq_one _ h
  rw [← mul_one (Ring.inverse z), ← h, Ring.inverse_mul_cancel_left z w hu]

/-! ## The S-box -/

/-- The inverse of a byte, zero for zero. -/
noncomputable def inverse (v : BitVec 8) : BitVec 8 := byteEquiv.symm (Ring.inverse (byteEquiv v))

theorem inverse_eq_of_mul {v w : BitVec 8} (h : ofByte v * ofByte w = 1) : inverse v = w := by
  change byteEquiv.symm (Ring.inverse (ofByte v)) = w
  rw [inverse_eq h]
  exact byteEquiv.symm_apply_apply w

theorem inverse_zero : inverse 0#8 = 0#8 := by
  change byteEquiv.symm (Ring.inverse (ofByte 0#8)) = 0#8
  rw [ofByte_zero, Ring.inverse_zero, ← ofByte_zero]
  exact byteEquiv.symm_apply_apply 0#8

/-- The affine map: bit `i` is the sum of the bits `i`, `i + 4` to `i + 7`, and bit `i` of `0x63`. -/
def affine (b : BitVec 8) : BitVec 8 := ofBits fun i =>
  b.getLsbD i ^^ b.getLsbD ((i + 4) % 8) ^^ b.getLsbD ((i + 5) % 8) ^^ b.getLsbD ((i + 6) % 8) ^^ b.getLsbD ((i + 7) % 8) ^^
    (0x63#8).getLsbD i

noncomputable def sbox (v : BitVec 8) : BitVec 8 := affine (inverse v)

end Gf256
