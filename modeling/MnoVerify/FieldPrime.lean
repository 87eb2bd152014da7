import MnoVerify.Field
import MnoVerify.Pratt
import Mathlib.Tactic.NormNum.Prime

/-!
# The scalar field is a field

`FIELD_PRIME` is prime: Lucas's test for it, and below it for the factors that division does not settle.
-/

namespace Field

theorem prime_405928799 : Nat.Prime 405928799 := by
  apply @Pratt.prime_of_lucas 405928799 22 29 [2, 11, 3691, 4999] (by decide)
  · norm_num
  · decide +kernel

theorem prime_5156902474397 : Nat.Prime 5156902474397 := by
  have h : Nat.Prime 12048837557 := by
    apply @Pratt.prime_of_lucas 12048837557 2 34 [2, 2, 7, 7, 661, 93001] (by decide)
    · norm_num
    · decide +kernel
  apply @Pratt.prime_of_lucas 5156902474397 2 43 [2, 2, 107, 12048837557] (by decide)
  · simp only [List.mem_cons, List.not_mem_nil, or_false, forall_eq_or_imp, forall_eq]
    exact ⟨by norm_num, by norm_num, by norm_num, h⟩
  · decide +kernel

theorem prime_1670836401704629 : Nat.Prime 1670836401704629 := by
  apply @Pratt.prime_of_lucas 1670836401704629 2 51 [2, 2, 3, 3, 3, 3, 5156902474397] (by decide)
  · simp only [List.mem_cons, List.not_mem_nil, or_false, forall_eq_or_imp, forall_eq]
    exact ⟨by norm_num, by norm_num, by norm_num, by norm_num, by norm_num, by norm_num, prime_5156902474397⟩
  · decide +kernel

theorem prime_65865678001877903 : Nat.Prime 65865678001877903 := by
  have h : Nat.Prime 639533339 := by
    apply @Pratt.prime_of_lucas 639533339 2 30 [2, 229, 853, 1637] (by decide)
    · norm_num
    · decide +kernel
  apply @Pratt.prime_of_lucas 65865678001877903 5 56 [2, 83, 379, 1637, 639533339] (by decide)
  · simp only [List.mem_cons, List.not_mem_nil, or_false, forall_eq_or_imp, forall_eq]
    exact ⟨by norm_num, by norm_num, by norm_num, by norm_num, h⟩
  · decide +kernel

theorem prime_13818364434197438864469338081 : Nat.Prime 13818364434197438864469338081 := by
  apply @Pratt.prime_of_lucas 13818364434197438864469338081 3 94
    [2, 2, 2, 2, 2, 5, 823, 1593227, 65865678001877903] (by decide)
  · simp only [List.mem_cons, List.not_mem_nil, or_false, forall_eq_or_imp, forall_eq]
    exact ⟨by norm_num, by norm_num, by norm_num, by norm_num, by norm_num, by norm_num, by norm_num, by norm_num,
      prime_65865678001877903⟩
  · decide +kernel

/-- The factors of `FIELD_PRIME - 1`. -/
def factors : List Nat :=
  List.replicate 28 2 ++ [3, 3, 13, 29, 983, 11003, 237073, 405928799, 1670836401704629, 13818364434197438864469338081]

theorem prime_factors : ∀ q ∈ factors, Nat.Prime q := by
  intro q hq
  rcases List.mem_append.1 hq with h | h
  · rw [List.eq_of_mem_replicate h]
    exact Nat.prime_two
  · simp only [List.mem_cons, List.not_mem_nil, or_false] at h
    rcases h with rfl | rfl | rfl | rfl | rfl | rfl | rfl | rfl | rfl | rfl
    · norm_num
    · norm_num
    · norm_num
    · norm_num
    · norm_num
    · norm_num
    · norm_num
    · exact prime_405928799
    · exact prime_1670836401704629
    · exact prime_13818364434197438864469338081

theorem fieldPrime_prime : Nat.Prime FIELD_PRIME := by
  apply @Pratt.prime_of_lucas FIELD_PRIME 5 254 factors (by decide) prime_factors
  decide +kernel

instance : Fact (Nat.Prime FIELD_PRIME) := ⟨fieldPrime_prime⟩

end Field
