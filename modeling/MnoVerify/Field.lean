import MnoVerify.Json
import Mathlib.Data.List.Induction

/-!
# Field elements as decimal strings

`common/field.js`: a field element has one accepted spelling, its shortest decimal
form. `toDigits_value` says that an accepted string is the decimal form of its value.
-/

namespace Field

/-- The order of the BN254 scalar field. -/
def FIELD_PRIME : Nat := 21888242871839275222246405745257275088548364400416034343698204186575808495617

def MAX_FIELD_DIGITS : Nat := (Nat.toDigits 10 (FIELD_PRIME - 1)).length

/-- `/^(0|[1-9]\d*)$/` -/
def isDecimal : List Char → Bool
  | ['0'] => true
  | c :: s => c.isDigit && c != '0' && s.all Char.isDigit
  | [] => false

/-- `BigInt(s)` of a decimal string. -/
def value (s : List Char) : Nat := Nat.ofDigitChars 10 s 0

def isCanonical (s : List Char) : Bool :=
  isDecimal s && decide (s.length ≤ MAX_FIELD_DIGITS) && decide (value s < FIELD_PRIME)

def isCanonicalField : Json → Bool
  | .str s => isCanonical s.toList
  | _ => false

theorem isDecimal_of_isCanonical {s : List Char} (h : isCanonical s = true) : isDecimal s = true := by
  simp only [isCanonical, Bool.and_eq_true] at h; exact h.1.1

theorem value_lt_of_isCanonical {s : List Char} (h : isCanonical s = true) : value s < FIELD_PRIME := by
  simp only [isCanonical, Bool.and_eq_true, decide_eq_true_eq] at h; exact h.2

theorem digitChar_sub {c : Char} (h : c.isDigit = true) : Nat.digitChar (c.toNat - '0'.toNat) = c ∧ c.toNat - '0'.toNat < 10 := by
  have h1 := Char.isDigit_iff_toNat.1 h
  have h0 : '0'.toNat = 48 := rfl
  have h9 : '9'.toNat = 57 := rfl
  have hx : ∀ n < 10, Nat.digitChar n = Char.ofNat (n + 48) := by decide
  rw [h0]
  refine ⟨?_, by omega⟩
  rw [hx _ (by omega), show c.toNat - 48 + 48 = c.toNat by omega, Char.ofNat_toNat]

/-- Digits that do not start with a zero are the decimal form of their value. -/
theorem toDigits_ofDigitChars {c : Char} (hc : c.isDigit = true) (h0 : c ≠ '0') (s : List Char) :
    s.all Char.isDigit = true →
      Nat.toDigits 10 (value (c :: s)) = c :: s ∧ 0 < value (c :: s) := by
  induction s using List.reverseRecOn with
  | nil =>
    intro _
    obtain ⟨h1, h2⟩ := digitChar_sub hc
    have hv : value [c] = c.toNat - '0'.toNat := by simp [value, Nat.ofDigitChars_cons]
    rw [hv, Nat.toDigits_of_lt_base h2, h1]
    refine ⟨rfl, Nat.pos_of_ne_zero fun hz => h0 ?_⟩
    rw [hz] at h1; rw [← h1]; rfl
  | append_singleton s d ih =>
    intro hs
    rw [List.all_append, Bool.and_eq_true] at hs
    obtain ⟨ih1, ih2⟩ := ih hs.1
    obtain ⟨h1, h2⟩ := digitChar_sub (c := d) (by simpa using hs.2)
    have hv : value (c :: (s ++ [d])) = 10 * value (c :: s) + (d.toNat - '0'.toNat) := by
      rw [← List.cons_append, value, Nat.ofDigitChars_append, Nat.ofDigitChars_cons, Nat.ofDigitChars_nil]; rfl
    rw [hv, ← Nat.toDigits_append_toDigits (by decide) ih2 h2, ih1, Nat.toDigits_of_lt_base h2, h1]
    exact ⟨rfl, by omega⟩

/-- An accepted string is the decimal form of its value. -/
theorem toDigits_value {s : List Char} (h : isDecimal s = true) : Nat.toDigits 10 (value s) = s := by
  unfold isDecimal at h
  split at h
  · decide
  · simp only [Bool.and_eq_true, bne_iff_ne] at h
    exact (toDigits_ofDigitChars h.1.1 h.1.2 _ h.2).1
  · cases h

theorem value_inj {s t : List Char} (hs : isDecimal s = true) (ht : isDecimal t = true) (h : value s = value t) : s = t := by
  rw [← toDigits_value hs, ← toDigits_value ht, h]

theorem isDigit_of_isDecimal {s : List Char} (h : isDecimal s = true) : ∀ c ∈ s, c.isDigit = true := by
  rw [← toDigits_value h]
  exact Js.Dec.isDigit_toDigits _

theorem isDecimal_toDigits (n : Nat) : isDecimal (Nat.toDigits 10 n) = true := by
  rcases Nat.eq_zero_or_pos n with rfl | hpos
  · rfl
  · obtain ⟨c, ds, hc, h0⟩ := Js.Dec.toDigits_head hpos
    have hd := Js.Dec.isDigit_toDigits n
    rw [hc] at hd ⊢
    unfold isDecimal
    split
    · rfl
    · rename_i heq
      cases heq
      rw [hd c List.mem_cons_self, bne_iff_ne.2 h0, Bool.true_and, Bool.true_and, List.all_eq_true]
      exact fun x hx => hd x (List.mem_cons_of_mem _ hx)
    · rename_i heq
      cases heq

/-- The decimal form of an element is accepted. -/
theorem isCanonical_toDigits {n : Nat} (h : n < FIELD_PRIME) : isCanonical (Nat.toDigits 10 n) = true := by
  have hv : value (Nat.toDigits 10 n) = n := Nat.ofDigitChars_ten_toDigits
  have hlen : (Nat.toDigits 10 n).length ≤ MAX_FIELD_DIGITS := by
    have hmax : FIELD_PRIME - 1 < 10 ^ MAX_FIELD_DIGITS := (Nat.length_toDigits_le_iff (by decide) (by decide)).1 (le_refl _)
    rw [Nat.length_toDigits_le_iff (by decide) (by decide)]
    omega
  rw [isCanonical, isDecimal_toDigits, hv, decide_eq_true hlen, decide_eq_true h]
  rfl

/-- No element is read from anything but its own decimal form. -/
theorem isCanonicalField_str {j : Json} (h : isCanonicalField j = true) :
    ∃ s, j = .str s ∧ s.toList = Nat.toDigits 10 (value s.toList) ∧ value s.toList < FIELD_PRIME := by
  cases j with
  | str s => exact ⟨s, rfl, (toDigits_value (isDecimal_of_isCanonical h)).symm, value_lt_of_isCanonical h⟩
  | _ => cases h

end Field
