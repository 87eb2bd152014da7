import MnoVerify.PaddedTree
import Mathlib.Data.Nat.Bitwise

/-!
# Paths in padded binary trees

A walk hashes its way up beside one sibling a level. Beside the siblings of a leaf it reaches the root
(`walk_siblings`), and where nothing collides only the leaf that its turns spell reaches it (`walk_pins`).
-/

namespace PaddedTree

variable {α β : Type*} (f : α → α → α)

/-- The node that a walk is at when it has passed `l` siblings; `bit l` says that it stands on the right. -/
def walk (bit : Nat → Bool) (sibling : Nat → α) (leaf : α) : Nat → α
  | 0 => leaf
  | l + 1 => if bit l then f (sibling l) (walk bit sibling leaf l) else f (walk bit sibling leaf l) (sibling l)

/-- The pair that a walk hashes at level `l`. -/
def walkPair (bit : Nat → Bool) (sibling : Nat → α) (leaf : α) (l : Nat) : α × α :=
  if bit l then (sibling l, walk f bit sibling leaf l) else (walk f bit sibling leaf l, sibling l)

theorem walk_succ (bit : Nat → Bool) (sibling : Nat → α) (leaf : α) (l : Nat) :
    walk f bit sibling leaf (l + 1) = f (walkPair f bit sibling leaf l).1 (walkPair f bit sibling leaf l).2 := by
  rw [walk, walkPair]
  cases bit l <;> rfl

/-! ## The index that the turns spell -/

/-- The number with the first `n` turns for its bits. -/
def spelled (bit : Nat → Bool) : Nat → Nat
  | 0 => 0
  | n + 1 => spelled bit n + (bit n).toNat * 2 ^ n

theorem spelled_lt (bit : Nat → Bool) : ∀ n, spelled bit n < 2 ^ n := by
  intro n
  induction n with
  | zero => exact Nat.zero_lt_one
  | succ n ih =>
    rw [spelled, Nat.pow_succ]
    cases bit n <;> simp only [Bool.toNat_true, Bool.toNat_false] <;> omega

theorem spelled_mod (bit : Nat → Bool) (l : Nat) : ∀ k, spelled bit (l + k) % 2 ^ l = spelled bit l := by
  intro k
  induction k with
  | zero => exact Nat.mod_eq_of_lt (spelled_lt bit l)
  | succ k ih =>
    have hdvd : (bit (l + k)).toNat * 2 ^ (l + k) = 2 ^ l * ((bit (l + k)).toNat * 2 ^ k) := by
      rw [Nat.pow_add, Nat.mul_left_comm]
    rw [← Nat.add_assoc, spelled, hdvd, Nat.add_mul_mod_self_left, ih]

/-- Bit `l` of the spelled number is turn `l`. -/
theorem spelled_bit (bit : Nat → Bool) {l n : Nat} (h : l < n) : spelled bit n / 2 ^ l % 2 = (bit l).toNat := by
  obtain ⟨k, rfl⟩ : ∃ k, n = l + 1 + k := ⟨n - (l + 1), by omega⟩
  have hlow := spelled_mod bit (l + 1) k
  have hlt := spelled_lt bit l
  rw [← Nat.mod_mul_right_div_self, ← Nat.pow_succ, hlow, spelled, Nat.add_mul_div_right _ _ (Nat.two_pow_pos l),
    Nat.div_eq_of_lt hlt, Nat.zero_add]

theorem div_two_pow_succ (i l : Nat) : i / 2 ^ (l + 1) = i / 2 ^ l / 2 := by
  rw [Nat.pow_succ, Nat.div_div_eq_div_mul]

/-! ## Up a tree -/

/-- The sibling of the node at level `l` above leaf `i`. -/
def siblingOf (g : Nat → α) (i l : Nat) : α := node f g l ((i / 2 ^ l) ^^^ 1)

/-- Beside the siblings of leaf `i` a walk passes the nodes above it. -/
theorem walk_siblings (g : Nat → α) (i : Nat) : ∀ l,
    walk f (fun l => decide (i / 2 ^ l % 2 = 1)) (siblingOf f g i) (g i) l = node f g l (i / 2 ^ l) := by
  intro l
  induction l with
  | zero => rw [Nat.pow_zero, Nat.div_one]; rfl
  | succ l ih =>
    have hup := div_two_pow_succ i l
    rw [walk, ih, siblingOf, node, hup]
    rcases Nat.mod_two_eq_zero_or_one (i / 2 ^ l) with h | h
    · rw [if_neg (by simp [h]), Nat.xor_one_of_even (Nat.even_iff.2 h), show 2 * (i / 2 ^ l / 2) = i / 2 ^ l by omega]
    · have hright : 2 * (i / 2 ^ l / 2) + 1 = i / 2 ^ l := by omega
      have hleft : 2 * (i / 2 ^ l / 2) = i / 2 ^ l - 1 := by omega
      rw [if_pos (by simp [h]), Nat.xor_one_of_odd (Nat.odd_iff.2 h), hright, hleft]

/-- A walk to the root, no pair of it in collision with one of the tree, starts at the leaf that its turns spell. -/
theorem walk_pins {g : Nat → α} {d : Nat} {bit : Nat → Bool} {sibling : Nat → α} {leaf : α}
    (hc : ∀ p, Hashed f g d p → ∀ l < d, f p.1 p.2 = f (walkPair f bit sibling leaf l).1 (walkPair f bit sibling leaf l).2 →
      p = walkPair f bit sibling leaf l)
    (h : walk f bit sibling leaf d = node f g d 0) : leaf = g (spelled bit d) := by
  -- from the root down, the walk is on the node of the tree above the spelled leaf
  have hdown : ∀ k ≤ d, walk f bit sibling leaf (d - k) = node f g (d - k) (spelled bit d / 2 ^ (d - k)) := by
    intro k
    induction k with
    | zero =>
      intro _
      rw [Nat.sub_zero, Nat.div_eq_of_lt (spelled_lt bit d)]
      exact h
    | succ k ih =>
      intro hk
      obtain ⟨l, hl⟩ : ∃ l, l = d - (k + 1) := ⟨_, rfl⟩
      have hup := ih (by omega)
      rw [show d - k = l + 1 by omega, walk_succ, node] at hup
      rw [← hl]
      have hlt : spelled bit d / 2 ^ (l + 1) < 2 ^ (d - (l + 1)) := by
        rw [Nat.div_lt_iff_lt_mul (Nat.two_pow_pos _), ← Nat.pow_add, show d - (l + 1) + (l + 1) = d by omega]
        exact spelled_lt bit d
      have hpair := hc _ ⟨l, spelled bit d / 2 ^ (l + 1), by omega, hlt, rfl⟩ l (by omega) hup.symm
      have hbit := spelled_bit bit (show l < d by omega)
      have hdiv := div_two_pow_succ (spelled bit d) l
      unfold walkPair at hpair
      cases hb : bit l with
      | true =>
        rw [hb, if_pos rfl, Prod.mk.injEq] at hpair
        rw [hb, Bool.toNat_true] at hbit
        rw [← hpair.2, show 2 * (spelled bit d / 2 ^ (l + 1)) + 1 = spelled bit d / 2 ^ l by omega]
      | false =>
        rw [hb, if_neg Bool.false_ne_true, Prod.mk.injEq] at hpair
        rw [hb, Bool.toNat_false] at hbit
        rw [← hpair.1, show 2 * (spelled bit d / 2 ^ (l + 1)) = spelled bit d / 2 ^ l by omega]
  have hleaf := hdown d (le_refl d)
  rwa [Nat.sub_self, Nat.pow_zero, Nat.div_one] at hleaf

/-! ## Trees over two types -/

/-- A map that respects the hashes takes a tree to the tree over the images. -/
theorem node_map {f : α → α → α} {f' : β → β → β} {φ : α → β} (hφ : ∀ a b, φ (f a b) = f' (φ a) (φ b))
    {g : Nat → α} {g' : Nat → β} (hg : ∀ i, φ (g i) = g' i) : ∀ l i, φ (node f g l i) = node f' g' l i := by
  intro l
  induction l with
  | zero => exact hg
  | succ l ih =>
    intro i
    rw [node, node, hφ, ih, ih]

theorem pad_map (φ : α → β) (z : α) (xs : List α) (i : Nat) : φ (pad z xs i) = pad (φ z) (xs.map φ) i := by
  rw [pad, pad, List.getElem?_map, Option.getD_map]

end PaddedTree
