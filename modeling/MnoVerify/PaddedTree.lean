import Mathlib.Data.List.Basic
import Mathlib.Tactic.Linarith

/-!
# Padded binary trees

A tree of fixed depth over a list of leaves, filled from the left and padded with
one empty leaf. `node` is the full tree; the three builders (level by level, by
insertion along a frontier, and in one pass with a carry stack) are shown to
compute it. `pad_eq_of_node_eq`: roots without a collision fix the padded leaves.
-/

namespace PaddedTree

variable {α : Type*} (f : α → α → α) (z : α)

/-- The value at index `i` of level `l` over the leaves `g`. -/
def node (g : Nat → α) : Nat → Nat → α
  | 0, i => g i
  | l + 1, i => f (node g l (2 * i)) (node g l (2 * i + 1))

/-- The root of an empty subtree of height `l`. -/
def zero : Nat → α
  | 0 => z
  | l + 1 => f (zero l) (zero l)

/-- The leaves of a list, padded. -/
def pad (xs : List α) (i : Nat) : α := (xs[i]?).getD z

/-- The root of the padded tree of depth `d`. -/
def root (d : Nat) (xs : List α) : α := node f (pad z xs) d 0

theorem pad_of_le {xs : List α} {i : Nat} (h : xs.length ≤ i) : pad z xs i = z := by
  rw [pad, List.getElem?_eq_none h, Option.getD_none]

theorem pad_append_lt {xs : List α} (ys : List α) {i : Nat} (h : i < xs.length) : pad z (xs ++ ys) i = pad z xs i := by
  rw [pad, pad, List.getElem?_append_left h]

theorem pad_append_length (xs : List α) (x : α) : pad z (xs ++ [x]) xs.length = x := by
  simp [pad]

theorem node_congr {g g' : Nat → α} : ∀ {l i : Nat}, (∀ j, i * 2 ^ l ≤ j → j < (i + 1) * 2 ^ l → g j = g' j) →
    node f g l i = node f g' l i
  | 0, i, h => h i (by simp) (by simp)
  | l + 1, i, h => by
    have hp : 2 ^ (l + 1) = 2 * 2 ^ l := Nat.pow_succ'
    rw [node, node, node_congr (l := l) (i := 2 * i) fun j h1 h2 => h j ?_ ?_,
      node_congr (l := l) (i := 2 * i + 1) fun j h1 h2 => h j ?_ ?_]
    all_goals nlinarith

theorem node_empty {g : Nat → α} : ∀ {l i : Nat}, (∀ j, i * 2 ^ l ≤ j → g j = z) → node f g l i = zero f z l
  | 0, i, h => h i (by simp)
  | l + 1, i, h => by
    have hp : 2 ^ (l + 1) = 2 * 2 ^ l := Nat.pow_succ'
    rw [node, zero, node_empty (l := l) (i := 2 * i) fun j h1 => h j ?_,
      node_empty (l := l) (i := 2 * i + 1) fun j h1 => h j ?_]
    all_goals nlinarith [Nat.two_pow_pos l]

/-! ## Level by level -/

/-- The level above `xs`, an odd last node paired with `c`. -/
def pairUp (c : α) : List α → List α
  | [] => []
  | [a] => [f a c]
  | a :: b :: xs => f a b :: pairUp c xs

/-- The `k` levels above level `l`. -/
def levelUp (l : Nat) : Nat → List α → List α
  | 0, xs => xs
  | k + 1, xs => levelUp (l + 1) k (pairUp f (zero f z l) xs)

theorem pad_pairUp (c : α) : ∀ (xs : List α) (i : Nat),
    pad (f c c) (pairUp f c xs) i = f (pad c xs (2 * i)) (pad c xs (2 * i + 1))
  | [], i => by simp [pairUp, pad]
  | [a], 0 => by simp [pairUp, pad]
  | [a], i + 1 => by simp [pairUp, pad, show 2 * (i + 1) = 2 * i + 1 + 1 by omega]
  | a :: b :: xs, 0 => by simp [pairUp, pad]
  | a :: b :: xs, i + 1 => by
    have ih := pad_pairUp c xs i
    simpa [pairUp, pad, show 2 * (i + 1) = 2 * i + 1 + 1 by omega] using ih

/-- Over an even level nothing is left to pair with the constant. -/
theorem pairUp_even (c c' : α) : ∀ {n : Nat} {xs : List α}, xs.length = 2 * n →
    pairUp f c xs = pairUp f c' xs ∧ (pairUp f c xs).length = n
  | 0, [], _ => ⟨rfl, rfl⟩
  | n + 1, a :: b :: xs, h => by
    have hlen : xs.length = 2 * n := by
      simp only [List.length_cons] at h
      omega
    obtain ⟨h1, h2⟩ := pairUp_even c c' hlen
    exact ⟨by rw [pairUp, pairUp, h1], by rw [pairUp, List.length_cons, h2]⟩
  | n + 1, [a], h => by simp only [List.length_singleton] at h; omega
  | 0, _ :: _, h => by simp only [List.length_cons] at h; omega

theorem pairUp_ne_nil (c : α) {xs : List α} (h : xs ≠ []) : pairUp f c xs ≠ [] := by
  match xs with
  | [a] => exact nofun
  | a :: b :: xs => exact nofun

theorem levelUp_ne_nil : ∀ (k l : Nat) {xs : List α}, xs ≠ [] → levelUp f z l k xs ≠ []
  | 0, _, _, h => h
  | k + 1, l, _, h => levelUp_ne_nil k (l + 1) (pairUp_ne_nil f _ h)

theorem pad_levelUp (g : Nat → α) : ∀ (k l : Nat) (xs : List α), (∀ i, pad (zero f z l) xs i = node f g l i) →
    ∀ i, pad (zero f z (l + k)) (levelUp f z l k xs) i = node f g (l + k) i
  | 0, l, xs, h, i => h i
  | k + 1, l, xs, h, i => by
    have hstep : ∀ i, pad (zero f z (l + 1)) (pairUp f (zero f z l) xs) i = node f g (l + 1) i := fun i => by
      rw [zero, pad_pairUp, h, h, node]
    have := pad_levelUp g k (l + 1) _ hstep i
    rwa [levelUp, show l + (k + 1) = l + 1 + k by omega]

/-- The level-by-level build computes the padded root. -/
theorem levelUp_head {d : Nat} {xs : List α} (h : xs ≠ []) : (levelUp f z 0 d xs).head? = some (root f z d xs) := by
  have hp := pad_levelUp f z (pad z xs) d 0 xs (fun i => rfl) 0
  rw [Nat.zero_add] at hp
  cases hl : levelUp f z 0 d xs with
  | nil => exact absurd hl (levelUp_ne_nil f z d 0 h)
  | cons a t => rw [hl] at hp; simpa [pad, root] using hp

theorem root_nil (d : Nat) : root f z d [] = zero f z d :=
  node_empty f z fun _ _ => rfl

/-! ## Insertion along a frontier -/

/-- The `k` levels from `l` up of one insertion: the new frontier, and the node at the top. -/
def climb : Nat → Nat → (Nat → α) → α → Nat → (Nat → α) × α
  | 0, _, fr, cur, _ => (fr, cur)
  | k + 1, l, fr, cur, idx =>
    if idx % 2 = 0 then climb k (l + 1) (Function.update fr l cur) (f cur (zero f z l)) (idx / 2)
    else climb k (l + 1) fr (f (fr l) cur) (idx / 2)

/-- The frontier of `n` leaves: a completed left sibling wherever `n` has a bit. -/
def Frontier (d : Nat) (fr : Nat → α) (g : Nat → α) (n : Nat) : Prop :=
  ∀ l < d, n / 2 ^ l % 2 = 1 → fr l = node f g l (n / 2 ^ l - 1)

theorem climb_spec {g : Nat → α} {n : Nat} (hz : ∀ j, n < j → g j = z) : ∀ (k l : Nat) (fr : Nat → α) (cur : α),
    (∀ m, l ≤ m → m < l + k → n / 2 ^ m % 2 = 1 → fr m = node f g m (n / 2 ^ m - 1)) →
    cur = node f g l (n / 2 ^ l) →
    (climb f z k l fr cur (n / 2 ^ l)).2 = node f g (l + k) (n / 2 ^ (l + k)) ∧
      ∀ m, (climb f z k l fr cur (n / 2 ^ l)).1 m =
        if l ≤ m ∧ m < l + k ∧ n / 2 ^ m % 2 = 0 then node f g m (n / 2 ^ m) else fr m
  | 0, l, fr, cur, _, hc => ⟨hc, fun m => by rw [if_neg (by omega)]; rfl⟩
  | k + 1, l, fr, cur, hf, hc => by
    have hd : n / 2 ^ (l + 1) = n / 2 ^ l / 2 := by rw [Nat.pow_succ, Nat.div_div_eq_div_mul]
    have hk : l + (k + 1) = l + 1 + k := by omega
    rw [climb]
    by_cases he : n / 2 ^ l % 2 = 0
    · rw [if_pos he]
      -- a left child: nothing stands to its right yet
      have hz' : node f g l (2 * (n / 2 ^ (l + 1)) + 1) = zero f z l := by
        refine node_empty f z fun j hj => hz j ?_
        have h1 : 2 * (n / 2 ^ (l + 1)) = n / 2 ^ l := by omega
        rw [h1, Nat.add_mul, Nat.one_mul] at hj
        have := Nat.div_add_mod n (2 ^ l)
        have := Nat.mod_lt n (Nat.two_pow_pos l)
        rw [Nat.mul_comm] at hj; omega
      have hcur : f cur (zero f z l) = node f g (l + 1) (n / 2 ^ (l + 1)) := by
        rw [node, hz', hc, show 2 * (n / 2 ^ (l + 1)) = n / 2 ^ l by omega]
      have ih := climb_spec hz k (l + 1) (Function.update fr l cur) (f cur (zero f z l)) (fun m h1 h2 h3 => by
        rw [Function.update_of_ne (by omega)]; exact hf m (by omega) (by omega) h3) hcur
      rw [← hd, hk]
      refine ⟨ih.1, fun m => ?_⟩
      rw [ih.2 m]
      by_cases hm : m = l
      · subst hm; rw [if_neg (by omega), if_pos ⟨le_refl _, by omega, he⟩, Function.update_self, hc]
      · by_cases h : l + 1 ≤ m ∧ m < l + 1 + k ∧ n / 2 ^ m % 2 = 0
        · rw [if_pos h, if_pos ⟨by omega, h.2.1, h.2.2⟩]
        · rw [if_neg h, if_neg (fun h' => h ⟨by omega, h'.2.1, h'.2.2⟩), Function.update_of_ne hm]
    · rw [if_neg he]
      have hcur : f (fr l) cur = node f g (l + 1) (n / 2 ^ (l + 1)) := by
        rw [hf l (le_refl l) (by omega) (by omega), hc, node, show 2 * (n / 2 ^ (l + 1)) + 1 = n / 2 ^ l by omega,
          show 2 * (n / 2 ^ (l + 1)) = n / 2 ^ l - 1 by omega]
      have ih := climb_spec hz k (l + 1) fr (f (fr l) cur) (fun m h1 h2 h3 => hf m (by omega) (by omega) h3) hcur
      rw [← hd, hk]
      refine ⟨ih.1, fun m => ?_⟩
      rw [ih.2 m]
      by_cases h : l + 1 ≤ m ∧ m < l + 1 + k ∧ n / 2 ^ m % 2 = 0
      · rw [if_pos h, if_pos ⟨by omega, h.2.1, h.2.2⟩]
      · rw [if_neg h, if_neg (fun h' => h ⟨by
          rcases Nat.lt_or_ge l m with h1 | h1
          · exact h1
          · have : m = l := by omega
            exact absurd (this ▸ h'.2.2) he, h'.2.1, h'.2.2⟩)]

/-- The block count at level `l` after one more leaf. -/
theorem succ_div_two_pow (n l : Nat) :
    (n + 1) / 2 ^ l = n / 2 ^ l ∨ ((n + 1) / 2 ^ l = n / 2 ^ l + 1 ∧ (n + 1) % 2 ^ l = 0) := by
  rw [Nat.succ_div]
  split
  · rename_i h; exact .inr ⟨rfl, Nat.mod_eq_zero_of_dvd h⟩
  · exact .inl rfl

/-- Inserting a leaf gives the root and the frontier of the longer list. -/
theorem climb_insert {d : Nat} {fr : Nat → α} {xs : List α} (x : α) (hfr : Frontier f d fr (pad z xs) xs.length)
    (hn : xs.length < 2 ^ d) :
    (climb f z d 0 fr x xs.length).2 = root f z d (xs ++ [x]) ∧
      Frontier f d (climb f z d 0 fr x xs.length).1 (pad z (xs ++ [x])) (xs ++ [x]).length := by
  obtain ⟨n, hlen⟩ : ∃ n, n = xs.length := ⟨_, rfl⟩
  obtain ⟨g, hg⟩ : ∃ g, g = pad z (xs ++ [x]) := ⟨_, rfl⟩
  rw [← hlen] at hfr hn
  rw [List.length_append, List.length_singleton, ← hlen, ← hg, root, ← hg]
  have hz : ∀ j, n < j → g j = z := fun j hj => by
    rw [hg, pad_of_le z (by rw [List.length_append, List.length_singleton]; omega)]
  have hold : ∀ l, n / 2 ^ l % 2 = 1 → node f (pad z xs) l (n / 2 ^ l - 1) = node f g l (n / 2 ^ l - 1) := by
    intro l hl
    refine node_congr f fun j _ hj => ?_
    have hpos : 1 ≤ n / 2 ^ l := Nat.pos_of_ne_zero fun h => by rw [h] at hl; cases hl
    have h1 : (n / 2 ^ l - 1 + 1) * 2 ^ l ≤ n := by
      rw [Nat.sub_add_cancel hpos]; exact Nat.div_mul_le_self n _
    have h2 : j < xs.length := by rw [← hlen]; exact Nat.lt_of_lt_of_le hj h1
    rw [hg, pad_append_lt z [x] h2]
  have hspec := climb_spec f z hz d 0 fr x
    (fun m _ hm ho => by rw [hfr m (by omega) ho]; exact hold m ho)
    (by rw [Nat.pow_zero, Nat.div_one, node, hg, hlen, pad_append_length])
  rw [Nat.pow_zero, Nat.div_one, Nat.zero_add] at hspec
  obtain ⟨h1, h2⟩ := hspec
  refine ⟨by rw [h1, Nat.div_eq_of_lt hn], fun l hl ho => ?_⟩
  rw [h2 l]
  rcases succ_div_two_pow n l with he | ⟨he, -⟩
  · rw [he] at ho ⊢
    rw [if_neg (by omega), hfr l hl ho]; exact hold l ho
  · rw [he] at ho ⊢
    rw [if_pos ⟨by omega, by omega, by omega⟩, Nat.add_sub_cancel]

theorem frontier_nil (d : Nat) (fr : Nat → α) (g : Nat → α) : Frontier f d fr g 0 := by
  intro l _ h; rw [Nat.zero_div] at h; cases h

/-! ## The carry stack -/

/-- One completed subtree on the stack of completed subtrees, its top first. -/
def carry : List (Nat × α) → Nat → α → List (Nat × α)
  | [], l, x => [(l, x)]
  | (l', a) :: st, l, x => if l' = l then carry st (l + 1) (f a x) else (l, x) :: (l', a) :: st

/-- The completed subtrees of `n` blocks of level `l`: one for each bit of `n`. -/
def blocks (g : Nat → α) : Nat → Nat → List (Nat × α)
  | 0, _ => []
  | n + 1, l =>
    if (n + 1) % 2 = 1 then (l, node f g l n) :: blocks g ((n + 1) / 2) (l + 1) else blocks g ((n + 1) / 2) (l + 1)
termination_by n => n
decreasing_by all_goals omega

theorem blocks_odd {g : Nat → α} {n l : Nat} (h : n % 2 = 1) :
    blocks f g n l = (l, node f g l (n - 1)) :: blocks f g (n / 2) (l + 1) := by
  cases n with
  | zero => cases h
  | succ n => rw [blocks, if_pos h, Nat.add_sub_cancel]

theorem blocks_even {g : Nat → α} {n l : Nat} (h : n % 2 = 0) : blocks f g n l = blocks f g (n / 2) (l + 1) := by
  cases n with
  | zero => rw [Nat.zero_div, blocks, blocks]
  | succ n => rw [blocks, if_neg (by omega)]

theorem le_of_mem_blocks {g : Nat → α} (n : Nat) : ∀ {l : Nat} {p : Nat × α}, p ∈ blocks f g n l → l ≤ p.1 := by
  induction n using Nat.strongRecOn with
  | _ n ih =>
    intro l p hp
    rcases Nat.eq_zero_or_pos n with rfl | hn
    · rw [blocks] at hp; cases hp
    rcases Nat.mod_two_eq_zero_or_one n with h | h
    · rw [blocks_even f h] at hp
      exact Nat.le_of_succ_le (ih _ (by omega) hp)
    · rw [blocks_odd f h] at hp
      rcases List.mem_cons.1 hp with rfl | hp
      · exact le_refl l
      · exact Nat.le_of_succ_le (ih _ (by omega) hp)

theorem carry_of_lt {st : List (Nat × α)} {l : Nat} (x : α) (h : ∀ p ∈ st, l < p.1) : carry f st l x = (l, x) :: st := by
  cases st with
  | nil => rfl
  | cons p st =>
    obtain ⟨l', a⟩ := p
    have := h (l', a) List.mem_cons_self
    rw [carry, if_neg (by dsimp only at this; omega)]

/-- One more block carries like a binary counter. -/
theorem carry_blocks {g : Nat → α} (n : Nat) : ∀ l, carry f (blocks f g n l) l (node f g l n) = blocks f g (n + 1) l := by
  induction n using Nat.strongRecOn with
  | _ n ih =>
    intro l
    rcases Nat.mod_two_eq_zero_or_one n with h | h
    · rw [blocks_odd f (show (n + 1) % 2 = 1 by omega), Nat.add_sub_cancel, show (n + 1) / 2 = n / 2 by omega,
        blocks_even f h]
      exact carry_of_lt f _ fun p hp => le_of_mem_blocks f _ hp
    · have hn : node f g (l + 1) (n / 2) = f (node f g l (n - 1)) (node f g l n) := by
        rw [node, show 2 * (n / 2) + 1 = n by omega, show 2 * (n / 2) = n - 1 by omega]
      rw [blocks_odd f h, carry, if_pos rfl, ← hn, ih (n / 2) (by omega) (l + 1),
        blocks_even f (show (n + 1) % 2 = 0 by omega), show (n + 1) / 2 = n / 2 + 1 by omega]

/-- The stack after all leaves. -/
def stack (xs : List α) : List (Nat × α) := xs.foldl (fun st x => carry f st 0 x) []

theorem stack_eq_blocks (xs : List α) : stack f xs = blocks f (pad z xs) xs.length 0 := by
  suffices h : ∀ (ys xs : List α) (st : List (Nat × α)), st = blocks f (pad z (xs ++ ys)) xs.length 0 →
      ys.foldl (fun st x => carry f st 0 x) st = blocks f (pad z (xs ++ ys)) (xs ++ ys).length 0 from
    h xs [] [] (by rw [List.length_nil, blocks])
  intro ys
  induction ys with
  | nil => intro xs st h; simpa using h
  | cons y ys ih =>
    intro xs st h
    have hy : node f (pad z (xs ++ y :: ys)) 0 xs.length = y := by simp [node, pad]
    have := ih (xs ++ [y]) (carry f st 0 y) (by
      rw [h, List.append_assoc, List.singleton_append, List.length_append, List.length_singleton, ← carry_blocks, hy])
    rwa [List.append_assoc, List.singleton_append] at this

/-- The frontier that a stack leaves: its entries below the root. -/
def frontierOf (d : Nat) (st : List (Nat × α)) : Nat → α :=
  st.foldr (fun p fr => if p.1 < d then Function.update fr p.1 p.2 else fr) fun _ => z

theorem mem_blocks {g : Nat → α} (n : Nat) : ∀ {l m : Nat}, l ≤ m → n / 2 ^ (m - l) % 2 = 1 →
    (m, node f g m (n / 2 ^ (m - l) - 1)) ∈ blocks f g n l := by
  induction n using Nat.strongRecOn with
  | _ n ih =>
    intro l m hlm ho
    rcases Nat.eq_zero_or_pos n with rfl | hn
    · rw [Nat.zero_div] at ho; cases ho
    rcases Nat.eq_or_lt_of_le hlm with rfl | hlt
    · rw [Nat.sub_self, Nat.pow_zero, Nat.div_one] at ho ⊢
      rw [blocks_odd f ho]; exact List.mem_cons_self
    · have hd : n / 2 ^ (m - l) = n / 2 / 2 ^ (m - (l + 1)) := by
        rw [Nat.div_div_eq_div_mul, ← Nat.pow_succ', Nat.succ_eq_add_one, show m - (l + 1) + 1 = m - l by omega]
      rw [hd] at ho ⊢
      have := ih (n / 2) (by omega) hlt ho
      rcases Nat.mod_two_eq_zero_or_one n with h | h
      · rw [blocks_even f h]; exact this
      · rw [blocks_odd f h]; exact List.mem_cons_of_mem _ this

theorem frontierOf_mem {d m : Nat} {a : α} (hm : m < d) : ∀ {st : List (Nat × α)},
    st.Pairwise (fun p q => p.1 < q.1) → (m, a) ∈ st → frontierOf z d st m = a
  | p :: st, hp, h => by
    obtain ⟨hhead, htail⟩ := List.pairwise_cons.1 hp
    rw [frontierOf, List.foldr_cons]
    rcases List.mem_cons.1 h with rfl | h
    · rw [if_pos hm, Function.update_self]
    · have hne : m ≠ p.1 := (Nat.ne_of_lt (hhead _ h)).symm
      split
      · rw [Function.update_of_ne hne]; exact frontierOf_mem hm htail h
      · exact frontierOf_mem hm htail h

theorem blocks_pairwise {g : Nat → α} (n : Nat) : ∀ l, (blocks f g n l).Pairwise fun p q => p.1 < q.1 := by
  induction n using Nat.strongRecOn with
  | _ n ih =>
    intro l
    rcases Nat.eq_zero_or_pos n with rfl | hn
    · rw [blocks]; exact .nil
    rcases Nat.mod_two_eq_zero_or_one n with h | h
    · rw [blocks_even f h]; exact ih _ (by omega) _
    · rw [blocks_odd f h]
      exact .cons (fun p hp => le_of_mem_blocks f _ hp) (ih _ (by omega) _)

theorem frontier_of_stack (d : Nat) (xs : List α) :
    Frontier f d (frontierOf z d (stack f xs)) (pad z xs) xs.length := by
  intro l hl ho
  rw [stack_eq_blocks f z]
  exact frontierOf_mem z hl (blocks_pairwise f _ 0) (mem_blocks f _ (Nat.zero_le l) ho)

/-- The stack of a full tree holds its root only. -/
theorem stack_full {d : Nat} {xs : List α} (h : xs.length = 2 ^ d) : stack f xs = [(d, root f z d xs)] := by
  have hb : ∀ (k l : Nat) (g : Nat → α), blocks f g (2 ^ k) l = [(l + k, node f g (l + k) 0)] := by
    intro k
    induction k with
    | zero => intro l g; rw [Nat.pow_zero, blocks_odd f (by decide), show 1 / 2 = 0 from rfl, blocks]; rfl
    | succ k ih =>
      intro l g
      rw [blocks_even f (by rw [Nat.pow_succ]; omega), show 2 ^ (k + 1) / 2 = 2 ^ k by rw [Nat.pow_succ]; omega, ih,
        show l + 1 + k = l + (k + 1) by omega]
  rw [stack_eq_blocks f z, h, hb, Nat.zero_add, root]

/-- The `k` levels from `l` up of the fold of a frontier around the next free leaf. -/
def foldUp : Nat → Nat → (Nat → α) → α → Nat → α
  | 0, _, _, cur, _ => cur
  | k + 1, l, fr, cur, n =>
    if n % 2 = 1 then foldUp k (l + 1) fr (f (fr l) cur) (n / 2)
    else foldUp k (l + 1) fr (f cur (zero f z l)) (n / 2)

theorem foldUp_eq_climb : ∀ (k l : Nat) (fr fr' : Nat → α) (cur : α) (n : Nat), (∀ m, l ≤ m → fr m = fr' m) →
    foldUp f z k l fr cur n = (climb f z k l fr' cur n).2
  | 0, _, _, _, _, _, _ => rfl
  | k + 1, l, fr, fr', cur, n, h => by
    rw [foldUp, climb]
    rcases Nat.mod_two_eq_zero_or_one n with hn | hn
    · rw [if_neg (by omega), if_pos hn]
      exact foldUp_eq_climb k (l + 1) _ _ _ _ fun m hm => by rw [Function.update_of_ne (by omega)]; exact h m (by omega)
    · rw [if_pos hn, if_neg (by omega), h l (le_refl l)]
      exact foldUp_eq_climb k (l + 1) _ _ _ _ fun m hm => h m (by omega)

/-- The frontier of a list that does not fill the tree folds to its root. -/
theorem foldUp_frontier {d : Nat} {fr : Nat → α} {xs : List α} (hfr : Frontier f d fr (pad z xs) xs.length)
    (hn : xs.length < 2 ^ d) : foldUp f z d 0 fr z xs.length = root f z d xs := by
  rw [foldUp_eq_climb f z d 0 fr fr z _ fun _ _ => rfl, (climb_insert f z z hfr hn).1]
  refine node_congr f fun j _ _ => ?_
  rcases Nat.lt_trichotomy j xs.length with h | rfl | h
  · exact pad_append_lt z [z] h
  · rw [pad_append_length, pad_of_le z (le_refl _)]
  · rw [pad_of_le z (by simp; omega), pad_of_le z (by omega)]

/-! ## Collisions -/

/-- A pair of children hashed in the tree of depth `d` over the leaves `g`. -/
def Hashed (g : Nat → α) (d : Nat) (p : α × α) : Prop :=
  ∃ l i, l < d ∧ i < 2 ^ (d - (l + 1)) ∧ p = (node f g l (2 * i), node f g l (2 * i + 1))

/-- Two trees with one root and no collision between them have the same leaves. -/
theorem leaves_eq_of_node_eq {g g' : Nat → α} {d : Nat}
    (hc : ∀ p q : α × α, Hashed f g d p → Hashed f g' d q → f p.1 p.2 = f q.1 q.2 → p = q)
    (h : node f g d 0 = node f g' d 0) : ∀ i < 2 ^ d, g i = g' i := by
  have hl : ∀ k ≤ d, ∀ i < 2 ^ k, node f g (d - k) i = node f g' (d - k) i := by
    intro k
    induction k with
    | zero => intro _ i hi; rw [show i = 0 by omega]; exact h
    | succ k ih =>
      intro hk i hi
      have hp := ih (by omega) (i / 2) (by rw [Nat.pow_succ] at hi; omega)
      rw [show d - k = d - (k + 1) + 1 by omega, node, node] at hp
      have hlt : i / 2 < 2 ^ (d - (d - (k + 1) + 1)) := by
        rw [show d - (d - (k + 1) + 1) = k by omega]; rw [Nat.pow_succ] at hi; omega
      have := hc _ _ ⟨d - (k + 1), i / 2, by omega, hlt, rfl⟩ ⟨d - (k + 1), i / 2, by omega, hlt, rfl⟩ hp
      rw [Prod.mk.injEq] at this
      rcases Nat.mod_two_eq_zero_or_one i with he | he
      · rw [show i = 2 * (i / 2) by omega]; exact this.1
      · rw [show i = 2 * (i / 2) + 1 by omega]; exact this.2
  intro i hi
  have := hl d (le_refl d) i hi
  rwa [Nat.sub_self] at this

end PaddedTree
