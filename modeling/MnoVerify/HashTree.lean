import Mathlib.Data.Set.Function
import Mathlib.Data.List.Basic

/-!
# Merkle trees that repeat the last node of an odd level

A tree is built level by level from digests. `mem_iff_of_root_eq`: leaves that are
digests themselves, of strings no inner node could be hashed from, are determined by
the root as a set, whatever the two lengths are.
-/

/-- 32 bytes. -/
structure Digest where
  bytes : List UInt8
  length_bytes : bytes.length = 32
  deriving DecidableEq

namespace Digest

/-- 32 zero bytes. -/
def zero : Digest := ⟨List.replicate 32 0, by simp⟩

theorem append_inj {a b c d : Digest} (h : a.bytes ++ b.bytes = c.bytes ++ d.bytes) : a = c ∧ b = d := by
  obtain ⟨h1, h2⟩ := List.append_inj h (by rw [a.length_bytes, c.length_bytes])
  constructor
  · cases a; cases c; simpa using h1
  · cases b; cases d; simpa using h2

theorem length_append (a b : Digest) : (a.bytes ++ b.bytes).length = 64 := by
  rw [List.length_append, a.length_bytes, b.length_bytes]

end Digest

namespace HashTree

variable (hash : List UInt8 → Digest)

/-- Two different strings among these have one digest. -/
def Collides (hashed : List (List UInt8)) : Prop := ∃ a ∈ hashed, ∃ b ∈ hashed, a ≠ b ∧ hash a = hash b

theorem injOn_of_not_collides {hashed : List (List UInt8)} (h : ¬ Collides hash hashed) :
    Set.InjOn hash {a | a ∈ hashed} := by
  intro a ha b hb hab
  by_contra hne
  exact h ⟨a, ha, b, hb, hne, hab⟩

/-! ## Levels -/

/-- What the nodes of the next level are hashed from. -/
def pairs : List Digest → List (List UInt8)
  | a :: b :: level => (a.bytes ++ b.bytes) :: pairs level
  | [a] => [a.bytes ++ a.bytes]
  | [] => []

/-- Levels up to the first one with a single node, at most `n` of them. -/
def reduce : Nat → List Digest → List Digest
  | 0, level => level
  | n + 1, level => if 1 < level.length then reduce n ((pairs level).map hash) else level

/-- What `reduce` hashes. -/
def reduceInputs : Nat → List Digest → List (List UInt8)
  | 0, _ => []
  | n + 1, level => if 1 < level.length then pairs level ++ reduceInputs n ((pairs level).map hash) else []

/-! ## Trees -/

inductive Tree
  | leaf (preimage : List UInt8)
  | node (l r : Tree)

namespace Tree

def digest : Tree → Digest
  | leaf a => hash a
  | node l r => hash ((digest l).bytes ++ (digest r).bytes)

/-- What `digest` hashes. -/
def inputs : Tree → List (List UInt8)
  | leaf a => [a]
  | node l r => ((digest hash l).bytes ++ (digest hash r).bytes) :: (inputs l ++ inputs r)

def leaves : Tree → List (List UInt8)
  | leaf a => [a]
  | node l r => leaves l ++ leaves r

theorem ne_of_mem_leaves {l r : Tree} (h : ∀ a ∈ (node l r).leaves, a.length ≠ 64) :
    (∀ a ∈ l.leaves, a.length ≠ 64) ∧ (∀ a ∈ r.leaves, a.length ≠ 64) :=
  ⟨fun a ha => h a (List.mem_append_left _ ha), fun a ha => h a (List.mem_append_right _ ha)⟩

/-- A tree is determined by its digest if its leaves cannot be read as inner nodes. -/
theorem eq_of_digest_eq {S : Set (List UInt8)} (hS : Set.InjOn hash S) :
    ∀ {t u : Tree}, (∀ a ∈ t.leaves, a.length ≠ 64) → (∀ a ∈ u.leaves, a.length ≠ 64) →
      (∀ a ∈ t.inputs hash, a ∈ S) → (∀ a ∈ u.inputs hash, a ∈ S) → t.digest hash = u.digest hash → t = u := by
  intro t
  induction t with
  | leaf a =>
    intro u ht hu it iu h
    cases u with
    | leaf b =>
      have hab : a = b := hS (it a (by simp [inputs])) (iu b (by simp [inputs])) h
      rw [hab]
    | node l r =>
      have hab : a = _ := hS (it a (by simp [inputs])) (iu _ (by simp [inputs])) h
      exact absurd (by rw [hab, Digest.length_append]) (ht a (by simp [leaves]))
  | node l r ihl ihr =>
    intro u ht hu it iu h
    cases u with
    | leaf b =>
      have hab : _ = b := hS (it _ (by simp [inputs])) (iu b (by simp [inputs])) h
      exact absurd (by rw [← hab, Digest.length_append]) (hu b (by simp [leaves]))
    | node l' r' =>
      have hab := hS (it _ (by simp [inputs])) (iu _ (by simp [inputs])) h
      obtain ⟨hl, hr⟩ := Digest.append_inj hab
      obtain ⟨tl, tr⟩ := ne_of_mem_leaves ht
      obtain ⟨ul, ur⟩ := ne_of_mem_leaves hu
      rw [ihl tl ul (fun a ha => it a (by simp [inputs, ha])) (fun a ha => iu a (by simp [inputs, ha])) hl,
        ihr tr ur (fun a ha => it a (by simp [inputs, ha])) (fun a ha => iu a (by simp [inputs, ha])) hr]

/-! ## The tree over a level -/

/-- The nodes of the next level. -/
def pairUp : List Tree → List Tree
  | a :: b :: level => node a b :: pairUp level
  | [a] => [node a a]
  | [] => []

theorem map_hash_pairs : ∀ ts : List Tree, (pairs (ts.map (digest hash))).map hash = (pairUp ts).map (digest hash)
  | a :: b :: ts => by simp [pairs, pairUp, digest, map_hash_pairs ts]
  | [a] => rfl
  | [] => rfl

theorem length_pairUp : ∀ ts : List Tree, (pairUp ts).length = (ts.length + 1) / 2
  | a :: b :: ts => by rw [pairUp, List.length_cons, length_pairUp ts]; simp; omega
  | [a] => by simp [pairUp]
  | [] => by simp [pairUp]

theorem mem_leaves_pairUp (a : List UInt8) :
    ∀ ts : List Tree, (∃ t ∈ pairUp ts, a ∈ t.leaves) ↔ ∃ t ∈ ts, a ∈ t.leaves
  | t :: u :: ts => by simp [pairUp, leaves, mem_leaves_pairUp a ts, or_assoc]
  | [t] => by simp [pairUp, leaves]
  | [] => by simp [pairUp]

theorem mem_inputs_pairUp {a : List UInt8} :
    ∀ {ts : List Tree}, (∃ t ∈ pairUp ts, a ∈ t.inputs hash) →
      a ∈ pairs (ts.map (digest hash)) ∨ ∃ t ∈ ts, a ∈ t.inputs hash
  | t :: u :: ts, h => by
    have ih := @mem_inputs_pairUp a ts
    simp only [pairUp, List.mem_cons, exists_eq_or_imp, inputs, List.mem_append] at h
    simp only [List.map_cons, pairs, List.mem_cons, exists_eq_or_imp]
    obtain (h | h | h) | h := h
    · exact Or.inl (Or.inl h)
    · exact Or.inr (Or.inl h)
    · exact Or.inr (Or.inr (Or.inl h))
    · obtain h | h := ih h
      · exact Or.inl (Or.inr h)
      · exact Or.inr (Or.inr (Or.inr h))
  | [t], h => by simpa [pairUp, inputs, pairs] using h
  | [], h => by simp [pairUp] at h

/-- The level that is left holds one tree over the level one starts from. -/
theorem exists_of_reduce : ∀ (n : Nat) (ts : List Tree), ts ≠ [] → ts.length ≤ n → ∃ t : Tree,
    reduce hash n (ts.map (digest hash)) = [t.digest hash] ∧
    (∀ a, a ∈ t.leaves ↔ ∃ u ∈ ts, a ∈ u.leaves) ∧
    (∀ a ∈ t.inputs hash, a ∈ reduceInputs hash n (ts.map (digest hash)) ∨ ∃ u ∈ ts, a ∈ u.inputs hash) := by
  intro n
  induction n with
  | zero => intro ts hne hn; exact absurd (List.eq_nil_of_length_eq_zero (by omega)) hne
  | succ n ih =>
    intro ts hne hn
    have hpos := List.length_pos_of_ne_nil hne
    by_cases h1 : 1 < ts.length
    · have hl := length_pairUp ts
      obtain ⟨t, h2, h3, h4⟩ := ih (pairUp ts) (List.ne_nil_of_length_pos (by omega)) (by omega)
      refine ⟨t, ?_, fun a => (h3 a).trans (mem_leaves_pairUp a ts), fun a ha => ?_⟩
      · simp only [reduce, List.length_map, h1, if_true, map_hash_pairs, h2]
      · simp only [reduceInputs, List.length_map, h1, if_true, map_hash_pairs, List.mem_append]
        obtain h | h := h4 a ha
        · exact Or.inl (Or.inr h)
        · obtain h | h := mem_inputs_pairUp hash h
          · exact Or.inl (Or.inl h)
          · exact Or.inr h
    · obtain ⟨t, rfl⟩ := List.length_eq_one_iff.1 (show ts.length = 1 by omega)
      exact ⟨t, by simp [reduce], by simp, fun a ha => Or.inr ⟨t, by simp, ha⟩⟩

end Tree

/-! ## The root as a commitment -/

/-- The root of a list of leaves, given as digests; zeros for none. -/
def root (leaves : List Digest) : Digest := (reduce hash leaves.length leaves).headD Digest.zero

/-- What is hashed on the way from strings to the root of their digests. -/
def inputs (preimages : List (List UInt8)) : List (List UInt8) :=
  preimages ++ reduceInputs hash preimages.length (preimages.map hash)

theorem exists_tree {as : List (List UInt8)} (h : as ≠ []) : ∃ t : Tree, root hash (as.map hash) = t.digest hash ∧
    (∀ a, a ∈ t.leaves ↔ a ∈ as) ∧ (∀ a ∈ t.inputs hash, a ∈ inputs hash as) := by
  obtain ⟨t, h1, h2, h3⟩ :=
    Tree.exists_of_reduce hash as.length (as.map Tree.leaf) (by simpa using h) (by simp)
  have he : (as.map Tree.leaf).map (Tree.digest hash) = as.map hash := by
    rw [List.map_map]; rfl
  rw [he] at h1 h3
  refine ⟨t, by simp [root, h1], fun a => (h2 a).trans (by simp [Tree.leaves]), fun a ha => ?_⟩
  obtain h | h := h3 a ha
  · exact List.mem_append_right _ h
  · exact List.mem_append_left _ (by simpa [Tree.inputs] using h)

/-- A tree over something is hashed from something. -/
theorem exists_hash_of_root {as : List (List UInt8)} (h : as ≠ []) :
    ∃ a ∈ inputs hash as, hash a = root hash (as.map hash) := by
  obtain ⟨t, h1, _, h3⟩ := exists_tree hash h
  rw [h1]
  cases t with
  | leaf a => exact ⟨a, h3 a (by simp [Tree.inputs]), rfl⟩
  | node l r => exact ⟨_, h3 _ (List.mem_cons_self ..), rfl⟩

/-- Equal roots, equal sets of leaves. -/
theorem mem_iff_of_root_eq {S : Set (List UInt8)} (hS : Set.InjOn hash S) (h0 : ∀ a ∈ S, hash a ≠ Digest.zero)
    {as bs : List (List UInt8)} (ha : ∀ a ∈ as, a.length ≠ 64) (hb : ∀ b ∈ bs, b.length ≠ 64)
    (sa : ∀ a ∈ inputs hash as, a ∈ S) (sb : ∀ b ∈ inputs hash bs, b ∈ S)
    (h : root hash (as.map hash) = root hash (bs.map hash)) (a : List UInt8) : a ∈ as ↔ a ∈ bs := by
  by_cases hna : as = []
  · by_cases hnb : bs = []
    · rw [hna, hnb]
    · obtain ⟨b, hb1, hb2⟩ := exists_hash_of_root hash hnb
      exact absurd (hb2.trans (by rw [← h, hna]; rfl)) (h0 b (sb b hb1))
  · by_cases hnb : bs = []
    · obtain ⟨b, hb1, hb2⟩ := exists_hash_of_root hash hna
      exact absurd (hb2.trans (by rw [h, hnb]; rfl)) (h0 b (sa b hb1))
    · obtain ⟨t, t1, t2, t3⟩ := exists_tree hash hna
      obtain ⟨u, u1, u2, u3⟩ := exists_tree hash hnb
      have htu : t = u := Tree.eq_of_digest_eq hash hS (fun a h => ha a ((t2 a).1 h)) (fun a h => hb a ((u2 a).1 h))
        (fun a h => sa a (t3 a h)) (fun a h => sb a (u3 a h)) (by rw [← t1, ← u1, h])
      rw [← t2, ← u2, htu]

end HashTree
