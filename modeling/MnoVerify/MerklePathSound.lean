import MnoVerify.MerklePath
import MnoVerify.SnapshotSound

/-!
# One root for every builder

`builders_agree`: the DML root hasher, the members tree and `merklePathFor` compute the root of the padded tree; the
path of a leaf satisfies the inclusion circuit, and without a collision the circuit admits no other leaf.
-/

namespace MerklePath

open Field (Scalar)

/-! ## The path of a leaf -/

/-- The siblings of leaf `i` of a tree, and its bits. -/
def siblings {F : Type} (H : Members.Poseidon F) (depth : Nat) (xs : List F) (i : Nat) : List Nat :=
  (List.range depth).map fun l => H.toObject (PaddedTree.siblingOf H.hash (PaddedTree.pad (H.e 0) xs) i l)

def bits (depth i : Nat) : List Nat := (List.range depth).map fun l => i / 2 ^ l % 2

section
variable {F : Type} {H : Members.Poseidon F} {g : Nat → F}

theorem range_succ_map {α : Type} (k : Nat) (f : Nat → α) :
    (List.range (k + 1)).map f = f 0 :: (List.range k).map fun j => f (j + 1) := by
  rw [List.range_succ_eq_map, List.map_cons, List.map_map]
  rfl

theorem element_eq_pad (zero : F) (level : List F) (i : Nat) :
    (if h : i < level.length then level[i] else zero) = PaddedTree.pad zero level i := by
  rw [PaddedTree.pad]
  split
  · rw [List.getElem?_eq_getElem ‹_›, Option.getD_some]
  · rw [List.getElem?_eq_none (not_lt.1 ‹_›), Option.getD_none]

/-- The loop over occupied nodes gives the siblings in the padded tree. -/
theorem pathLoop_eq : ∀ (k l : Nat) (level : List F) (idx : Nat),
    (∀ i, PaddedTree.pad (PaddedTree.zero H.hash (H.e 0) l) level i = PaddedTree.node H.hash g l i) →
    pathLoop H k l level idx =
      ((List.range k).map (fun j => H.toObject (PaddedTree.node H.hash g (l + j) ((idx / 2 ^ j) ^^^ 1))),
        (List.range k).map (fun j => idx / 2 ^ j % 2), PaddedTree.levelUp H.hash (H.e 0) l k level) := by
  intro k
  induction k with
  | zero => exact fun _ _ _ _ => rfl
  | succ k ih =>
    intro l level idx hlevel
    have hup : ∀ i, PaddedTree.pad (PaddedTree.zero H.hash (H.e 0) (l + 1))
        (PaddedTree.pairUp H.hash (PaddedTree.zero H.hash (H.e 0) l) level) i = PaddedTree.node H.hash g (l + 1) i := by
      intro i
      rw [PaddedTree.zero, PaddedTree.pad_pairUp, hlevel, hlevel, PaddedTree.node]
    have hdiv : ∀ j, idx / 2 / 2 ^ j = idx / 2 ^ (j + 1) := Members.Obj.div_pow_succ idx
    rw [pathLoop, ih (l + 1) _ (idx / 2) hup, range_succ_map, range_succ_map, PaddedTree.levelUp, element_eq_pad, hlevel]
    simp only [hdiv, Nat.pow_zero, Nat.div_one, Nat.add_zero, Nat.add_right_comm, Nat.add_assoc]

/-- The loop over the cached levels does, too. -/
theorem cachedLoop_eq : ∀ (k l : Nat) (level : List F) (idx : Nat), level.length = 2 ^ k → idx < 2 ^ k →
    (∀ i, PaddedTree.pad (PaddedTree.zero H.hash (H.e 0) l) level i = PaddedTree.node H.hash g l i) →
    Members.Obj.pathLoop H k (Members.Obj.levelsFrom H k level) idx =
      some ((List.range k).map (fun j => H.toObject (PaddedTree.node H.hash g (l + j) ((idx / 2 ^ j) ^^^ 1))),
        (List.range k).map fun j => idx / 2 ^ j % 2) := by
  intro k
  induction k with
  | zero => exact fun _ _ _ _ _ _ => rfl
  | succ k ih =>
    intro l level idx hlen hidx hlevel
    have hsib : idx ^^^ 1 < level.length := by
      rw [hlen]
      exact Nat.xor_lt_two_pow hidx (Nat.one_lt_two_pow (Nat.succ_ne_zero k))
    have hget : level[idx ^^^ 1]? = some (PaddedTree.node H.hash g l (idx ^^^ 1)) := by
      rw [← hlevel, PaddedTree.pad, List.getElem?_eq_getElem hsib, Option.getD_some]
    have hlen' : level.length = 2 * 2 ^ k := by rw [hlen, Nat.pow_succ, Nat.mul_comm]
    obtain ⟨hpair, hhalf⟩ := PaddedTree.pairUp_even H.hash (H.e 0) (PaddedTree.zero H.hash (H.e 0) l) hlen'
    have hup : ∀ i, PaddedTree.pad (PaddedTree.zero H.hash (H.e 0) (l + 1)) (PaddedTree.pairUp H.hash (H.e 0) level) i =
        PaddedTree.node H.hash g (l + 1) i := by
      intro i
      rw [hpair, PaddedTree.zero, PaddedTree.pad_pairUp, hlevel, hlevel, PaddedTree.node]
    have hdiv : ∀ j, idx / 2 / 2 ^ j = idx / 2 ^ (j + 1) := Members.Obj.div_pow_succ idx
    have hrest := ih (l + 1) _ (idx / 2) hhalf (by rw [Nat.pow_succ] at hidx; omega) hup
    rw [Members.Obj.levelsFrom, Members.Obj.pathLoop, hget, Option.bind_eq_bind, Option.bind_some, hrest,
      range_succ_map, range_succ_map]
    simp only [hdiv, Nat.pow_zero, Nat.div_one, Nat.add_zero, Nat.add_right_comm, Nat.add_assoc, Option.bind_eq_bind,
      Option.bind_some]

/-! ## The two path builders -/

theorem leafIndex_ofNat {i n : Nat} (h : i < n) : leafIndex (.dec (.ofNat i)) n = some i := by
  have hi : ((Js.Dec.ofNat i).isInteger && decide (0 ≤ (Js.Dec.ofNat i).toInt) &&
      decide ((Js.Dec.ofNat i).toInt < (n : Int))) = true := by
    simp [h]
  rw [leafIndex, if_pos hi, Js.Dec.toInt_ofNat, Int.toNat_natCast]

theorem merklePathFor_eq {depth : Nat} {leavesDec : List String} {xs : List F} {i : Nat}
    (hxs : leavesDec.mapM (Members.leaf H) = some xs) (hle : leavesDec.length ≤ 2 ^ depth) (hi : i < leavesDec.length) :
    merklePathFor H leavesDec (.dec (.ofNat i)) depth =
      .ok ⟨siblings H depth xs i, bits depth i, H.toObject (PaddedTree.root H.hash (H.e 0) depth xs)⟩ := by
  have hne : xs ≠ [] := by
    intro h
    have := Members.length_of_mapM hxs
    rw [h, List.length_nil] at this
    omega
  have hloop := @pathLoop_eq F H (PaddedTree.pad (H.e 0) xs) depth 0 xs i fun _ => rfl
  unfold merklePathFor
  rw [if_neg (by omega), if_neg (by omega), leafIndex_ofNat hi]
  dsimp only
  rw [hxs]
  dsimp only
  rw [hloop]
  dsimp only
  rw [PaddedTree.levelUp_head H.hash (H.e 0) hne]
  dsimp only
  simp only [Nat.zero_add]
  rfl

theorem pathFor_eq {depth : Nat} {o : Members.Obj F} {t : Members.MembersTree H depth} (h : o.Represents t) {xs : List F}
    (hxs : t.commitments.mapM (Members.leaf H) = some xs) {i : Nat} (hi : i < 2 ^ depth) :
    (Members.Obj.pathFor H depth o i).1 = some (siblings H depth xs i, bits depth i) := by
  obtain ⟨⟨xs', hxs', hlevels⟩, -⟩ := Members.Obj.buildLevels_represents h
  rw [hxs, Option.some.injEq] at hxs'
  subst hxs'
  have hle : xs.length ≤ 2 ^ depth := by
    rw [Members.length_of_mapM hxs]
    exact t.size_le_capacity
  have hlen : (xs ++ List.replicate (2 ^ depth - xs.length) (H.e 0)).length = 2 ^ depth := by
    rw [List.length_append, List.length_replicate]
    omega
  have hloop := @cachedLoop_eq F H (PaddedTree.pad (H.e 0) xs) depth 0 _ i hlen hi
    (Members.MembersTree.pad_replicate (H.e 0) xs _)
  simp only [Nat.zero_add] at hloop
  unfold Members.Obj.pathFor
  split
  · rename_i levels o' hb
    rw [hb] at hlevels
    cases hlevels
    exact hloop
  · rename_i o' hb
    rw [hb] at hlevels
    cases hlevels

end

/-! ## The circuit -/

section
variable {hash : Scalar → Scalar → Scalar}

theorem boolean_iff {b : Scalar} : b * (1 - b) = 0 ↔ b = 0 ∨ b = 1 := by
  rw [mul_eq_zero, sub_eq_zero, eq_comm (a := (1 : Scalar))]

/-- The selectors of a level put the pair of a walk in order. -/
theorem Inclusion.Level.pair {s : Inclusion} {i : Nat} (h : s.Level hash i) :
    (s.left i, s.right i) = if s.pathIndices i = 1 then (s.pathElements i, s.cur i) else (s.cur i, s.pathElements i) := by
  rw [h.left, h.right]
  rcases boolean_iff.1 h.boolean with hb | hb
  · rw [hb, if_neg zero_ne_one]
    simp
  · rw [hb, if_pos rfl]
    simp

/-- An assignment is a walk from its leaf to its root. -/
theorem Inclusion.Satisfies.cur_eq {s : Inclusion} {depth : Nat} (h : s.Satisfies hash depth) : ∀ l ≤ depth,
    s.cur l = PaddedTree.walk hash (fun i => decide (s.pathIndices i = 1)) s.pathElements s.leaf l := by
  intro l
  induction l with
  | zero => exact fun _ => h.leaf
  | succ l ih =>
    intro hl
    have hlevel := h.levels l (by omega)
    have hpair := hlevel.pair
    rw [hlevel.hashed, PaddedTree.walk, ← ih (by omega)]
    by_cases hb : s.pathIndices l = 1
    · rw [if_pos hb, Prod.mk.injEq] at hpair
      rw [hpair.1, hpair.2, if_pos (decide_eq_true hb)]
    · rw [if_neg hb, Prod.mk.injEq] at hpair
      rw [hpair.1, hpair.2, if_neg (by simpa using hb)]

theorem Inclusion.Satisfies.pair_eq {s : Inclusion} {depth : Nat} (h : s.Satisfies hash depth) {l : Nat} (hl : l < depth) :
    (s.left l, s.right l) =
      PaddedTree.walkPair hash (fun i => decide (s.pathIndices i = 1)) s.pathElements s.leaf l := by
  rw [(h.levels l hl).pair, PaddedTree.walkPair, ← h.cur_eq l (by omega)]
  by_cases hb : s.pathIndices l = 1
  · rw [if_pos hb, if_pos (decide_eq_true hb)]
  · rw [if_neg hb, if_neg (by simpa using hb)]

/-- No leaf but the one that the bits spell. -/
theorem Inclusion.Satisfies.leaf_eq {s : Inclusion} {depth : Nat} {xs : List Scalar} (h : s.Satisfies hash depth)
    (hroot : s.root = PaddedTree.root hash 0 depth xs) (hc : NoCollision hash depth xs s) :
    s.leaf = PaddedTree.pad 0 xs (s.index depth) := by
  apply PaddedTree.walk_pins hash
  · intro p hp l hl heq
    rw [← h.pair_eq hl] at heq ⊢
    exact hc p hp l hl heq
  · rw [← h.cur_eq depth (le_refl _), ← h.root]
    exact hroot

/-- The assignment that a prover computes from the inputs. -/
def assign (hash : Scalar → Scalar → Scalar) (depth : Nat) (leaf : Scalar) (pathElements : Nat → Scalar) (bit : Nat → Bool) :
    Inclusion where
  leaf := leaf
  pathElements := pathElements
  pathIndices i := if bit i then 1 else 0
  root := PaddedTree.walk hash bit pathElements leaf depth
  cur := PaddedTree.walk hash bit pathElements leaf
  left i := (PaddedTree.walkPair hash bit pathElements leaf i).1
  right i := (PaddedTree.walkPair hash bit pathElements leaf i).2

theorem assign_satisfies (depth : Nat) (leaf : Scalar) (pathElements : Nat → Scalar) (bit : Nat → Bool) :
    (assign hash depth leaf pathElements bit).Satisfies hash depth where
  leaf := rfl
  root := rfl
  levels i _ := by
    constructor
    · cases h : bit i <;> simp [assign, h]
    · cases h : bit i <;> simp [assign, PaddedTree.walkPair, h]
    · cases h : bit i <;> simp [assign, PaddedTree.walkPair, h]
    · exact PaddedTree.walk_succ hash bit pathElements leaf i

/-! ## The builders -/

theorem elements_eq {leavesDec : List String} (h : ∀ c ∈ leavesDec, Field.isCanonical c.toList = true) :
    leavesDec.mapM (Members.leaf (circomlib hash)) = some (elements leavesDec) := by
  rw [Members.leaves_canonical (circomlib hash) h, elements]
  simp only [circomlib, Int.cast_natCast]

theorem objectRoot_eq {depth : Nat} {leavesDec : List String} (h : ∀ c ∈ leavesDec, Field.isCanonical c.toList = true)
    {o : Members.Obj Scalar} {t : Members.MembersTree (circomlib hash) depth} (hrep : o.Represents t)
    (ho : o.commitments = leavesDec) :
    o.root (circomlib hash) = (PaddedTree.root hash 0 depth (elements leavesDec)).val := by
  obtain ⟨xs, hxs, -, -, -, htop⟩ := t.maintained
  rw [← hrep.commitments, ho, elements_eq h, Option.some.injEq] at hxs
  rw [Members.Obj.root, hrep.top, htop, ← hxs, Members.rootOf]
  simp only [circomlib, Int.cast_zero]

/-- On representatives, the tree over them has the representative of the root. -/
theorem root_onNat (depth : Nat) (xs : List Scalar) :
    PaddedTree.root (onNat hash) 0 depth (xs.map ZMod.val) = (PaddedTree.root hash 0 depth xs).val := by
  have hmap : ∀ a b : Scalar, (hash a b).val = onNat hash a.val b.val := by
    intro a b
    rw [onNat, ZMod.natCast_zmod_val, ZMod.natCast_zmod_val]
  have hpad : ∀ i, (PaddedTree.pad 0 xs i).val = PaddedTree.pad 0 (xs.map ZMod.val) i := by
    intro i
    rw [PaddedTree.pad_map ZMod.val, ZMod.val_zero]
  exact (PaddedTree.node_map hmap hpad depth 0).symm

theorem dmlRoot_eq {depth : Nat} {leavesDec : List String} (hle : leavesDec.length ≤ 2 ^ depth) :
    Snapshot.dmlRootFromLeaves (onNat hash) depth (leavesDec.map String.toList) =
      .ok (Nat.toDigits 10 (PaddedTree.root hash 0 depth (elements leavesDec)).val) := by
  have hfield : (leavesDec.map String.toList).map Snapshot.fieldOf = (elements leavesDec).map ZMod.val := by
    rw [elements, List.map_map, List.map_map]
    apply List.map_congr_left
    intro c _
    exact (ZMod.val_natCast _ _).symm
  have hlen : ((elements leavesDec).map ZMod.val).length ≤ 2 ^ depth := by
    rw [List.length_map, elements, List.length_map]
    exact hle
  rw [Snapshot.dmlRootFromLeaves, hfield, ← root_onNat, Snapshot.buildRoot_ok hlen]
  rfl

/-- The prover's assignment over the path of a leaf. -/
theorem path_satisfies (depth : Nat) (xs : List Scalar) (i : Nat) (hi : i < 2 ^ depth) :
    ∃ s : Inclusion, s.Satisfies hash depth ∧ s.leaf = PaddedTree.pad 0 xs i ∧ s.root = PaddedTree.root hash 0 depth xs ∧
      ∀ l < depth, (siblings (circomlib hash) depth xs i)[l]? = some (s.pathElements l).val ∧
        (bits depth i)[l]? = some (s.pathIndices l).val := by
  have hroot := PaddedTree.walk_siblings hash (PaddedTree.pad 0 xs) i depth
  rw [Nat.div_eq_of_lt hi] at hroot
  refine ⟨assign hash depth (PaddedTree.pad 0 xs i) (PaddedTree.siblingOf hash (PaddedTree.pad 0 xs) i) fun l =>
    decide (i / 2 ^ l % 2 = 1), assign_satisfies _ _ _ _, rfl, hroot, fun l hl => ?_⟩
  constructor
  · rw [siblings, List.getElem?_map, List.getElem?_range hl]
    simp only [circomlib, Int.cast_zero]
    rfl
  · rw [bits, List.getElem?_map, List.getElem?_range hl]
    rcases Nat.mod_two_eq_zero_or_one (i / 2 ^ l) with h | h
    · simp [assign, h]
    · simp [assign, h, ZMod.val_one]

/-- Every builder over a list of canonical leaves, and the circuit. -/
theorem builders_agree (hash : Scalar → Scalar → Scalar) (depth : Nat) (leavesDec : List String)
    (h : ∀ c ∈ leavesDec, Field.isCanonical c.toList = true) (hle : leavesDec.length ≤ 2 ^ depth) :
    let H := circomlib hash
    let xs := elements leavesDec
    let root := PaddedTree.root hash 0 depth xs
    Snapshot.dmlRootFromLeaves (onNat hash) depth (leavesDec.map String.toList) = .ok (Nat.toDigits 10 root.val) ∧
    (∃ o, Members.Obj.Reachable H depth o ∧ o.commitments = leavesDec) ∧
    (∀ o, Members.Obj.Reachable H depth o → o.commitments = leavesDec → o.root H = root.val) ∧
    (∀ i < leavesDec.length, ∃ path, merklePathFor H leavesDec (.dec (.ofNat i)) depth = .ok path ∧ path.root = root.val ∧
      (∀ o, Members.Obj.Reachable H depth o → o.commitments = leavesDec →
        (Members.Obj.pathFor H depth o i).1 = some (path.pathElements, path.pathIndices)) ∧
      path.pathElements.length = depth ∧ path.pathIndices.length = depth ∧
      ∃ s : Inclusion, s.Satisfies hash depth ∧ s.leaf = PaddedTree.pad 0 xs i ∧ s.root = root ∧
        ∀ l < depth, path.pathElements[l]? = some (s.pathElements l).val ∧
          path.pathIndices[l]? = some (s.pathIndices l).val) ∧
    ∀ s : Inclusion, s.Satisfies hash depth → s.root = root → NoCollision hash depth xs s →
      s.leaf = PaddedTree.pad 0 xs (s.index depth) := by
  intro H xs root
  refine ⟨dmlRoot_eq hle, ?_, ?_, fun i hi => ?_, fun s hs hroot hc => hs.leaf_eq hroot hc⟩
  · obtain ⟨t, ht⟩ := @Members.Obj.fromCommitments_canonical Scalar H depth leavesDec h hle
    obtain ⟨o, ho, hrep⟩ := Members.Obj.fromCommitments_represents ht
    exact ⟨o, .rebuilt ho, hrep.commitments.trans (Members.MembersTree.fromCommitments_commitments ht)⟩
  · intro o ho hcs
    obtain ⟨t, hrep⟩ := ho.represents
    exact objectRoot_eq h hrep hcs
  · have hi' : i < 2 ^ depth := by omega
    refine ⟨_, merklePathFor_eq (elements_eq h) hle hi, ?_, ?_, ?_, ?_, path_satisfies depth xs i hi'⟩
    · simp only [H, circomlib, Int.cast_zero]
      rfl
    · intro o ho hcs
      obtain ⟨t, hrep⟩ := ho.represents
      have hxs : t.commitments.mapM (Members.leaf H) = some xs := by
        rw [← hrep.commitments, hcs]
        exact elements_eq h
      exact pathFor_eq hrep hxs hi'
    · rw [siblings, List.length_map, List.length_range]
    · rw [bits, List.length_map, List.length_range]

/-- A hash to evaluate with. -/
def toyHash (a b : Scalar) : Scalar := a + 2 * b

theorem elements_five : elements ["5"] = [5] := by
  rw [elements, List.map_singleton, show Field.value "5".toList = 5 by decide]
  rfl

theorem root_five : PaddedTree.root toyHash 0 1 [5] = 5 := by
  simp [PaddedTree.root, PaddedTree.node, PaddedTree.pad, toyHash]

theorem noCollision_five : NoCollision toyHash 1 [5] (assign toyHash 1 5 (fun _ => 0) fun _ => false) := by
  rintro p ⟨l, i, hl, hi, rfl⟩ j hj -
  obtain rfl : l = 0 := by omega
  obtain rfl : i = 0 := by simpa using hi
  obtain rfl : j = 0 := by omega
  rfl

theorem builders_agree_five :
    (∀ c ∈ ["5"], Field.isCanonical c.toList = true) ∧ ["5"].length ≤ 2 ^ 1 ∧
      Snapshot.dmlRootFromLeaves (onNat toyHash) 1 [['5']] = .ok ['5'] ∧
      (∃ path, merklePathFor (circomlib toyHash) ["5"] (.dec (.ofNat 0)) 1 = .ok path ∧ path.root = 5) ∧
      NoCollision toyHash 1 (elements ["5"]) (assign toyHash 1 5 (fun _ => 0) fun _ => false) ∧
      (assign toyHash 1 5 (fun _ => 0) fun _ => false).leaf = PaddedTree.pad 0 (elements ["5"]) 0 := by
  have h : ∀ c ∈ ["5"], Field.isCanonical c.toList = true := by decide
  have hval : (5 : Scalar).val = 5 := ZMod.val_natCast_of_lt (by decide : 5 < Field.FIELD_PRIME)
  obtain ⟨hroot, -, -, hpath, hleaf⟩ := builders_agree toyHash 1 ["5"] h (by decide)
  rw [elements_five, root_five] at hroot hpath hleaf
  rw [hval] at hroot hpath
  rw [elements_five]
  obtain ⟨path, hpath, hr, -⟩ := hpath 0 (by decide)
  refine ⟨h, by decide, hroot, ⟨path, hpath, hr⟩, noCollision_five, ?_⟩
  exact hleaf _ (assign_satisfies _ _ _ _) (by simp [assign, PaddedTree.walk, toyHash]) noCollision_five

end

end MerklePath
