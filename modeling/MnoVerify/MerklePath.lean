import MnoVerify.FieldPrime
import MnoVerify.MembersObjectSound
import MnoVerify.PaddedPath
import MnoVerify.Snapshot

/-!
# Merkle paths and the inclusion circuit

`merklePathFor` of `common/merkle_path.js`, and `MerkleInclusion` of `circuits/merkle.circom` as the constraints on its
signals. An element of the scalar field is an integer modulo `FIELD_PRIME`; the hash of two is a parameter.
-/

namespace Field

abbrev Scalar := ZMod FIELD_PRIME

end Field

namespace MerklePath

open Field (Scalar)

/-! ## The path -/

structure Path where
  pathElements : List Nat
  pathIndices : List Nat
  root : Nat
deriving DecidableEq

section
variable {F : Type} (H : Members.Poseidon F)

/-- The loop for `k` levels from `l` up: the siblings, the bits, and the level where it ends. -/
def pathLoop : Nat → Nat → List F → Nat → List Nat × List Nat × List F
  | 0, _, level, _ => ([], [], level)
  | k + 1, l, level, idx =>
    let zero := PaddedTree.zero H.hash (H.e 0) l
    let sibling := idx ^^^ 1
    let element := H.toObject (if h : sibling < level.length then level[sibling] else zero)
    let (pathElements, pathIndices, top) := pathLoop k (l + 1) (PaddedTree.pairUp H.hash zero level) (idx / 2)
    (element :: pathElements, idx % 2 :: pathIndices, top)

/-- The index of a leaf; none when the number is no such index. -/
def leafIndex (index : Js.Num) (length : Nat) : Option Nat :=
  match index with
  | .dec d => if d.isInteger && decide (0 ≤ d.toInt) && decide (d.toInt < length) then some d.toInt.toNat else none
  | _ => none

/-- `merklePathFor` -/
def merklePathFor (leavesDec : List String) (index : Js.Num) (depth : Nat) : Except String Path :=
  if leavesDec.length = 0 then .error "merklePathFor: no leaves"
  else if 2 ^ depth < leavesDec.length then
    .error ("merklePathFor: " ++ toString leavesDec.length ++ " leaves exceed the capacity " ++ toString (2 ^ depth))
  else match leafIndex index leavesDec.length with
    | none => .error ("merklePathFor: index " ++ String.ofList index.toText ++ " is not a leaf")
    | some idx => match leavesDec.mapM (Members.leaf H) with
      | none => .error "Cannot convert to a BigInt"
      | some xs =>
        let (pathElements, pathIndices, level) := pathLoop H depth 0 xs idx
        match level.head? with
        | none => .error "TypeError"
        | some top => .ok ⟨pathElements, pathIndices, H.toObject top⟩

end

/-! ## The circuit -/

/-- The signals of `MerkleInclusion`; those of level `i` at `i`. -/
structure Inclusion where
  leaf : Scalar
  /-- The input `pathElements`, and the bits of the input `pathIndices`. -/
  pathElements : Nat → Scalar
  pathIndices : Nat → Scalar
  root : Scalar
  cur : Nat → Scalar
  left : Nat → Scalar
  right : Nat → Scalar

variable (hash : Scalar → Scalar → Scalar)

/-- The constraints of level `i`. -/
structure Inclusion.Level (s : Inclusion) (i : Nat) : Prop where
  boolean : s.pathIndices i * (1 - s.pathIndices i) = 0
  left : s.left i = s.cur i + s.pathIndices i * (s.pathElements i - s.cur i)
  right : s.right i = s.pathElements i + s.pathIndices i * (s.cur i - s.pathElements i)
  hashed : s.cur (i + 1) = hash (s.left i) (s.right i)

/-- The constraints of `MerkleInclusion(depth)`. -/
structure Inclusion.Satisfies (depth : Nat) (s : Inclusion) : Prop where
  leaf : s.cur 0 = s.leaf
  levels : ∀ i < depth, s.Level hash i
  root : s.root = s.cur depth

/-! ## The builders over the scalar field -/

/-- Poseidon as circomlibjs gives it. -/
def circomlib : Members.Poseidon Scalar where
  e n := n
  hash := hash
  toObject := ZMod.val

/-- The hash on the least representatives. -/
def onNat (a b : Nat) : Nat := (hash a b).val

/-- The leaves as field elements. -/
def elements (leavesDec : List String) : List Scalar := leavesDec.map fun c => (Field.value c.toList : Scalar)

/-- The index that the bits of an assignment spell. -/
def Inclusion.index (s : Inclusion) (depth : Nat) : Nat :=
  PaddedTree.spelled (fun i => decide (s.pathIndices i = 1)) depth

/-- The pair of level `i` of an assignment does not collide with a pair of the tree. -/
def NoCollision (depth : Nat) (xs : List Scalar) (s : Inclusion) : Prop :=
  ∀ p, PaddedTree.Hashed hash (PaddedTree.pad 0 xs) depth p → ∀ i < depth,
    hash p.1 p.2 = hash (s.left i) (s.right i) → p = (s.left i, s.right i)

end MerklePath
