import MnoVerify.MembersTree

/-!
# The members tree as an object

The class `MembersTree` of `core/members_tree.js` with the fields that it changes in place: a method that throws
leaves what it has written. An index is below `2^31` at the depths in use, where a 32-bit shift halves it.
-/

namespace Members

/-- The fields of a tree, beside its depth. -/
structure Obj (F : Type) where
  commitments : List String
  /-- `_levels`, the cache of the full build. -/
  levels : Option (List (List F))
  /-- `_frontier`, with its `null`s. -/
  frontier : List (Option F)
  /-- `_root` -/
  top : F

namespace Obj

section
variable {F : Type} (H : Poseidon F) (depth : Nat)

/-- The constructor. -/
def new : Obj F := ⟨[], none, List.replicate depth none, PaddedTree.zero H.hash (H.e 0) depth⟩

/-- An entry of the frontier; `none` for `null`. -/
def read (frontier : List (Option F)) (l : Nat) : Option F := frontier[l]?.join

/-- The loop of `#insert` for `k` levels from `l` up, and `none` where it would hash a `null`. -/
def insertLoop : Nat → Nat → List (Option F) → F → Nat → List (Option F) × Option F
  | 0, _, frontier, cur, _ => (frontier, some cur)
  | k + 1, l, frontier, cur, idx =>
    if idx % 2 = 0 then
      insertLoop k (l + 1) (frontier.set l (some cur)) (H.hash cur (PaddedTree.zero H.hash (H.e 0) l)) (idx / 2)
    else match read frontier l with
      | none => (frontier, none)
      | some left => insertLoop k (l + 1) frontier (H.hash left cur) (idx / 2)

/-- `#insert` -/
def insert (o : Obj F) (leafF : F) (index : Nat) : Except String Unit × Obj F :=
  match insertLoop H depth 0 o.frontier leafF index with
  | (frontier, some cur) => (.ok (), { o with frontier := frontier, top := cur })
  | (frontier, none) => (.error "TypeError", { o with frontier := frontier })

def full (o : Obj F) : Bool := decide (2 ^ depth ≤ o.commitments.length)

/-- `append`: the index or what it throws, and the fields afterwards. -/
def append (o : Obj F) (commitmentDec : String) : Except String Nat × Obj F :=
  if full depth o then
    (.error ("members tree is full: " ++ toString (2 ^ depth) ++ " commitments at depth " ++ toString depth), o)
  else match leaf H commitmentDec with
    | none => (.error ("Cannot convert " ++ commitmentDec ++ " to a BigInt"), o)
    | some leafF =>
      let index := o.commitments.length
      let o := { o with commitments := o.commitments ++ [commitmentDec] }
      let o := { o with levels := none }
      match insert H depth o leafF index with
      | (.ok (), o) => (.ok index, o)
      | (.error e, o) => (.error e, o)

/-- The fold of the frontier around the next free leaf, for `k` levels from `l` up. -/
def foldLoop : Nat → Nat → List (Option F) → F → Nat → Option F
  | 0, _, _, cur, _ => some cur
  | k + 1, l, frontier, cur, n =>
    if n % 2 = 1 then match read frontier l with
      | none => none
      | some left => foldLoop k (l + 1) frontier (H.hash left cur) (n / 2)
    else foldLoop k (l + 1) frontier (H.hash cur (PaddedTree.zero H.hash (H.e 0) l)) (n / 2)

/-- The frontier with the entries of a stack below the root, the bottom of the stack first. -/
def writeStack (stack : List (Nat × F)) (frontier : List (Option F)) : List (Option F) :=
  stack.foldr (fun p frontier => if p.1 < depth then frontier.set p.1 (some p.2) else frontier) frontier

/-- `fromCommitments` -/
def fromCommitments (commitments : List String) : Except String (Obj F) :=
  if 2 ^ depth < commitments.length then
    .error ("members tree over capacity: " ++ toString commitments.length ++ " commitments for a depth-" ++ toString depth ++
      " tree (max " ++ toString (2 ^ depth) ++ ")")
  else match commitments.mapM (leaf H) with
    | none => .error "Cannot convert to a BigInt"
    | some leaves =>
      let stack := PaddedTree.stack H.hash leaves
      let frontier := writeStack depth stack (new H depth).frontier
      let n := commitments.length
      let top := if n = 2 ^ depth then stack.getLast?.map Prod.snd
        else foldLoop H depth 0 frontier (PaddedTree.zero H.hash (H.e 0) 0) n
      match top with
      | none => .error "TypeError"
      | some top => .ok ⟨commitments, none, frontier, top⟩

def size (o : Obj F) : Nat := o.commitments.length

def root (o : Obj F) : Nat := H.toObject o.top

/-- The levels over a level of `2^k` nodes, which halves `k` times. -/
def levelsFrom : Nat → List F → List (List F)
  | 0, level => [level]
  | k + 1, level => level :: levelsFrom k (PaddedTree.pairUp H.hash (H.e 0) level)

/-- `levels`; `none` when it throws. -/
def buildLevels (o : Obj F) : Option (List (List F)) × Obj F :=
  match o.levels with
  | some levels => (some levels, o)
  | none => match o.commitments.mapM (leaf H) with
    | none => (none, o)
    | some xs =>
      let levels := levelsFrom H depth (xs ++ .replicate (2 ^ depth - xs.length) (H.e 0))
      (some levels, { o with levels := some levels })

/-- `rootFromFullBuild` -/
def rootFromFullBuild (o : Obj F) : Option Nat × Obj F :=
  match buildLevels H depth o with
  | (some levels, o) => ((levels.getLast?.bind List.head?).map H.toObject, o)
  | (none, o) => (none, o)

/-- The loop of `pathFor` over the levels below the root. -/
def pathLoop : Nat → List (List F) → Nat → Option (List Nat × List Nat)
  | 0, _, _ => some ([], [])
  | _ + 1, [], _ => none
  | k + 1, level :: levels, idx => do
    let sibling ← level[idx ^^^ 1]?
    let (pathElements, pathIndices) ← pathLoop k levels (idx / 2)
    some (H.toObject sibling :: pathElements, idx % 2 :: pathIndices)

/-- `pathFor`: the siblings and the bits; `none` when it throws. -/
def pathFor (o : Obj F) (index : Nat) : Option (List Nat × List Nat) × Obj F :=
  match buildLevels H depth o with
  | (some levels, o) => (pathLoop H depth levels index, o)
  | (none, o) => (none, o)

end

end Obj

end Members
