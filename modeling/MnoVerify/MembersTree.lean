import MnoVerify.Coerce
import MnoVerify.PaddedTree
import Mathlib.Data.List.Sort

/-!
# The members tree and its root window

`core/members_tree.js` and the `RootStore` of `core/stores.js`. The hash of the
circuits is a parameter. A tree carries that its root is the padded root of its
commitments, so `append` and `fromCommitments` build nothing else.
-/

namespace Members

/-- Poseidon: how an integer enters the field, the hash of two elements, and an element's integer. -/
structure Poseidon (F : Type) where
  e : Int → F
  hash : F → F → F
  toObject : F → Nat

/-- Digits in base `b`, if there are any. -/
def readDigits (b : Nat) (ds : List Char) : Option Int :=
  match ds.mapM Json.hexVal with
  | some vs => if !vs.isEmpty && vs.all (fun v => decide (v < b)) then some (vs.foldl (fun n v => b * n + v) 0 : Nat) else none
  | none => none

/-- `BigInt(s)` of a string; none when it throws. -/
def bigInt (s : List Char) : Option Int :=
  match Js.trim s with
  | [] => some 0
  | '0' :: x :: ds =>
    if x = 'x' ∨ x = 'X' then readDigits 16 ds
    else if x = 'o' ∨ x = 'O' then readDigits 8 ds
    else if x = 'b' ∨ x = 'B' then readDigits 2 ds
    else readDigits 10 ('0' :: x :: ds)
  | '-' :: ds => (readDigits 10 ds).map (- ·)
  | '+' :: ds => readDigits 10 ds
  | ds => readDigits 10 ds

example : bigInt "042".toList = some 42 ∧ bigInt "-7".toList = some (-7) ∧ bigInt "4.2".toList = none := by decide

def TREE_DEPTH : Nat := 16

section
variable {F : Type} (H : Poseidon F)

/-- `F.e(BigInt(c))` -/
def leaf (c : String) : Option F := (bigInt c.toList).map H.e

def rootOf (depth : Nat) (xs : List F) : F := PaddedTree.root H.hash (H.e 0) depth xs

/-- The root of a list of commitments, every level built over the padded leaves. -/
def rootFromFullBuild (depth : Nat) (commitments : List String) : Option Nat :=
  (commitments.mapM (leaf H)).bind fun xs =>
    (PaddedTree.levelUp H.hash (H.e 0) 0 depth (xs ++ .replicate (2 ^ depth - xs.length) (H.e 0))).head?.map H.toObject

/-- What `_frontier` and `_root` hold beside the commitments. -/
def Maintained (depth : Nat) (commitments : List String) (frontier : Nat → F) (top : F) : Prop :=
  ∃ xs, commitments.mapM (leaf H) = some xs ∧ xs.length = commitments.length ∧ xs.length ≤ 2 ^ depth ∧
    PaddedTree.Frontier H.hash depth frontier (PaddedTree.pad (H.e 0) xs) xs.length ∧ top = rootOf H depth xs

structure MembersTree (depth : Nat) where
  commitments : List String
  frontier : Nat → F
  /-- `_root` -/
  top : F
  maintained : Maintained H depth commitments frontier top

theorem mapM_append_singleton {α β : Type} {f : α → Option β} {l : List α} {xs : List β} {a : α} {b : β}
    (h : l.mapM f = some xs) (ha : f a = some b) : (l ++ [a]).mapM f = some (xs ++ [b]) := by
  rw [List.mapM_append, h, List.mapM_cons, ha, List.mapM_nil]; rfl

theorem length_of_mapM {α β : Type} {f : α → Option β} : ∀ {l : List α} {xs : List β},
    l.mapM f = some xs → xs.length = l.length
  | [], xs, h => by rw [List.mapM_nil] at h; cases h; rfl
  | a :: l, xs, h => by
    rw [List.mapM_cons] at h
    cases ha : f a with
    | none => rw [ha] at h; cases h
    | some b =>
      cases hl : l.mapM f with
      | none => rw [ha, hl] at h; cases h
      | some ys =>
        rw [ha, hl] at h; cases h
        simp [length_of_mapM hl]

namespace MembersTree
variable {H} {depth : Nat}

def size (t : MembersTree H depth) : Nat := t.commitments.length

def capacity (_ : MembersTree H depth) : Nat := 2 ^ depth

def full (t : MembersTree H depth) : Bool := decide (t.capacity ≤ t.size)

def root (t : MembersTree H depth) : Nat := H.toObject t.top

theorem maintained_append {cs : List String} {fr : Nat → F} {top : F} (h : Maintained H depth cs fr top)
    (hn : cs.length < 2 ^ depth) {c : String} {x : F} (hx : leaf H c = some x) :
    Maintained H depth (cs ++ [c]) (PaddedTree.climb H.hash (H.e 0) depth 0 fr x cs.length).1
      (PaddedTree.climb H.hash (H.e 0) depth 0 fr x cs.length).2 := by
  obtain ⟨xs, hxs, hlen, -, hfr, -⟩ := h
  rw [← hlen] at hn ⊢
  obtain ⟨h1, h2⟩ := PaddedTree.climb_insert H.hash (H.e 0) x hfr hn
  exact ⟨xs ++ [x], mapM_append_singleton hxs hx, by simp [hlen], by simp; omega, h2, h1⟩

/-- `append`; none when it throws, at capacity or on a commitment that is no integer. -/
def append (t : MembersTree H depth) (c : String) : Option (MembersTree H depth) :=
  if hn : t.commitments.length < 2 ^ depth then
    match hx : leaf H c with
    | none => none
    | some x =>
      let r := PaddedTree.climb H.hash (H.e 0) depth 0 t.frontier x t.commitments.length
      some ⟨t.commitments ++ [c], r.1, r.2, maintained_append t.maintained hn hx⟩
  else none

/-- `_root` of a rebuild, from its carry stack. -/
def topOf (H : Poseidon F) (depth : Nat) (xs : List F) : F :=
  let stack := PaddedTree.stack H.hash xs
  if xs.length = 2 ^ depth then (stack.getLast?.map Prod.snd).getD (H.e 0)
  else PaddedTree.foldUp H.hash (H.e 0) depth 0 (PaddedTree.frontierOf (H.e 0) depth stack) (H.e 0) xs.length

theorem maintained_rebuild {cs : List String} {xs : List F} (hxs : cs.mapM (leaf H) = some xs)
    (hn : xs.length ≤ 2 ^ depth) :
    Maintained H depth cs (PaddedTree.frontierOf (H.e 0) depth (PaddedTree.stack H.hash xs)) (topOf H depth xs) := by
  refine ⟨xs, hxs, length_of_mapM hxs, hn, PaddedTree.frontier_of_stack H.hash (H.e 0) depth xs, ?_⟩
  rw [topOf]
  by_cases h : xs.length = 2 ^ depth
  · rw [if_pos h, PaddedTree.stack_full H.hash (H.e 0) h]; rfl
  · rw [if_neg h]
    exact PaddedTree.foldUp_frontier H.hash (H.e 0) (PaddedTree.frontier_of_stack H.hash (H.e 0) depth xs) (by omega)

/-- `fromCommitments`; none when it throws, over capacity or on a commitment that is no integer. -/
def fromCommitments (H : Poseidon F) (depth : Nat) (cs : List String) : Option (MembersTree H depth) :=
  match hxs : cs.mapM (leaf H) with
  | none => none
  | some xs =>
    if hn : xs.length ≤ 2 ^ depth then some ⟨cs, _, _, maintained_rebuild hxs hn⟩ else none

theorem append_commitments {t t' : MembersTree H depth} {c : String} (h : t.append c = some t') :
    t'.commitments = t.commitments ++ [c] := by
  unfold append at h
  split at h
  · split at h
    · cases h
    · cases h; rfl
  · cases h

theorem fromCommitments_commitments {cs : List String} {t : MembersTree H depth}
    (h : fromCommitments H depth cs = some t) : t.commitments = cs := by
  unfold fromCommitments at h
  split at h
  · cases h
  · split at h
    · cases h; rfl
    · cases h

theorem size_le_capacity (t : MembersTree H depth) : t.commitments.length ≤ 2 ^ depth := by
  obtain ⟨xs, -, hlen, hle, -⟩ := t.maintained
  omega

theorem pad_replicate (z : F) (xs : List F) (n i : Nat) :
    PaddedTree.pad z (xs ++ .replicate n z) i = PaddedTree.pad z xs i := by
  by_cases h : i < xs.length
  · exact PaddedTree.pad_append_lt z _ h
  · have hle : xs.length ≤ i := Nat.le_of_not_lt h
    rw [PaddedTree.pad_of_le z hle, PaddedTree.pad, List.getElem?_append_right (by omega),
      List.getElem?_replicate]
    split <;> rfl

/-- The root that is maintained is the root of a full build. -/
theorem root_eq_fullBuild (t : MembersTree H depth) : rootFromFullBuild H depth t.commitments = some t.root := by
  obtain ⟨xs, hxs, -, hle, -, htop⟩ := t.maintained
  have hp := Nat.two_pow_pos depth
  have hne : xs ++ List.replicate (2 ^ depth - xs.length) (H.e 0) ≠ [] := by
    intro h
    have := congrArg List.length h
    rw [List.length_append, List.length_replicate, List.length_nil] at this
    omega
  rw [rootFromFullBuild, hxs, Option.bind_some, PaddedTree.levelUp_head H.hash (H.e 0) hne, Option.map_some, root, htop,
    rootOf, PaddedTree.root, PaddedTree.root]
  rw [PaddedTree.node_congr H.hash fun j _ _ => pad_replicate (H.e 0) xs _ j]

end MembersTree

end

/-! ## The root window -/

structure RootEntry where
  height : Nat
  root : Nat
  ts : Int
deriving DecidableEq

structure RootStore where
  window : Nat
  roots : List RootEntry := []

namespace RootStore

/-- `byHeight.set(r.height, r)`, on the values in the map's order. -/
def setByHeight (roots : List RootEntry) (r : RootEntry) : List RootEntry :=
  if roots.any (fun x => decide (x.height = r.height)) then roots.map fun x => if x.height = r.height then r else x
  else roots ++ [r]

/-- `slice(-window)` -/
def sliceLast (window : Nat) (l : List RootEntry) : List RootEntry :=
  if window = 0 then l else l.drop (l.length - window)

def update (s : RootStore) (list : List RootEntry) : RootStore :=
  { s with roots := sliceLast s.window ((list.foldl setByHeight s.roots).insertionSort fun a b => a.height ≤ b.height) }

def current (s : RootStore) : Option RootEntry := s.roots.getLast?

def isRecent (s : RootStore) (root : Nat) : Bool := s.roots.any fun r => decide (r.root = root)

/-- Roots in order of height, none above `h`. -/
def UpTo (s : RootStore) (h : Nat) : Prop := (s.roots.Pairwise fun a b => a.height < b.height) ∧ ∀ r ∈ s.roots, r.height ≤ h

theorem upTo_nil (window h : Nat) : UpTo ⟨window, []⟩ h := ⟨.nil, by simp⟩

theorem UpTo.mono {s : RootStore} {h h' : Nat} (hs : s.UpTo h) (hle : h ≤ h') : s.UpTo h' :=
  ⟨hs.1, fun r hr => Nat.le_trans (hs.2 r hr) hle⟩

/-- A root at the top of the window takes its last place. -/
theorem setByHeight_top {roots : List RootEntry} {r : RootEntry} (hp : roots.Pairwise fun a b => a.height < b.height)
    (hle : ∀ x ∈ roots, x.height ≤ r.height) :
    ∃ l, setByHeight roots r = l ++ [r] ∧ (l ++ [r]).Pairwise fun a b => a.height < b.height := by
  have hpair : ∀ l : List RootEntry, (l.Pairwise fun a b => a.height < b.height) → (∀ x ∈ l, x.height < r.height) →
      (l ++ [r]).Pairwise fun a b => a.height < b.height := fun l h1 h2 =>
    List.pairwise_append.2 ⟨h1, List.pairwise_singleton _ _, fun a ha b hb => by rw [List.mem_singleton.1 hb]; exact h2 a ha⟩
  rcases List.eq_nil_or_concat roots with rfl | ⟨l, x, rfl⟩
  · exact ⟨[], rfl, hpair [] .nil (by simp)⟩
  rw [List.concat_eq_append] at hp hle ⊢
  obtain ⟨hl, -, hlx⟩ := List.pairwise_append.1 hp
  have hxr := hle x (by simp)
  have hlt : ∀ y ∈ l, y.height < x.height := fun y hy => hlx y hy x (by simp)
  by_cases h : x.height = r.height
  · refine ⟨l, ?_, hpair l hl fun y hy => h ▸ hlt y hy⟩
    have hmap : l.map (fun y => if y.height = r.height then r else y) = l := by
      conv_rhs => rw [← List.map_id l]
      apply List.map_congr_left
      intro y hy
      rw [if_neg (by have := hlt y hy; omega), id]
    simp [setByHeight, h, hmap]
  · refine ⟨l ++ [x], ?_, hpair _ hp fun y hy => ?_⟩
    · have hany : (l ++ [x]).any (fun y => decide (y.height = r.height)) = false := by
        rw [List.any_eq_false]
        intro y hy
        have : y.height ≤ x.height := by
          rcases List.mem_append.1 hy with hy | hy
          · exact Nat.le_of_lt (hlt y hy)
          · rw [List.mem_singleton.1 hy]
        simpa using by omega
      rw [setByHeight, hany]; rfl
    · rcases List.mem_append.1 hy with hy | hy
      · have := hlt y hy; omega
      · rw [List.mem_singleton.1 hy]; omega

theorem sliceLast_suffix (window : Nat) (l : List RootEntry) : sliceLast window l <:+ l := by
  unfold sliceLast
  split
  · exact List.suffix_refl l
  · exact List.drop_suffix _ l

theorem sliceLast_getLast? (window : Nat) (l : List RootEntry) (r : RootEntry) :
    (sliceLast window (l ++ [r])).getLast? = some r := by
  unfold sliceLast
  split
  · simp
  · rename_i h
    rw [List.drop_append_of_le_length (by simp; omega)]; simp

/-- What an update with one root, none higher in the window, leaves. -/
theorem update_top {s : RootStore} {r : RootEntry} (hs : s.UpTo r.height) :
    (s.update [r]).current = some r ∧ (s.update [r]).UpTo r.height := by
  obtain ⟨l, hl, hp⟩ := setByHeight_top hs.1 hs.2
  have hsort : (l ++ [r]).insertionSort (fun a b => a.height ≤ b.height) = l ++ [r] :=
    List.Pairwise.insertionSort_eq (hp.imp fun h => Nat.le_of_lt h)
  have hle : ∀ x ∈ l ++ [r], x.height ≤ r.height := by
    intro x hx
    rcases List.mem_append.1 hx with hx | hx
    · exact Nat.le_of_lt ((List.pairwise_append.1 hp).2.2 x hx r (by simp))
    · rw [List.mem_singleton.1 hx]
  have hu : (s.update [r]).roots = sliceLast s.window (l ++ [r]) := by
    rw [update, List.foldl_cons, List.foldl_nil, hl, hsort]
  refine ⟨by rw [current, hu, sliceLast_getLast?], ?_, fun x hx => ?_⟩
  · rw [hu]; exact hp.sublist (sliceLast_suffix _ _).sublist
  · rw [hu] at hx; exact hle x ((sliceLast_suffix _ _).subset hx)

end RootStore

end Members
