import MnoVerify.MembersObject
import MnoVerify.NullifierStore

/-!
# The incremental members root

`incremental_root`: from a rebuild over any prefix and through any appends, the root that is kept is the root of the
full build; a call that throws leaves every field. The object stands for a `MembersTree` that carries its invariant,
and every method does to both what it does to one.
-/

namespace Members

/-! ## Commitments in canonical form -/

theorem hexVal_digit {c : Char} (h : c.isDigit = true) : Json.hexVal c = some (c.toNat - '0'.toNat) := by
  obtain ⟨h1, h2⟩ := Char.isDigit_iff_toNat.1 h
  unfold Json.hexVal
  exact if_pos ⟨h1, h2⟩

/-- Digits in base ten are read as their value. -/
theorem readDigits_digits {s : List Char} (hne : s ≠ []) (h : ∀ c ∈ s, c.isDigit = true) :
    readDigits 10 s = some (Field.value s : Nat) := by
  have hmap : s.mapM Json.hexVal = some (s.map fun c => c.toNat - '0'.toNat) := by
    clear hne
    induction s with
    | nil => rfl
    | cons c s ih =>
      rw [List.mapM_cons, hexVal_digit (h c (by simp)), ih fun d hd => h d (by simp [hd])]
      rfl
  have hall : (s.map fun c => c.toNat - '0'.toNat).all (fun v => decide (v < 10)) = true := by
    rw [List.all_map, List.all_eq_true]
    exact fun c hc => decide_eq_true (Field.digitChar_sub (h c hc)).2
  have hemp : (s.map fun c => c.toNat - '0'.toNat).isEmpty = false := by
    rw [List.isEmpty_map]
    exact List.isEmpty_eq_false_iff.2 hne
  unfold readDigits
  rw [hmap]
  dsimp only
  rw [hall, hemp, List.foldl_map]
  rfl

/-- `BigInt` of a decimal string is its value. -/
theorem bigInt_decimal {s : List Char} (h : Field.isDecimal s = true) : bigInt s = some (Field.value s : Nat) := by
  have hd := Field.isDigit_of_isDecimal h
  unfold bigInt
  rw [NullifierStore.trim_digits hd]
  unfold Field.isDecimal at h
  split at h
  · decide
  · rename_i c s _
    simp only [Bool.and_eq_true, bne_iff_ne] at h
    have hm : c ≠ '-' := fun e => by rw [e] at hd; exact absurd (hd '-' (by simp)) (by decide)
    have hp : c ≠ '+' := fun e => by rw [e] at hd; exact absurd (hd '+' (by simp)) (by decide)
    split
    · rename_i heq; cases heq
    · rename_i heq; cases heq; exact absurd rfl h.1.2
    · rename_i heq; cases heq; exact absurd rfl hm
    · rename_i heq; cases heq; exact absurd rfl hp
    · exact readDigits_digits (List.cons_ne_nil _ _) hd
  · cases h

theorem leaf_canonical {F : Type} (H : Poseidon F) {c : String} (h : Field.isCanonical c.toList = true) :
    leaf H c = some (H.e (Field.value c.toList : Nat)) := by
  rw [leaf, bigInt_decimal (Field.isDecimal_of_isCanonical h)]
  rfl

/-- `BigInt` reads every commitment of a list in canonical form. -/
theorem leaves_canonical {F : Type} (H : Poseidon F) {cs : List String} (h : ∀ c ∈ cs, Field.isCanonical c.toList = true) :
    cs.mapM (leaf H) = some (cs.map fun c => H.e (Field.value c.toList : Nat)) := by
  induction cs with
  | nil => rfl
  | cons c cs ih =>
    rw [List.mapM_cons, leaf_canonical H (h c (by simp)), ih fun d hd => h d (by simp [hd])]
    rfl

namespace Obj

/-! ## One insertion -/

section
variable {F : Type} {H : Poseidon F} {depth : Nat}

theorem read_set_self {frontier : List (Option F)} {l : Nat} (h : l < frontier.length) (a : F) :
    read (frontier.set l (some a)) l = some a := by
  rw [read, List.getElem?_set_self h]
  rfl

theorem read_set_of_ne {frontier : List (Option F)} {l m : Nat} (h : l ≠ m) (a : F) :
    read (frontier.set l (some a)) m = read frontier m := by
  rw [read, List.getElem?_set_ne h, read]

/-- One level halves the index. -/
theorem div_pow_succ (idx k : Nat) : idx / 2 / 2 ^ k = idx / 2 ^ (k + 1) := by
  rw [Nat.div_div_eq_div_mul, Nat.pow_succ, Nat.mul_comm]

/-- The loop of `#insert` climbs, where the entries it reads are those of `fr`. -/
theorem insertLoop_climb : ∀ (k l : Nat) (frontier : List (Option F)) (fr : Nat → F) (cur : F) (idx : Nat),
    l + k ≤ frontier.length →
    (∀ m < k, idx / 2 ^ m % 2 = 1 → read frontier (l + m) = some (fr (l + m))) →
    (insertLoop H k l frontier cur idx).2 = some (PaddedTree.climb H.hash (H.e 0) k l fr cur idx).2 ∧
      (insertLoop H k l frontier cur idx).1.length = frontier.length ∧
      (∀ m < k, idx / 2 ^ m % 2 = 0 → read (insertLoop H k l frontier cur idx).1 (l + m) =
        some ((PaddedTree.climb H.hash (H.e 0) k l fr cur idx).1 (l + m))) ∧
      ∀ m, (∀ j < k, m = l + j → idx / 2 ^ j % 2 = 1) →
        read (insertLoop H k l frontier cur idx).1 m = read frontier m ∧
          (PaddedTree.climb H.hash (H.e 0) k l fr cur idx).1 m = fr m := by
  intro k
  induction k with
  | zero => exact fun l frontier fr cur idx _ _ => ⟨rfl, rfl, fun m hm => by omega, fun m _ => ⟨rfl, rfl⟩⟩
  | succ k ih =>
    intro l frontier fr cur idx hlen hread
    rw [insertLoop, PaddedTree.climb]
    by_cases he : idx % 2 = 0
    -- a left child is written into the frontier at `l`, and nowhere below
    · rw [if_pos he, if_pos he]
      obtain ⟨htop, hlen', hset, hkeep⟩ := ih (l + 1) (frontier.set l (some cur)) (Function.update fr l cur)
        (H.hash cur (PaddedTree.zero H.hash (H.e 0) l)) (idx / 2) (by rw [List.length_set]; omega) (by
          intro m hm ho
          rw [div_pow_succ] at ho
          rw [read_set_of_ne (by omega), Function.update_of_ne (by omega), Nat.add_right_comm]
          exact hread (m + 1) (by omega) ho)
      have hself : ∀ j < k, l = l + 1 + j → idx / 2 / 2 ^ j % 2 = 1 := by
        intro j _ h; omega
      refine ⟨htop, by rw [hlen', List.length_set], fun m hm hz => ?_, fun m hm => ?_⟩
      · cases m with
        | zero =>
          obtain ⟨h1, h2⟩ := hkeep l hself
          simp only [Nat.add_zero]
          rw [h1, h2, read_set_self (by omega), Function.update_self]
        | succ m =>
          rw [← div_pow_succ] at hz
          have := hset m (by omega) hz
          rwa [Nat.add_right_comm] at this
      · have hml : m ≠ l := by
          intro h
          have := hm 0 (by omega) h
          rw [Nat.pow_zero, Nat.div_one] at this
          omega
        obtain ⟨h1, h2⟩ := hkeep m fun j hj hmj => by
          rw [div_pow_succ]
          exact hm (j + 1) (by omega) (by omega)
        rw [h1, h2, read_set_of_ne (Ne.symm hml), Function.update_of_ne hml]
        exact ⟨rfl, rfl⟩
    · rw [if_neg he, if_neg he]
      have hleft := hread 0 (by omega) (by rw [Nat.pow_zero, Nat.div_one]; omega)
      rw [Nat.add_zero] at hleft
      rw [hleft]
      dsimp only
      obtain ⟨htop, hlen', hset, hkeep⟩ := ih (l + 1) frontier fr (H.hash (fr l) cur) (idx / 2) (by omega) (by
        intro m hm ho
        rw [div_pow_succ] at ho
        rw [Nat.add_right_comm]
        exact hread (m + 1) (by omega) ho)
      refine ⟨htop, hlen', fun m hm hz => ?_, fun m hm => ?_⟩
      · cases m with
        | zero =>
          rw [Nat.pow_zero, Nat.div_one] at hz
          exact absurd hz he
        | succ m =>
          rw [← div_pow_succ] at hz
          have := hset m (by omega) hz
          rwa [Nat.add_right_comm] at this
      · exact hkeep m fun j hj hmj => by
          rw [div_pow_succ]
          exact hm (j + 1) (by omega) (by omega)

/-! ## What an object stands for -/

/-- The levels of the full build over the commitments. -/
def fullLevels (H : Poseidon F) (depth : Nat) (xs : List F) : List (List F) :=
  levelsFrom H depth (xs ++ .replicate (2 ^ depth - xs.length) (H.e 0))

/-- The object holds the tree: its frontier where the tree reads it, and a cache that is of these commitments. -/
structure Represents (o : Obj F) (t : MembersTree H depth) : Prop where
  commitments : o.commitments = t.commitments
  top : o.top = t.top
  length : o.frontier.length = depth
  frontier : ∀ l < depth, t.commitments.length / 2 ^ l % 2 = 1 → read o.frontier l = some (t.frontier l)
  levels : ∀ ls, o.levels = some ls → ∃ xs, t.commitments.mapM (leaf H) = some xs ∧ ls = fullLevels H depth xs

theorem append_some {t t' : MembersTree H depth} {c : String} (h : t.append c = some t') :
    t.commitments.length < 2 ^ depth ∧ ∃ x, leaf H c = some x ∧ t'.commitments = t.commitments ++ [c] ∧
      t'.frontier = (PaddedTree.climb H.hash (H.e 0) depth 0 t.frontier x t.commitments.length).1 ∧
      t'.top = (PaddedTree.climb H.hash (H.e 0) depth 0 t.frontier x t.commitments.length).2 := by
  unfold MembersTree.append at h
  split at h
  · rename_i hn
    split at h
    · cases h
    · rename_i x hx
      cases h
      exact ⟨hn, x, hx, rfl, rfl, rfl⟩
  · cases h

theorem append_none {t : MembersTree H depth} {c : String} (h : t.append c = none) :
    2 ^ depth ≤ t.commitments.length ∨ leaf H c = none := by
  unfold MembersTree.append at h
  split at h
  · split at h
    · exact .inr ‹_›
    · cases h
  · exact .inl (not_lt.1 ‹_›)

/-- An insertion that reads what the tree reads makes the tree's step. -/
theorem insert_climb {o : Obj F} {fr : Nat → F} {x : F} {n : Nat} (hlen : o.frontier.length = depth)
    (hread : ∀ l < depth, n / 2 ^ l % 2 = 1 → read o.frontier l = some (fr l)) :
    ∃ frontier, insert H depth o x n =
        (.ok (), { o with frontier := frontier, top := (PaddedTree.climb H.hash (H.e 0) depth 0 fr x n).2 }) ∧
      frontier.length = depth ∧ ∀ l < depth, (n + 1) / 2 ^ l % 2 = 1 →
        read frontier l = some ((PaddedTree.climb H.hash (H.e 0) depth 0 fr x n).1 l) := by
  obtain ⟨htop, hlen', hset, hkeep⟩ := insertLoop_climb (H := H) depth 0 o.frontier fr x n
    (by rw [hlen, Nat.zero_add]) fun m hm ho => by rw [Nat.zero_add]; exact hread m hm ho
  refine ⟨(insertLoop H depth 0 o.frontier x n).1, ?_, hlen'.trans hlen, fun l hl _ => ?_⟩
  · unfold insert
    split
    · rename_i frontier cur hloop
      rw [hloop] at htop ⊢
      cases htop
      rfl
    · rename_i frontier hloop
      rw [hloop] at htop
      cases htop
  · rcases Nat.mod_two_eq_zero_or_one (n / 2 ^ l) with hz | hz
    · have := hset l hl hz
      rwa [Nat.zero_add] at this
    · obtain ⟨h1, h2⟩ := hkeep l fun j _ hlj => by rw [show j = l by omega]; exact hz
      exact h1.trans ((hread l hl hz).trans (congrArg some h2.symm))

/-- An append that throws leaves the object, and one that does not appends to the tree. -/
theorem append_represents {o : Obj F} {t : MembersTree H depth} (h : Represents o t) (c : String) :
    (t.append c = none → ∃ e, append H depth o c = (.error e, o)) ∧
      ∀ t', t.append c = some t' →
        (append H depth o c).1 = .ok t.commitments.length ∧ Represents (append H depth o c).2 t' := by
  constructor
  · intro hnone
    unfold append full
    rw [h.commitments]
    rcases append_none hnone with hfull | hleaf
    · rw [if_pos (decide_eq_true hfull)]
      exact ⟨_, rfl⟩
    · split
      · exact ⟨_, rfl⟩
      · rw [hleaf]
        exact ⟨_, rfl⟩
  · intro t' hsome
    obtain ⟨hn, x, hx, hcs, hfr, htop⟩ := append_some hsome
    unfold append full
    rw [h.commitments, if_neg (by simpa using hn), hx]
    dsimp only
    obtain ⟨frontier, hins, hlen, hread⟩ := @insert_climb F H depth
      { o with commitments := t.commitments ++ [c], levels := none } t.frontier x _ h.length h.frontier
    rw [hins]
    refine ⟨rfl, hcs.symm, htop.symm, hlen, fun l hl ho => ?_, fun ls hls => by cases hls⟩
    rw [hcs, List.length_append, List.length_singleton] at ho
    rw [hfr]
    exact hread l hl ho

/-! ## The rebuild -/

theorem length_writeStack (stack : List (Nat × F)) (frontier : List (Option F)) :
    (writeStack depth stack frontier).length = frontier.length := by
  induction stack with
  | nil => rfl
  | cons p stack ih =>
    rw [writeStack, List.foldr_cons, ← writeStack]
    split
    · rw [List.length_set, ih]
    · exact ih

theorem read_writeStack {frontier : List (Option F)} (hlen : frontier.length = depth) {l : Nat} {a : F} (hl : l < depth) :
    ∀ {stack : List (Nat × F)}, stack.Pairwise (fun p q => p.1 < q.1) → (l, a) ∈ stack →
      read (writeStack depth stack frontier) l = some a := by
  intro stack
  induction stack with
  | nil => exact fun _ h => by cases h
  | cons p stack ih =>
    intro hp hmem
    obtain ⟨hhead, htail⟩ := List.pairwise_cons.1 hp
    rw [writeStack, List.foldr_cons, ← writeStack]
    rcases List.mem_cons.1 hmem with rfl | hmem
    · rw [if_pos hl, read_set_self (by rw [length_writeStack, hlen]; exact hl)]
    · have hne : p.1 ≠ l := Nat.ne_of_lt (hhead _ hmem)
      split
      · rw [read_set_of_ne hne]
        exact ih htail hmem
      · exact ih htail hmem

theorem foldLoop_foldUp : ∀ (k l : Nat) (frontier : List (Option F)) (fr : Nat → F) (cur : F) (n : Nat),
    (∀ m < k, n / 2 ^ m % 2 = 1 → read frontier (l + m) = some (fr (l + m))) →
    foldLoop H k l frontier cur n = some (PaddedTree.foldUp H.hash (H.e 0) k l fr cur n) := by
  intro k
  induction k with
  | zero => exact fun _ _ _ _ _ _ => rfl
  | succ k ih =>
    intro l frontier fr cur n hread
    have hrest : ∀ m < k, n / 2 / 2 ^ m % 2 = 1 → read frontier (l + 1 + m) = some (fr (l + 1 + m)) := by
      intro m hm ho
      rw [div_pow_succ] at ho
      rw [Nat.add_right_comm]
      exact hread (m + 1) (by omega) ho
    rw [foldLoop, PaddedTree.foldUp]
    by_cases ho : n % 2 = 1
    · have hleft := hread 0 (by omega) (by rw [Nat.pow_zero, Nat.div_one]; exact ho)
      rw [Nat.add_zero] at hleft
      rw [if_pos ho, if_pos ho, hleft]
      exact ih (l + 1) frontier fr _ (n / 2) hrest
    · rw [if_neg ho, if_neg ho]
      exact ih (l + 1) frontier fr _ (n / 2) hrest

theorem fromCommitments_some {cs : List String} {t : MembersTree H depth}
    (h : MembersTree.fromCommitments H depth cs = some t) : ∃ xs, cs.mapM (leaf H) = some xs ∧ xs.length ≤ 2 ^ depth ∧
      t.commitments = cs ∧ t.frontier = PaddedTree.frontierOf (H.e 0) depth (PaddedTree.stack H.hash xs) ∧
      t.top = MembersTree.topOf H depth xs := by
  unfold MembersTree.fromCommitments at h
  split at h
  · cases h
  · rename_i xs hxs
    split at h
    · cases h
      exact ⟨xs, hxs, ‹_›, rfl, rfl, rfl⟩
    · cases h

/-- A rebuild stands for the tree of its commitments. -/
theorem fromCommitments_represents {cs : List String} {t : MembersTree H depth}
    (h : MembersTree.fromCommitments H depth cs = some t) :
    ∃ o, fromCommitments H depth cs = .ok o ∧ Represents o t := by
  obtain ⟨xs, hxs, hle, hcs, hfr, htop⟩ := fromCommitments_some h
  have hlen : xs.length = cs.length := length_of_mapM hxs
  have hnew : (new H depth).frontier.length = depth := List.length_replicate
  have hstack := PaddedTree.stack_eq_blocks H.hash (H.e 0) xs
  have hpair : (PaddedTree.stack H.hash xs).Pairwise fun p q => p.1 < q.1 := by
    rw [hstack]; exact PaddedTree.blocks_pairwise H.hash _ 0
  -- wherever the count has a bit, the stack has a subtree, and both frontiers hold it
  have hread : ∀ l < depth, cs.length / 2 ^ l % 2 = 1 →
      read (writeStack depth (PaddedTree.stack H.hash xs) (new H depth).frontier) l = some (t.frontier l) := by
    intro l hl ho
    have hmem := PaddedTree.mem_blocks H.hash (g := PaddedTree.pad (H.e 0) xs) xs.length (Nat.zero_le l)
      (by rw [Nat.sub_zero, hlen]; exact ho)
    rw [← hstack] at hmem
    rw [read_writeStack hnew hl hpair hmem, hfr, PaddedTree.frontierOf_mem (H.e 0) hl hpair hmem]
  unfold fromCommitments
  rw [if_neg (by omega), hxs]
  dsimp only
  rw [← hlen]
  by_cases hfull : xs.length = 2 ^ depth
  · have hlast : (PaddedTree.stack H.hash xs).getLast?.map Prod.snd = some t.top := by
      rw [htop, MembersTree.topOf, if_pos hfull, PaddedTree.stack_full H.hash (H.e 0) hfull]
      rfl
    rw [if_pos hfull, hlast]
    refine ⟨_, rfl, hcs.symm, rfl, (length_writeStack _ _).trans hnew, ?_, fun ls hls => by cases hls⟩
    intro l hl ho
    exact hread l hl (by rw [← hcs]; exact ho)
  · rw [if_neg hfull, foldLoop_foldUp depth 0 _ t.frontier _ _ fun m hm ho => by
      rw [Nat.zero_add]; exact hread m hm (by rw [← hlen]; exact ho)]
    refine ⟨_, rfl, hcs.symm, ?_, (length_writeStack _ _).trans hnew, ?_, fun ls hls => by cases hls⟩
    · rw [htop, MembersTree.topOf, if_neg hfull, hfr]
      rfl
    · intro l hl ho
      exact hread l hl (by rw [← hcs]; exact ho)

/-! ## The full build -/

theorem levelsFrom_getLast : ∀ (k l : Nat) (xs : List F), xs.length = 2 ^ k →
    (levelsFrom H k xs).getLast? = some (PaddedTree.levelUp H.hash (H.e 0) l k xs) := by
  intro k
  induction k with
  | zero => exact fun _ _ _ => rfl
  | succ k ih =>
    intro l xs hlen
    have heven := PaddedTree.pairUp_even H.hash (H.e 0) (PaddedTree.zero H.hash (H.e 0) l) (n := 2 ^ k)
      (by rw [hlen, Nat.pow_succ, Nat.mul_comm])
    have hne : levelsFrom H k (PaddedTree.pairUp H.hash (H.e 0) xs) ≠ [] := by
      cases k <;> exact List.cons_ne_nil _ _
    rw [levelsFrom, List.getLast?_cons_of_ne_nil hne, PaddedTree.levelUp, ← heven.1]
    exact ih (l + 1) _ heven.2

theorem buildLevels_represents {o : Obj F} {t : MembersTree H depth} (h : Represents o t) :
    (∃ xs, t.commitments.mapM (leaf H) = some xs ∧ (buildLevels H depth o).1 = some (fullLevels H depth xs)) ∧
      Represents (buildLevels H depth o).2 t := by
  obtain ⟨xs, hxs, -⟩ := t.maintained
  unfold buildLevels
  split
  · rename_i levels hlevels
    obtain ⟨xs', hxs', rfl⟩ := h.levels levels hlevels
    exact ⟨⟨xs', hxs', rfl⟩, h⟩
  · have hobj : o.commitments.mapM (leaf H) = some xs := by rw [h.commitments]; exact hxs
    rw [hobj]
    refine ⟨⟨xs, hxs, rfl⟩, h.commitments, h.top, h.length, h.frontier, fun ls hls => ?_⟩
    cases hls
    exact ⟨xs, hxs, rfl⟩

/-- The full build gives the root that is kept. -/
theorem rootFromFullBuild_represents {o : Obj F} {t : MembersTree H depth} (h : Represents o t) :
    (rootFromFullBuild H depth o).1 = some (root H o) ∧ Represents (rootFromFullBuild H depth o).2 t := by
  obtain ⟨⟨xs, hxs, hlevels⟩, hrep⟩ := buildLevels_represents h
  have hfull := t.root_eq_fullBuild
  rw [Members.rootFromFullBuild, hxs, Option.bind_some] at hfull
  have hle : xs.length ≤ 2 ^ depth := by
    rw [length_of_mapM hxs]; exact t.size_le_capacity
  have hlen : (xs ++ List.replicate (2 ^ depth - xs.length) (H.e 0)).length = 2 ^ depth := by
    rw [List.length_append, List.length_replicate]; omega
  unfold rootFromFullBuild
  split
  · rename_i levels o' hb
    rw [hb] at hlevels hrep
    cases hlevels
    refine ⟨?_, hrep⟩
    rw [fullLevels, levelsFrom_getLast depth 0 _ hlen, Option.bind_some, hfull, root, h.top, MembersTree.root]
  · rename_i o' hb
    rw [hb] at hlevels
    cases hlevels

/-! ## Runs -/

inductive Call
  | append (commitmentDec : String)
  | rootFromFullBuild
  | pathFor (index : Nat)

/-- The object after a call, whether it throws or not. -/
def step (H : Poseidon F) (depth : Nat) (o : Obj F) : Call → Obj F
  | .append c => (append H depth o c).2
  | .rootFromFullBuild => (rootFromFullBuild H depth o).2
  | .pathFor index => (pathFor H depth o index).2

def run (H : Poseidon F) (depth : Nat) (o : Obj F) (calls : List Call) : Obj F := calls.foldl (step H depth) o

/-- The commitments after the calls: those that a tree with room for them can read. -/
def given (H : Poseidon F) (depth : Nat) : List String → List Call → List String
  | cs, [] => cs
  | cs, .append c :: calls =>
    given H depth (if cs.length < 2 ^ depth ∧ (leaf H c).isSome then cs ++ [c] else cs) calls
  | cs, _ :: calls => given H depth cs calls

theorem pathFor_represents {o : Obj F} {t : MembersTree H depth} (h : Represents o t) (index : Nat) :
    Represents (pathFor H depth o index).2 t := by
  have hrep := (buildLevels_represents h).2
  unfold pathFor
  split
  · rename_i hb
    rw [hb] at hrep
    exact hrep
  · rename_i hb
    rw [hb] at hrep
    exact hrep

theorem append_isSome {t : MembersTree H depth} {c : String} :
    (t.append c).isSome = true ↔ t.commitments.length < 2 ^ depth ∧ (leaf H c).isSome = true := by
  cases h : t.append c with
  | none =>
    rcases append_none h with hfull | hleaf
    · simp only [Option.isSome_none, Bool.false_eq_true, false_iff, not_and]
      intro hlt
      omega
    · simp [hleaf]
  | some t' =>
    obtain ⟨hlt, x, hx, -⟩ := append_some h
    simp [hlt, hx]

theorem run_represents : ∀ {calls : List Call} {o : Obj F} {t : MembersTree H depth}, Represents o t →
    ∃ t' : MembersTree H depth, Represents (run H depth o calls) t' ∧ t'.commitments = given H depth t.commitments calls := by
  intro calls
  induction calls with
  | nil => exact fun {o t} h => ⟨t, h, rfl⟩
  | cons call calls ih =>
    intro o t h
    cases call with
    | append c =>
      rw [given]
      cases hc : t.append c with
      | none =>
        obtain ⟨e, he⟩ := (append_represents h c).1 hc
        have hno : ¬ (t.commitments.length < 2 ^ depth ∧ (leaf H c).isSome = true) := by
          rw [← append_isSome, hc]; exact Bool.false_ne_true
        rw [if_neg hno]
        apply ih
        show Represents (append H depth o c).2 t
        rw [he]; exact h
      | some t' =>
        obtain ⟨-, hrep⟩ := (append_represents h c).2 t' hc
        have hyes : t.commitments.length < 2 ^ depth ∧ (leaf H c).isSome = true := by
          rw [← append_isSome, hc]; rfl
        rw [if_pos hyes, ← (append_some hc).2.choose_spec.2.1]
        exact ih hrep
    | rootFromFullBuild => exact ih (rootFromFullBuild_represents h).2
    | pathFor index => exact ih (pathFor_represents h index)

theorem fromCommitments_canonical {cs : List String} (h : ∀ c ∈ cs, Field.isCanonical c.toList = true)
    (hle : cs.length ≤ 2 ^ depth) : ∃ t, MembersTree.fromCommitments H depth cs = some t := by
  have hxs := leaves_canonical H h
  unfold MembersTree.fromCommitments
  split
  · rename_i hnone
    rw [hxs] at hnone
    cases hnone
  · rename_i xs hsome
    rw [dif_pos (by rw [length_of_mapM hsome]; exact hle)]
    exact ⟨_, rfl⟩

/-- Commitments in canonical form that fit are all given. -/
theorem given_appends : ∀ {rest cs : List String}, (∀ c ∈ rest, Field.isCanonical c.toList = true) →
    cs.length + rest.length ≤ 2 ^ depth → given H depth cs (rest.map .append) = cs ++ rest := by
  intro rest
  induction rest with
  | nil => exact fun _ _ => (List.append_nil _).symm
  | cons c rest ih =>
    intro cs h hle
    rw [List.length_cons] at hle
    have hroom : cs.length < 2 ^ depth ∧ (leaf H c).isSome = true := by
      rw [leaf_canonical H (h c (by simp))]
      exact ⟨by omega, rfl⟩
    rw [List.map_cons, given, if_pos hroom, ih (fun d hd => h d (by simp [hd])) (by
      rw [List.length_append, List.length_singleton]; omega), List.append_assoc, List.singleton_append]

/-- The objects that a program can hold. -/
inductive Reachable (H : Poseidon F) (depth : Nat) : Obj F → Prop
  | created : Reachable H depth (new H depth)
  | rebuilt {cs : List String} {o : Obj F} (h : fromCommitments H depth cs = .ok o) : Reachable H depth o
  | called {o : Obj F} (call : Call) (h : Reachable H depth o) : Reachable H depth (step H depth o call)

theorem new_represents : ∃ t : MembersTree H depth, Represents (new H depth) t := by
  obtain ⟨t, ht⟩ := @fromCommitments_canonical F H depth [] nofun (Nat.zero_le _)
  have hcs : t.commitments = [] := MembersTree.fromCommitments_commitments ht
  obtain ⟨xs, -, hlen, -, -, htop⟩ := t.maintained
  rw [hcs] at hlen
  refine ⟨t, hcs.symm, ?_, List.length_replicate, fun l _ ho => ?_, fun ls hls => by cases hls⟩
  · rw [htop, List.eq_nil_of_length_eq_zero hlen, rootOf, PaddedTree.root_nil]
    rfl
  · rw [hcs, List.length_nil, Nat.zero_div] at ho
    cases ho

theorem Reachable.represents {o : Obj F} (h : Reachable H depth o) : ∃ t : MembersTree H depth, Represents o t := by
  induction h with
  | created => exact new_represents
  | @rebuilt cs o h =>
    have hsome : ∃ t, MembersTree.fromCommitments H depth cs = some t := by
      unfold fromCommitments at h
      split at h
      · cases h
      · split at h
        · cases h
        · rename_i hle xs hxs
          unfold MembersTree.fromCommitments
          split
          · rename_i hnone
            rw [hxs] at hnone
            cases hnone
          · rename_i ys hys
            rw [dif_pos (by rw [length_of_mapM hys]; omega)]
            exact ⟨_, rfl⟩
    obtain ⟨t, ht⟩ := hsome
    obtain ⟨o', ho', hrep⟩ := fromCommitments_represents ht
    rw [h, Except.ok.injEq] at ho'
    exact ⟨t, ho' ▸ hrep⟩
  | called call _ ih =>
    obtain ⟨t, hrep⟩ := ih
    obtain ⟨t', hrep', -⟩ := @run_represents F H depth [call] _ t hrep
    exact ⟨t', hrep'⟩

/-- What holds of an object: the root that is kept is the full build's, and an append either throws, when the tree is
full or the value is no integer, and leaves every field, or is the next index. -/
structure Coherent (H : Poseidon F) (depth : Nat) (o : Obj F) : Prop where
  root : (rootFromFullBuild H depth o).1 = some (o.root H)
  rebuilt : Members.rootFromFullBuild H depth o.commitments = some (o.root H)
  throws : ∀ c, full depth o = true ∨ leaf H c = none → ∃ e, append H depth o c = (.error e, o)
  appends : ∀ c, full depth o = false → leaf H c ≠ none → (append H depth o c).1 = .ok (size o)

theorem coherent {o : Obj F} {t : MembersTree H depth} (h : Represents o t) : Coherent H depth o := by
  refine ⟨(rootFromFullBuild_represents h).1, ?_, fun c hc => ?_, fun c hroom hc => ?_⟩
  · rw [h.commitments, t.root_eq_fullBuild, root, h.top, MembersTree.root]
  · apply (append_represents h c).1
    cases hcase : t.append c with
    | none => rfl
    | some t' =>
      obtain ⟨hlt, x, hx, -⟩ := append_some hcase
      rcases hc with hfull | hnone
      · rw [full, h.commitments, decide_eq_true_eq] at hfull
        omega
      · rw [hnone] at hx
        cases hx
  · rw [full, h.commitments, decide_eq_false_iff_not, not_le] at hroom
    cases hcase : t.append c with
    | none =>
      rcases append_none hcase with hfull | hnone
      · omega
      · exact absurd hnone hc
    | some t' =>
      rw [((append_represents h c).2 t' hcase).1, size, h.commitments]

/-- From a rebuild over a prefix and through any calls, failing ones among them, the root is the full build's. -/
theorem incremental_root (H : Poseidon F) (depth : Nat) (cs : List String)
    (h : ∀ c ∈ cs, Field.isCanonical c.toList = true) (hle : cs.length ≤ 2 ^ depth) :
    ∃ o, fromCommitments H depth cs = .ok o ∧
      (∀ calls, Coherent H depth (run H depth o calls) ∧
        (run H depth o calls).commitments = given H depth cs calls ∧
        size (run H depth o calls) = (given H depth cs calls).length) ∧
      ∀ rest, (∀ c ∈ rest, Field.isCanonical c.toList = true) → cs.length + rest.length ≤ 2 ^ depth →
        (run H depth o (rest.map .append)).commitments = cs ++ rest ∧
          size (run H depth o (rest.map .append)) = cs.length + rest.length := by
  obtain ⟨t, ht⟩ := @fromCommitments_canonical F H depth cs h hle
  obtain ⟨o, ho, hrep⟩ := fromCommitments_represents ht
  have hcs : t.commitments = cs := MembersTree.fromCommitments_commitments ht
  have hrun : ∀ calls, Coherent H depth (run H depth o calls) ∧
      (run H depth o calls).commitments = given H depth cs calls := by
    intro calls
    obtain ⟨t', hrep', hgiven⟩ := @run_represents F H depth calls o t hrep
    refine ⟨coherent hrep', ?_⟩
    rw [hrep'.commitments, hgiven, hcs]
  refine ⟨o, ho, fun calls => ⟨(hrun calls).1, (hrun calls).2, ?_⟩, fun rest hrest hroom => ?_⟩
  · rw [size, (hrun calls).2]
  · have hall := (hrun (rest.map .append)).2
    rw [given_appends hrest hroom] at hall
    rw [size, hall, List.length_append]
    exact ⟨rfl, rfl⟩

/-- A hash to evaluate with. -/
def toy : Poseidon Nat := ⟨Int.toNat, fun a b => 2 * a + 3 * b + 1, id⟩

theorem incremental_root_three :
    (∀ c ∈ ["5", "0"], Field.isCanonical c.toList = true) ∧ ["5", "0"].length ≤ 2 ^ 2 ∧
      ∃ o, fromCommitments toy 2 ["5", "0"] = .ok o ∧
        (run toy 2 o [.append "7", .append "x", .append "9", .append "1"]).commitments = ["5", "0", "7", "9"] ∧
        Coherent toy 2 (run toy 2 o [.append "7", .append "x", .append "9", .append "1"]) := by
  obtain ⟨o, ho, hrun, -⟩ := incremental_root toy 2 ["5", "0"] (by decide) (by decide)
  refine ⟨by decide, by decide, o, ho, ?_, (hrun _).1⟩
  rw [(hrun _).2.1]
  decide

end

end Obj

end Members
