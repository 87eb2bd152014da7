import MnoVerify.Assoc
import MnoVerify.Coerce
import MnoVerify.Field

/-!
# The nullifier stores

`NullifierStore` of `core/stores.js` and `SqliteNullifierStore` of
`core/nullifier_sqlite.js`. Both record which account claimed a spent tag. `holder_add`
and `holder_prune` say what they do to the claim on a tag, whichever of the two it is.
-/

/-- A public signal that passed `isCanonicalField`. -/
@[ext]
structure Element where
  text : String
  canonical : Field.isCanonical text.toList = true
deriving DecidableEq

namespace Element

def value (e : Element) : Nat := Field.value e.text.toList

/-- The same field element. -/
def FieldEq (a b : Element) : Prop := a.value % Field.FIELD_PRIME = b.value % Field.FIELD_PRIME

theorem eq_of_fieldEq {a b : Element} (h : FieldEq a b) : a = b := by
  have hv : a.value = b.value := by
    rwa [FieldEq, value, value, Nat.mod_eq_of_lt (Field.value_lt_of_isCanonical a.canonical),
      Nat.mod_eq_of_lt (Field.value_lt_of_isCanonical b.canonical)] at h
  exact Element.ext (String.toList_inj.1
    (Field.value_inj (Field.isDecimal_of_isCanonical a.canonical) (Field.isDecimal_of_isCanonical b.canonical) hv))

theorem isDigit (e : Element) : ∀ c ∈ e.text.toList, c.isDigit = true :=
  Field.isDigit_of_isDecimal (Field.isDecimal_of_isCanonical e.canonical)

theorem colon_notMem (e : Element) : ':' ∉ e.text.toList := fun h => by
  have := e.isDigit ':' h
  revert this; decide

theorem ext_toList {a b : Element} (h : a.text.toList = b.text.toList) : a = b := Element.ext (String.toList_inj.1 h)

end Element

/-- What one voting key spends in an epoch and a context. -/
@[ext]
structure Tag where
  epoch : Element
  contextHash : Element
  nullifier : Element
deriving DecidableEq

/-- The account of a claim record. -/
inductive Account
  | undefined
  | null
  | text (s : String)
deriving DecidableEq

/-- `String(prior.account)` -/
def Account.toStr : Account → String
  | undefined => "undefined"
  | null => "null"
  | text s => s

/-- The primary key of the table `claims`. -/
@[ext]
structure PrimaryKey where
  epoch : String
  context : String
  nf : String
deriving DecidableEq

inductive NullifierStore
  | memory (claims : List (String × Account))
  /-- The column `account` of each row. -/
  | sqlite (rows : List (PrimaryKey × Option String))

def parseSign : List Char → Bool × List Char
  | '-' :: s => (true, s)
  | '+' :: s => (false, s)
  | s => (false, s)

/-- `Number.parseInt(s, 10)`, if it is a number. -/
def parseInt (s : List Char) : Option Int :=
  let s := parseSign (s.dropWhile Js.isSpace)
  let ds := s.2.takeWhile Char.isDigit
  if ds.isEmpty then none else some ((if s.1 then -1 else 1) * (Field.value ds : Int))

namespace NullifierStore

/-- `#key` of the store in memory. -/
def key (epoch contextHash nf : String) : String :=
  String.ofList (epoch.toList ++ ':' :: (contextHash.toList ++ ':' :: nf.toList))

/-- `get`; a null account column reads back as null. -/
def get (s : NullifierStore) (epoch contextHash nf : String) : Option Account :=
  match s with
  | memory claims => claims.lookup (key epoch contextHash nf)
  | sqlite rows => (rows.lookup ⟨epoch, contextHash, nf⟩).map fun account => match account with
    | some a => .text a
    | none => .null

def has (s : NullifierStore) (epoch contextHash nf : String) : Bool :=
  match s with
  | memory claims => (claims.lookup (key epoch contextHash nf)).isSome
  | sqlite rows => (rows.lookup ⟨epoch, contextHash, nf⟩).isSome

/-- `add`: whether the tag was spent before, and the store with it spent. The insert
of the table is `ON CONFLICT DO NOTHING`. -/
def add (s : NullifierStore) (epoch contextHash nf account : String) : Bool × NullifierStore :=
  match s with
  | memory claims =>
    let (duplicate, claims) := Assoc.addNew claims (key epoch contextHash nf) (.text account)
    (duplicate, memory claims)
  | sqlite rows =>
    let (duplicate, rows) := Assoc.addNew rows ⟨epoch, contextHash, nf⟩ (some account)
    (duplicate, sqlite rows)

/-- The column `epoch_n`, which `add` writes from the epoch. -/
def epoch_n (epoch : String) : Int := (parseInt epoch.toList).getD 0

/-- The epoch below which `prune(minEpoch)` drops claims. -/
def cutoff (s : NullifierStore) (minEpoch : Js.Num) : Option ℚ :=
  match s with
  | memory _ => match minEpoch with
    | .dec d => some d.toRat
    | _ => none
  | sqlite _ => (parseInt minEpoch.toText).map fun n => (n : ℚ)

/-- `key.slice(0, key.indexOf(":"))` -/
def keyEpoch (key : String) : List Char :=
  if ':' ∈ key.toList then key.toList.takeWhile fun c => decide (c ≠ ':') else key.toList.dropLast

/-- The key's epoch is a number below the cutoff. -/
def isOlder (cutoff : ℚ) (key : String) : Bool :=
  match Js.stringToNumber (keyEpoch key) with
  | .dec d => decide (d.toRat < cutoff)
  | _ => false

def prune (s : NullifierStore) (minEpoch : Js.Num) : NullifierStore :=
  match s, s.cutoff minEpoch with
  | memory claims, some c => memory (claims.filter fun p => !isOlder c p.1)
  | sqlite rows, some c => sqlite (rows.filter fun p => !decide ((epoch_n p.1.epoch : ℚ) < c))
  | s, none => s

/-- The count that `prune` answers. -/
def removed (s : NullifierStore) (minEpoch : Js.Num) : Nat :=
  match s, s.cutoff minEpoch with
  | memory claims, some c => claims.countP fun p => isOlder c p.1
  | sqlite rows, some c => rows.countP fun p => decide ((epoch_n p.1.epoch : ℚ) < c)
  | _, none => 0

def size : NullifierStore → Nat
  | memory claims => claims.length
  | sqlite rows => rows.length

/-! ## The claim on a tag -/

/-- The account that holds a tag. -/
def holder (s : NullifierStore) (t : Tag) : Option Account :=
  s.get t.epoch.text t.contextHash.text t.nullifier.text

theorem has_eq (s : NullifierStore) (t : Tag) :
    s.has t.epoch.text t.contextHash.text t.nullifier.text = (s.holder t).isSome := by
  cases s <;> simp [has, holder, get]

theorem takeWhile_ne_append {c : Char} {l r : List Char} (h : c ∉ l) :
    (l ++ c :: r).takeWhile (fun x => decide (x ≠ c)) = l := by
  have hp : ∀ x ∈ l, decide (x ≠ c) = true := fun x hx => decide_eq_true fun hxc => h (hxc ▸ hx)
  rw [List.takeWhile_append_of_pos hp, List.takeWhile_cons_of_neg (by simp), List.append_nil]

theorem split_unique {c : Char} {xs ys xs' ys' : List Char} (h : c ∉ xs) (h' : c ∉ xs')
    (e : xs ++ c :: ys = xs' ++ c :: ys') : xs = xs' ∧ ys = ys' := by
  have hx : xs = xs' := by rw [← takeWhile_ne_append h, e, takeWhile_ne_append h']
  subst hx
  exact ⟨rfl, List.tail_eq_of_cons_eq (List.append_cancel_left e)⟩

theorem key_eq_iff {t u : Tag} : key t.epoch.text t.contextHash.text t.nullifier.text =
    key u.epoch.text u.contextHash.text u.nullifier.text ↔ t = u := by
  refine ⟨fun h => ?_, fun h => by rw [h]⟩
  have h := String.ofList_inj.1 h
  obtain ⟨h1, h⟩ := split_unique t.epoch.colon_notMem u.epoch.colon_notMem h
  obtain ⟨h2, h3⟩ := split_unique t.contextHash.colon_notMem u.contextHash.colon_notMem h
  exact Tag.ext (Element.ext_toList h1) (Element.ext_toList h2) (Element.ext_toList h3)

theorem primaryKey_eq_iff {t u : Tag} : (⟨t.epoch.text, t.contextHash.text, t.nullifier.text⟩ : PrimaryKey) =
    ⟨u.epoch.text, u.contextHash.text, u.nullifier.text⟩ ↔ t = u := by
  refine ⟨fun h => ?_, fun h => by rw [h]⟩
  simp only [PrimaryKey.mk.injEq] at h
  exact Tag.ext (Element.ext h.1) (Element.ext h.2.1) (Element.ext h.2.2)

/-- `add` claims a tag that nobody holds, and changes no other claim. -/
theorem add_spec (s : NullifierStore) (t : Tag) (account : String) :
    (s.add t.epoch.text t.contextHash.text t.nullifier.text account).1 = (s.holder t).isSome ∧
      ∀ u, (s.add t.epoch.text t.contextHash.text t.nullifier.text account).2.holder u =
        if s.holder t = none ∧ u = t then some (.text account) else s.holder u := by
  cases s with
  | memory claims =>
    refine ⟨Assoc.addNew_fst .., fun u => ?_⟩
    refine (Assoc.lookup_addNew ..).trans ?_
    simp only [key_eq_iff]
    exact if_congr Iff.rfl rfl rfl
  | sqlite rows =>
    simp only [add, holder, get, Option.isSome_map]
    refine ⟨Assoc.addNew_fst .., fun u => ?_⟩
    rw [Assoc.lookup_addNew]
    simp only [primaryKey_eq_iff, Option.map_eq_none_iff]
    split <;> rfl

/-! ## Pruning -/

theorem dropSpace_digits {s : List Char} (h : ∀ c ∈ s, c.isDigit = true) : s.dropWhile Js.isSpace = s := by
  have hs : ∀ c : Char, c.isDigit = true → Js.isSpace c = false := by
    intro c hc
    obtain ⟨h1, h2⟩ := Char.isDigit_iff_toNat.1 hc
    rw [show '0'.toNat = 48 from rfl] at h1
    rw [show '9'.toNat = 57 from rfl] at h2
    unfold Js.isSpace
    simp only [List.contains_eq_mem, decide_eq_false_iff_not, List.mem_cons, List.not_mem_nil, or_false]
    omega
  cases s with
  | nil => rfl
  | cons c s => rw [List.dropWhile_cons_of_neg]; rw [hs c (h c (by simp))]; simp

theorem trim_digits {s : List Char} (h : ∀ c ∈ s, c.isDigit = true) : Js.trim s = s := by
  unfold Js.trim
  rw [dropSpace_digits h, dropSpace_digits (s := s.reverse) (by simpa using h), List.reverse_reverse]

theorem stringToNumber_element (e : Element) : Js.stringToNumber e.text.toList = .dec (.ofNat e.value) := by
  have hd := e.isDigit
  have hc := Field.isDecimal_of_isCanonical e.canonical
  unfold Element.value
  generalize e.text.toList = s at hd hc
  have hr : Js.readLiteral false s = .dec (.ofNat (Field.value s)) := by
    have hi : s ≠ "Infinity".toList := fun h => by
      rw [h] at hd
      exact absurd (hd 'I' (by decide)) (by decide)
    have hspan := Js.Dec.span_digits (r := []) hd (by simp)
    rw [List.append_nil] at hspan
    have hne : s.isEmpty = false := by
      cases s with
      | nil => cases hc
      | cons c s => rfl
    unfold Js.readLiteral
    rw [if_neg hi, hspan]
    simp [hne, Js.Dec.readExp, Js.Dec.ofNat, Field.value]
  unfold Js.stringToNumber
  rw [trim_digits hd]
  unfold Field.isDecimal at hc
  split at hc
  · decide
  · rename_i c r _
    simp only [Bool.and_eq_true, bne_iff_ne] at hc
    have h1 := hc.1.1
    split
    · rename_i heq; cases heq
    · rename_i heq; rw [List.cons.injEq] at heq; exact absurd heq.1 hc.1.2
    · rename_i heq; rw [List.cons.injEq] at heq; rw [heq.1] at h1; exact absurd h1 (by decide)
    · rename_i heq; rw [List.cons.injEq] at heq; rw [heq.1] at h1; exact absurd h1 (by decide)
    · exact hr
  · cases hc

theorem epoch_n_element (e : Element) : epoch_n e.text = e.value := by
  have hd := e.isDigit
  have hc := Field.isDecimal_of_isCanonical e.canonical
  unfold epoch_n parseInt Element.value
  generalize e.text.toList = s at hd hc
  cases s with
  | nil => cases hc
  | cons c s =>
    have h1 := hd c (by simp)
    have hm : c ≠ '-' := fun h => by rw [h] at h1; revert h1; decide
    have hp : c ≠ '+' := fun h => by rw [h] at h1; revert h1; decide
    have hsign : parseSign (c :: s) = (false, c :: s) := by
      unfold parseSign
      split
      · rename_i h; rw [List.cons.injEq] at h; exact absurd h.1 hm
      · rename_i h; rw [List.cons.injEq] at h; exact absurd h.1 hp
      · rfl
    rw [dropSpace_digits hd, hsign]
    simp [List.takeWhile_eq_self_iff.2 hd]

theorem keyEpoch_key (t : Tag) : keyEpoch (key t.epoch.text t.contextHash.text t.nullifier.text) = t.epoch.text.toList := by
  unfold keyEpoch key
  rw [String.toList_ofList, if_pos (by simp)]
  exact takeWhile_ne_append t.epoch.colon_notMem

/-- What `prune` drops is older than the cutoff. -/
theorem holder_prune (s : NullifierStore) (t : Tag) (minEpoch : Js.Num) :
    (s.prune minEpoch).holder t = s.holder t ∨
      (s.prune minEpoch).holder t = none ∧ ∃ c, s.cutoff minEpoch = some c ∧ t.epoch.value < c := by
  unfold prune
  split
  · rename_i claims c hc
    simp only [holder, get]
    rw [Assoc.lookup_filter fun k => !isOlder c k]
    split
    · exact Or.inl rfl
    · rename_i ho
      refine Or.inr ⟨rfl, c, hc, ?_⟩
      simp only [isOlder, keyEpoch_key, stringToNumber_element, Js.Dec.toRat_of_isInteger (Js.Dec.isInteger_ofNat _),
        Js.Dec.toInt_ofNat, Bool.not_eq_true', Bool.not_eq_false, decide_eq_true_eq] at ho
      exact_mod_cast ho
  · rename_i rows c hc
    simp only [holder, get]
    rw [Assoc.lookup_filter fun k : PrimaryKey => !decide ((epoch_n k.epoch : ℚ) < c)]
    split
    · exact Or.inl rfl
    · rename_i ho
      refine Or.inr ⟨rfl, c, hc, ?_⟩
      simp only [epoch_n_element, Bool.not_eq_true', Bool.not_eq_false, decide_eq_true_eq] at ho
      exact_mod_cast ho
  · exact Or.inl rfl

end NullifierStore
