import MnoVerify.Assoc
import MnoVerify.Coerce
import MnoVerify.Field

/-!
# Registration records

The parts of `core/registration_store.js` that every backend shares: the record
shape and its checks, the checks of `RegistrationStore.append`, the index over the
records (`seen` and `byBucket`), and the decision that an append takes on it.
`MemoryRegistrationBackend` is the index alone.
-/

namespace Registration

structure Declaration where
  engine : String
  statement : String
deriving DecidableEq

def ENGINE_STATEMENTS : List (String × List String) :=
  [("groth16", ["derive"]), ("plonk", ["derive"]), ("zkvm", ["derive", "custody"])]

def DEFAULT_ENGINE : String := "plonk"

def DEFAULT_STATEMENT : String := "derive"

/-- `isValidEngineStatement`; none stands for a value that is no string. -/
def isValidEngineStatement (engine statement : Option String) : Bool :=
  match engine, statement with
  | some e, some s => ((ENGINE_STATEMENTS.lookup e).getD []).contains s
  | _, _ => false

/-- What `backend.append` is given. -/
structure Draft where
  season : Js.Num
  contextHash : String
  regNullifier : String
  commitment : String
  engine : String
  statement : String
deriving DecidableEq

structure Record where
  season : Js.Num
  contextHash : String
  regNullifier : String
  commitment : String
  engine : Option String
  statement : Option String
  index : Nat
deriving DecidableEq

def Draft.record (d : Draft) (index : Nat) : Record :=
  ⟨d.season, d.contextHash, d.regNullifier, d.commitment, some d.engine, some d.statement, index⟩

/-- `declarationOfRecord` -/
def Record.declaration (r : Record) : Declaration :=
  ⟨r.engine.getD DEFAULT_ENGINE, r.statement.getD DEFAULT_STATEMENT⟩

def Draft.declaration (d : Draft) : Declaration := ⟨d.engine, d.statement⟩

@[simp] theorem Draft.record_declaration (d : Draft) (i : Nat) : (d.record i).declaration = d.declaration := rfl

def sameRegistrationRecord (a b : Record) : Bool :=
  decide (a.season.toText = b.season.toText) && decide (a.contextHash = b.contextHash) &&
    decide (a.regNullifier = b.regNullifier) && decide (a.commitment = b.commitment) &&
    decide (a.engine.getD "" = b.engine.getD "") && decide (a.statement.getD "" = b.statement.getD "")

/-- `bucketOf` -/
def bucketKey (season : Js.Num) (contextHash : String) : String :=
  String.ofList (season.toText ++ ':' :: contextHash.toList)

/-- `keyOf` -/
def uniqueKey (season : Js.Num) (contextHash regNullifier : String) : String :=
  String.ofList (season.toText ++ ':' :: (contextHash.toList ++ ':' :: regNullifier.toList))

def Record.bucket (r : Record) : String := bucketKey r.season r.contextHash

def Record.key (r : Record) : String := uniqueKey r.season r.contextHash r.regNullifier

def Draft.bucket (d : Draft) : String := bucketKey d.season d.contextHash

def Draft.key (d : Draft) : String := uniqueKey d.season d.contextHash d.regNullifier

@[simp] theorem Draft.record_bucket (d : Draft) (i : Nat) : (d.record i).bucket = d.bucket := rfl

@[simp] theorem Draft.record_key (d : Draft) (i : Nat) : (d.record i).key = d.key := rfl

/-! ## The checks of an append -/

/-- A JavaScript value: what `Number` and `String` make of it, and whether it is a string. -/
structure Value where
  number : Js.Num
  text : String
  isString : Bool

namespace Value

def ofString (s : String) : Value := ⟨Js.stringToNumber s.toList, s, true⟩

def ofNumber (n : Js.Num) : Value := ⟨n, String.ofList n.toText, false⟩

def asString (v : Value) : Option String := if v.isString then some v.text else none

end Value

/-- The argument object of `RegistrationStore.append`. -/
structure Given where
  season : Value
  contextHash : Value
  regNullifier : Value
  commitment : Value
  engine : Value
  statement : Value

/-- `{ invalid: true, .. }` -/
inductive Invalid
  | engineStatement (engine statement : String)
  | nonCanonicalField (field : String)
deriving DecidableEq

/-- The first of the three field elements that is not canonical. -/
def Given.nonCanonical (g : Given) : Option String :=
  ([("contextHash", g.contextHash), ("regNullifier", g.regNullifier), ("commitment", g.commitment)].find?
    fun p => !Field.isCanonical p.2.text.toList).map Prod.fst

/-- What `RegistrationStore.append` hands to its backend. -/
def Given.check (g : Given) : Except Invalid Draft :=
  if !isValidEngineStatement g.engine.asString g.statement.asString then
    .error (.engineStatement g.engine.text g.statement.text)
  else
    match g.nonCanonical with
    | some field => .error (.nonCanonicalField field)
    | none =>
      .ok ⟨g.season.number, g.contextHash.text, g.regNullifier.text, g.commitment.text, g.engine.text, g.statement.text⟩

/-- A draft that passed the checks. -/
structure Draft.Checked (d : Draft) : Prop where
  contextHash : Field.isCanonical d.contextHash.toList = true
  regNullifier : Field.isCanonical d.regNullifier.toList = true
  commitment : Field.isCanonical d.commitment.toList = true
  declared : isValidEngineStatement (some d.engine) (some d.statement) = true

theorem Given.check_ok {g : Given} {d : Draft} (h : g.check = .ok d) :
    d = ⟨g.season.number, g.contextHash.text, g.regNullifier.text, g.commitment.text, g.engine.text, g.statement.text⟩ ∧
      d.Checked := by
  rw [Given.check] at h
  by_cases hv : isValidEngineStatement g.engine.asString g.statement.asString = true
  · rw [hv, Bool.not_true, if_neg Bool.false_ne_true] at h
    cases hn : g.nonCanonical with
    | some field => rw [hn] at h; cases h
    | none =>
      rw [hn] at h
      cases h
      rw [Given.nonCanonical, Option.map_eq_none_iff, List.find?_eq_none] at hn
      have hc : ∀ p ∈ [("contextHash", g.contextHash), ("regNullifier", g.regNullifier), ("commitment", g.commitment)],
          Field.isCanonical p.2.text.toList = true := fun p hp => by simpa using hn p hp
      refine ⟨rfl, hc ("contextHash", _) (by simp), hc ("regNullifier", _) (by simp), hc ("commitment", _) (by simp), ?_⟩
      simp only [isValidEngineStatement, Value.asString] at hv ⊢
      by_cases he : g.engine.isString = true <;> by_cases hs : g.statement.isString = true
      · rwa [if_pos he, if_pos hs] at hv
      all_goals simp_all
  · rw [Bool.not_eq_true] at hv
    rw [hv, Bool.not_false, if_pos rfl] at h
    cases h

/-- The argument that hands over a draft whose texts are strings. -/
def Draft.given (d : Draft) : Given :=
  ⟨.ofNumber d.season, .ofString d.contextHash, .ofString d.regNullifier, .ofString d.commitment, .ofString d.engine,
    .ofString d.statement⟩

theorem Draft.given_check {d d' : Draft} (h : d.given.check = .ok d') : d' = d := (Given.check_ok h).1

/-! ## Keys -/

theorem colon_notMem_canonical {s : String} (h : Field.isCanonical s.toList = true) : ':' ∉ s.toList := fun hc => by
  have := Field.isDigit_of_isDecimal (Field.isDecimal_of_isCanonical h) ':' hc
  revert this; decide

theorem colon_notMem_toText (n : Js.Num) : ':' ∉ n.toText := by
  cases n with
  | nan => decide
  | infinite neg => cases neg <;> decide
  | dec d =>
    intro h
    rcases Js.Dec.numberChar_toText d _ h with h | h
    · revert h; decide
    · revert h; decide

/-- A separator splits a text in one way when the part before it has none. -/
theorem split_sep {α : Type} {c : α} : ∀ {a b x y : List α}, c ∉ a → c ∉ b → a ++ c :: x = b ++ c :: y → a = b ∧ x = y
  | [], [], _, _, _, _, h => by simpa using h
  | [], d :: b, _, _, _, hb, h => by
    rw [List.nil_append, List.cons_append, List.cons.injEq] at h
    exact absurd (h.1 ▸ List.mem_cons_self) hb
  | d :: a, [], _, _, ha, _, h => by
    rw [List.nil_append, List.cons_append, List.cons.injEq] at h
    exact absurd (h.1 ▸ List.mem_cons_self) ha
  | d :: a, e :: b, _, _, ha, hb, h => by
    rw [List.cons_append, List.cons_append, List.cons.injEq] at h
    obtain ⟨h1, h2⟩ := split_sep (fun hc => ha (List.mem_cons_of_mem _ hc)) (fun hc => hb (List.mem_cons_of_mem _ hc)) h.2
    exact ⟨by rw [h.1, h1], h2⟩

theorem bucketKey_inj {s t : Js.Num} {c c' : String} (h : bucketKey s c = bucketKey t c') :
    s.toText = t.toText ∧ c = c' := by
  obtain ⟨h1, h2⟩ := split_sep (colon_notMem_toText s) (colon_notMem_toText t) (String.ofList_inj.1 h)
  exact ⟨h1, String.toList_inj.1 h2⟩

theorem uniqueKey_inj {s t : Js.Num} {c c' n n' : String} (hc : ':' ∉ c.toList) (hc' : ':' ∉ c'.toList)
    (h : uniqueKey s c n = uniqueKey t c' n') : s.toText = t.toText ∧ c = c' ∧ n = n' := by
  obtain ⟨h1, h2⟩ := split_sep (colon_notMem_toText s) (colon_notMem_toText t) (String.ofList_inj.1 h)
  obtain ⟨h3, h4⟩ := split_sep hc hc' h2
  exact ⟨h1, String.toList_inj.1 h3, String.toList_inj.1 h4⟩

/-! ## The index -/

structure Index where
  seen : List String := []
  byBucket : List (String × List Record) := []
deriving DecidableEq

inductive Answer
  | duplicate
  | conflict (declared : Declaration)
  | invalid (why : Invalid)
  /-- `{ duplicate: false, index }` -/
  | stored (index : Nat)
deriving DecidableEq

/-- What an append decides to do before it writes. -/
inductive Decision
  | answer (a : Answer)
  | write (r : Record)
deriving DecidableEq

namespace Index

def records (ix : Index) (bucket : String) : List Record := (ix.byBucket.lookup bucket).getD []

def has (ix : Index) (key : String) : Bool := ix.seen.contains key

/-- `#remember` -/
def remember (ix : Index) (r : Record) : Index :=
  ⟨ix.seen ++ [r.key], Assoc.set ix.byBucket r.bucket (ix.records r.bucket ++ [r])⟩

def forSeasonContext (ix : Index) (season : Js.Num) (contextHash : String) : List Record :=
  ix.records (bucketKey season contextHash)

def declarationFor (ix : Index) (season : Js.Num) (contextHash : String) : Option Declaration :=
  (ix.forSeasonContext season contextHash).head?.map Record.declaration

/-- `bucketsHaveEngine` -/
def seasonHasEngine (ix : Index) (season : Js.Num) (engine : String) : Bool :=
  ix.byBucket.any fun p =>
    (season.toText ++ [':']).isPrefixOf p.1.toList && (p.2.head?.map fun r => decide (r.declaration.engine = engine)).getD false

/-- The part of `append` before its write. -/
def decideAppend (ix : Index) (d : Draft) : Decision :=
  if ix.has d.key then .answer .duplicate
  else
    match ix.records d.bucket with
    | [] => .write (d.record 0)
    | r :: rs =>
      if r.declaration ≠ d.declaration then .answer (.conflict r.declaration) else .write (d.record (rs.length + 1))

/-- `MemoryRegistrationBackend.append` -/
def append (ix : Index) (d : Draft) : Index × Answer :=
  match ix.decideAppend d with
  | .answer a => (ix, a)
  | .write r => (ix.remember r, .stored r.index)

/-- `RegistrationStore.append` over that backend. -/
def appendChecked (ix : Index) (g : Given) : Index × Answer :=
  match g.check with
  | .error why => (ix, .invalid why)
  | .ok d => ix.append d

@[simp] theorem records_remember (ix : Index) (r : Record) (b : String) :
    (ix.remember r).records b = if b = r.bucket then ix.records b ++ [r] else ix.records b := by
  rw [remember, records]
  by_cases h : b = r.bucket
  · subst h; rw [if_pos rfl, Assoc.lookup_set_self]; rfl
  · rw [if_neg h, Assoc.lookup_set_of_ne h]; rfl

@[simp] theorem has_remember (ix : Index) (r : Record) (k : String) :
    (ix.remember r).has k = (ix.has k || decide (k = r.key)) := by
  rw [remember, has, has, List.contains_eq_mem, List.contains_eq_mem]
  simp

/-- A write takes a new key, agrees with its bucket's declaration and takes its next position. -/
theorem decideAppend_write {ix : Index} {d : Draft} {r : Record} (h : ix.decideAppend d = .write r) :
    r = d.record (ix.records d.bucket).length ∧ ix.has d.key = false ∧
      ∀ q ∈ (ix.records d.bucket).head?, q.declaration = d.declaration := by
  rw [decideAppend] at h
  by_cases hk : ix.has d.key = true
  · rw [if_pos hk] at h; cases h
  rw [if_neg hk] at h
  rw [Bool.not_eq_true] at hk
  cases hr : ix.records d.bucket with
  | nil =>
    rw [hr] at h; cases h
    exact ⟨rfl, hk, by simp⟩
  | cons q rs =>
    rw [hr] at h
    by_cases hd : q.declaration = d.declaration
    · simp only [hd, ne_eq, not_true_eq_false, if_false] at h
      cases h
      exact ⟨rfl, hk, by simpa using hd⟩
    · simp only [ne_eq, hd, not_false_eq_true, if_true] at h
      cases h

theorem decideAppend_answer {ix : Index} {d : Draft} {i : Nat} (h : ix.decideAppend d = .answer (.stored i)) : False := by
  rw [decideAppend] at h
  split at h
  · cases h
  · split at h
    · cases h
    · split at h <;> cases h

/-- Whatever an append answers, a bucket keeps its records in place. -/
theorem records_append_prefix (ix : Index) (d : Draft) (b : String) : ix.records b <+: (ix.append d).1.records b := by
  rw [append]
  cases ix.decideAppend d with
  | answer a => exact List.prefix_refl _
  | write r =>
    rw [records_remember]
    split
    · exact List.prefix_append _ _
    · exact List.prefix_refl _

/-- An append that stores a draft puts it at the end of its bucket, and changes no other; any other changes nothing. -/
theorem appendChecked_cases (ix : Index) (d : Draft) :
    (ix.appendChecked d.given = (ix.remember (d.record (ix.records d.bucket).length), .stored (ix.records d.bucket).length) ∧
      d.Checked ∧ ix.has d.key = false ∧ ∀ q ∈ (ix.records d.bucket).head?, q.declaration = d.declaration) ∨
    ((ix.appendChecked d.given).1 = ix ∧ ∀ i, (ix.appendChecked d.given).2 ≠ .stored i) := by
  rw [appendChecked]
  cases hc : d.given.check with
  | error why => exact .inr ⟨rfl, fun i h => by cases h⟩
  | ok d' =>
    obtain ⟨rfl, hchk⟩ : d' = d ∧ d'.Checked := ⟨Draft.given_check hc, (Given.check_ok hc).2⟩
    dsimp only
    rw [append]
    cases hd : ix.decideAppend d' with
    | answer a =>
      refine .inr ⟨rfl, fun i h => ?_⟩
      dsimp only at h
      subst h
      exact decideAppend_answer hd
    | write r =>
      obtain ⟨rfl, hk, hh⟩ := decideAppend_write hd
      exact .inl ⟨rfl, hchk, hk, hh⟩

end Index

end Registration
