import MnoVerify.NullifierStore

/-!
# Two nullifier stores, one set of claims

What a nullifier store is for, as a table of claims by tag, and both stores as refinements of it: every operation answers
alike, and so do a store in memory and a table that is closed and opened again.
-/

namespace NullifierStore

/-- An epoch that a number holds exactly. -/
abbrev Epoch := { n : Nat // n < 2 ^ 53 }

/-- `${epoch}`, as a canonical element. -/
def Epoch.element (epoch : Epoch) : Element where
  text := String.ofList (Nat.toDigits 10 epoch)
  canonical := by
    rw [String.toList_ofList]
    exact Field.isCanonical_toDigits (Nat.lt_trans epoch.2 (by decide))

/-- What `prune` may be given. -/
inductive Cutoff
  | nan
  | infinite (neg : Bool)
  | int (z : Int) (h : z.natAbs < 2 ^ 53)

/-- The epoch below which claims go, if there is one. -/
def Cutoff.bound : Cutoff → Option Int
  | int z _ => some z
  | _ => none

def Cutoff.num : Cutoff → Js.Num
  | nan => .nan
  | infinite neg => .infinite neg
  | int z _ => .dec (.ofInt z)

inductive Op
  | has (epoch : Epoch) (contextHash nf : Element)
  | get (epoch : Epoch) (contextHash nf : Element)
  | add (epoch : Epoch) (contextHash nf : Element) (account : String)
  | prune (minEpoch : Cutoff)
  | size

inductive Answer
  | has (spent : Bool)
  | record (account : Option Account)
  | duplicate (b : Bool)
  | removed (n : Nat)
  | size (n : Nat)
deriving DecidableEq

def step (s : NullifierStore) : Op → Answer × NullifierStore
  | .has epoch contextHash nf => (.has (s.has epoch.element.text contextHash.text nf.text), s)
  | .get epoch contextHash nf => (.record (s.get epoch.element.text contextHash.text nf.text), s)
  | .add epoch contextHash nf account =>
    (.duplicate (s.add epoch.element.text contextHash.text nf.text account).1,
      (s.add epoch.element.text contextHash.text nf.text account).2)
  | .prune minEpoch => (.removed (s.removed minEpoch.num), s.prune minEpoch.num)
  | .size => (.size s.size, s)

def run (s : NullifierStore) : List Op → List Answer × NullifierStore
  | [] => ([], s)
  | op :: ops => ((s.step op).1 :: ((s.step op).2.run ops).1, ((s.step op).2.run ops).2)

/-! ## A table of claims -/

/-- Who claimed which tag, in order. -/
abbrev Claims := List (Tag × String)

namespace Claims

/-- What is older than a cutoff. -/
def older (cutoff : Cutoff) (t : Tag) : Bool := cutoff.bound.any fun z => decide ((t.epoch.value : Int) < z)

def step (m : Claims) : Op → Answer × Claims
  | .has epoch contextHash nf => (.has (m.lookup ⟨epoch.element, contextHash, nf⟩).isSome, m)
  | .get epoch contextHash nf => (.record ((m.lookup ⟨epoch.element, contextHash, nf⟩).map .text), m)
  | .add epoch contextHash nf account =>
    (.duplicate (Assoc.addNew m ⟨epoch.element, contextHash, nf⟩ account).1,
      (Assoc.addNew m ⟨epoch.element, contextHash, nf⟩ account).2)
  | .prune cutoff => (.removed (m.countP fun p => older cutoff p.1), m.filter fun p => !older cutoff p.1)
  | .size => (.size m.length, m)

def run (m : Claims) : List Op → List Answer × Claims
  | [] => ([], m)
  | op :: ops => ((step m op).1 :: (run (step m op).2 ops).1, (run (step m op).2 ops).2)

theorem run_append (m : Claims) (ops ops' : List Op) :
    run m (ops ++ ops') = ((run m ops).1 ++ (run (run m ops).2 ops').1, (run (run m ops).2 ops').2) := by
  induction ops generalizing m with
  | nil => rfl
  | cons op ops ih =>
    rw [List.cons_append, run, ih]
    rfl

end Claims

/-! ## Cutoffs -/

theorem parseSign_digit {c : Char} {s : List Char} (h : c.isDigit = true) : parseSign (c :: s) = (false, c :: s) := by
  unfold parseSign
  split
  · rename_i heq
    cases heq
    exact absurd h (by decide)
  · rename_i heq
    cases heq
    exact absurd h (by decide)
  · rfl

theorem parseInt_digits {s : List Char} (hd : ∀ c ∈ s, c.isDigit = true) (hne : s ≠ []) :
    parseInt s = some (Field.value s : Int) := by
  obtain ⟨c, r, rfl⟩ := List.exists_cons_of_ne_nil hne
  unfold parseInt
  rw [dropSpace_digits hd, parseSign_digit (hd c List.mem_cons_self)]
  simp [List.takeWhile_eq_self_iff.2 hd]

theorem parseInt_neg {s : List Char} (hd : ∀ c ∈ s, c.isDigit = true) (hne : s ≠ []) :
    parseInt ('-' :: s) = some (-(Field.value s : Int)) := by
  obtain ⟨c, r, rfl⟩ := List.exists_cons_of_ne_nil hne
  have hspace : Js.isSpace '-' = false := by decide
  unfold parseInt
  rw [List.dropWhile_cons_of_neg (by rw [hspace]; exact Bool.false_ne_true), parseSign]
  simp [List.takeWhile_eq_self_iff.2 hd]

/-- An integer that `String` writes out in full is what `parseInt` reads. -/
theorem parseInt_toText {d : Js.Dec} (h : d.isInteger = true)
    (hlen : ((Nat.toDigits 10 d.mant).length : Int) + d.exp ≤ 21) : parseInt d.toText = some d.toInt := by
  have hbody : d.body = Nat.toDigits 10 d.mant ++ List.replicate d.exp.toNat '0' := by
    unfold Js.Dec.body
    exact if_pos ⟨of_decide_eq_true h, hlen⟩
  have hdigits : ∀ c ∈ d.body, c.isDigit = true := by
    intro c hc
    rw [hbody, List.mem_append, List.mem_replicate] at hc
    rcases hc with hc | ⟨_, rfl⟩
    · exact Js.Dec.isDigit_toDigits _ c hc
    · rfl
  have hvalue : Field.value d.body = d.mant * 10 ^ d.exp.toNat := by
    rw [hbody, Field.value, Js.Dec.ofDigitChars_append_zeros, Nat.ofDigitChars_ten_toDigits]
  have hne : d.body ≠ [] := by
    obtain ⟨c, r, hcr, _⟩ := d.body_head
    rw [hcr]
    exact List.cons_ne_nil c r
  unfold Js.Dec.toText Js.Dec.toInt
  by_cases hneg : d.neg = true
  · rw [if_pos hneg, if_pos hneg, parseInt_neg hdigits hne, hvalue]
    push_cast
    rfl
  · rw [if_neg hneg, if_neg hneg, parseInt_digits hdigits hne, hvalue]
    push_cast
    rfl

/-- An integer below `2 ^ 53` is written out in full. -/
theorem length_ofInt {z : Int} (h : z.natAbs < 2 ^ 53) :
    ((Nat.toDigits 10 (Js.Dec.ofInt z).mant).length : Int) + (Js.Dec.ofInt z).exp ≤ 21 := by
  have hint := Js.Dec.toInt_ofInt z
  have he : 0 ≤ (Js.Dec.ofInt z).exp := of_decide_eq_true (Js.Dec.isInteger_ofInt z)
  generalize Js.Dec.ofInt z = d at hint he ⊢
  obtain ⟨e, hexp⟩ := Int.eq_ofNat_of_zero_le he
  have habs : d.mant * 10 ^ e = z.natAbs := by
    rw [← hint, Js.Dec.toInt, hexp, Int.toNat_natCast]
    split
    · rw [Int.natAbs_neg, Int.natAbs_mul, Int.natAbs_pow, Int.natAbs_natCast]
      rfl
    · rw [Int.natAbs_mul, Int.natAbs_pow, Int.natAbs_natCast]
      rfl
  rw [hexp]
  rcases Nat.eq_zero_or_pos d.mant with h0 | hpos
  · have hz := (d.norm (by rw [h0])).2.2
    rw [hexp] at hz
    rw [h0, hz]
    decide
  · have hbound : d.mant * 10 ^ e < 10 ^ 16 := habs ▸ Nat.lt_trans h (by decide)
    have hlt : e < 16 := by
      refine (Nat.pow_lt_pow_iff_right (by decide : 1 < 10)).1 (Nat.lt_of_le_of_lt ?_ hbound)
      exact Nat.le_mul_of_pos_left _ hpos
    have hlen : (Nat.toDigits 10 d.mant).length ≤ 16 - e := by
      rw [Nat.length_toDigits_le_iff (by decide) (by omega)]
      refine Nat.lt_of_mul_lt_mul_right (a := 10 ^ e) ?_
      rwa [← Nat.pow_add, Nat.sub_add_cancel (Nat.le_of_lt hlt)]
    omega

theorem cutoff_memory (claims : List (String × Account)) (c : Cutoff) :
    (memory claims).cutoff c.num = c.bound.map (Int.cast : Int → ℚ) := by
  cases c with
  | nan => rfl
  | infinite neg => rfl
  | int z h =>
    show some (Js.Dec.ofInt z).toRat = some (z : ℚ)
    rw [Js.Dec.toRat_of_isInteger (Js.Dec.isInteger_ofInt z), Js.Dec.toInt_ofInt]

theorem cutoff_sqlite (rows : List (PrimaryKey × Option String)) (c : Cutoff) :
    (sqlite rows).cutoff c.num = c.bound.map (Int.cast : Int → ℚ) := by
  have hcut : (sqlite rows).cutoff c.num = (parseInt c.num.toText).map (Int.cast : Int → ℚ) := by
    unfold cutoff
    cases parseInt c.num.toText <;> rfl
  rw [hcut]
  refine congrArg (Option.map Int.cast) ?_
  cases c with
  | nan =>
    show parseInt "NaN".toList = none
    decide
  | infinite neg =>
    cases neg with
    | false =>
      show parseInt "Infinity".toList = none
      decide
    | true =>
      show parseInt "-Infinity".toList = none
      decide
  | int z h =>
    show parseInt (Js.Dec.ofInt z).toText = some z
    rw [parseInt_toText (Js.Dec.isInteger_ofInt z) (length_ofInt h), Js.Dec.toInt_ofInt]

/-! ## Both stores hold it -/

def tagKey (t : Tag) : String := key t.epoch.text t.contextHash.text t.nullifier.text

def tagRow (t : Tag) : PrimaryKey := ⟨t.epoch.text, t.contextHash.text, t.nullifier.text⟩

def memoryOf (m : Claims) : NullifierStore := memory (m.map fun p => (tagKey p.1, .text p.2))

def rowsOf (m : Claims) : List (PrimaryKey × Option String) := m.map fun p => (tagRow p.1, some p.2)

theorem tagKey_inj {t u : Tag} : tagKey t = tagKey u ↔ t = u := key_eq_iff

theorem tagRow_inj {t u : Tag} : tagRow t = tagRow u ↔ t = u := primaryKey_eq_iff

theorem isOlder_tagKey (z : Int) (t : Tag) : isOlder (z : ℚ) (tagKey t) = decide ((t.epoch.value : Int) < z) := by
  unfold isOlder tagKey
  rw [keyEpoch_key, stringToNumber_element]
  show decide ((Js.Dec.ofNat t.epoch.value).toRat < (z : ℚ)) = _
  rw [Js.Dec.toRat_of_isInteger (Js.Dec.isInteger_ofNat _), Js.Dec.toInt_ofNat]
  exact decide_eq_decide.2 Int.cast_lt

theorem epoch_n_tagRow (t : Tag) : epoch_n (tagRow t).epoch = t.epoch.value := epoch_n_element t.epoch

theorem prune_memoryOf (m : Claims) (c : Cutoff) :
    (memoryOf m).prune c.num = memoryOf (m.filter fun p => !Claims.older c p.1) ∧
      (memoryOf m).removed c.num = m.countP fun p => Claims.older c p.1 := by
  unfold prune removed Claims.older
  rw [memoryOf, cutoff_memory]
  cases c.bound with
  | none => simp [memoryOf]
  | some z => simp [memoryOf, List.filter_map, List.countP_map, Function.comp_def, isOlder_tagKey]

theorem prune_rowsOf (m : Claims) (c : Cutoff) :
    (sqlite (rowsOf m)).prune c.num = sqlite (rowsOf (m.filter fun p => !Claims.older c p.1)) ∧
      (sqlite (rowsOf m)).removed c.num = m.countP fun p => Claims.older c p.1 := by
  unfold prune removed Claims.older
  rw [cutoff_sqlite]
  cases c.bound with
  | none => simp [rowsOf]
  | some z => simp [rowsOf, List.filter_map, List.countP_map, Function.comp_def, epoch_n_tagRow]

theorem holder_memoryOf (m : Claims) (t : Tag) : (memoryOf m).holder t = (m.lookup t).map .text :=
  Assoc.lookup_map tagKey_inj Account.text m t

theorem holder_rowsOf (m : Claims) (t : Tag) : (sqlite (rowsOf m)).holder t = (m.lookup t).map .text := by
  have hl : (rowsOf m).lookup (tagRow t) = (m.lookup t).map some := Assoc.lookup_map tagRow_inj some m t
  show ((rowsOf m).lookup (tagRow t)).map _ = _
  rw [hl, Option.map_map]
  rfl

theorem step_memoryOf (m : Claims) (op : Op) : (memoryOf m).step op = ((Claims.step m op).1, memoryOf (Claims.step m op).2) := by
  cases op with
  | has epoch contextHash nf =>
    have h := has_eq (memoryOf m) ⟨epoch.element, contextHash, nf⟩
    rw [holder_memoryOf, Option.isSome_map] at h
    rw [step, h]
    rfl
  | get epoch contextHash nf =>
    have h := holder_memoryOf m ⟨epoch.element, contextHash, nf⟩
    rw [holder] at h
    rw [step, h]
    rfl
  | add epoch contextHash nf account =>
    have h := Assoc.addNew_map tagKey_inj Account.text m ⟨epoch.element, contextHash, nf⟩ account
    have hadd : (memoryOf m).add epoch.element.text contextHash.text nf.text account =
        ((Assoc.addNew m ⟨epoch.element, contextHash, nf⟩ account).1,
          memoryOf (Assoc.addNew m ⟨epoch.element, contextHash, nf⟩ account).2) :=
      congrArg (fun r : Bool × List (String × Account) => (r.1, memory r.2)) h
    rw [step, hadd]
    rfl
  | prune c =>
    rw [step, (prune_memoryOf m c).1, (prune_memoryOf m c).2]
    rfl
  | size =>
    rw [step, memoryOf, size, List.length_map]
    rfl

theorem step_rowsOf (m : Claims) (op : Op) :
    (sqlite (rowsOf m)).step op = ((Claims.step m op).1, sqlite (rowsOf (Claims.step m op).2)) := by
  cases op with
  | has epoch contextHash nf =>
    have h := has_eq (sqlite (rowsOf m)) ⟨epoch.element, contextHash, nf⟩
    rw [holder_rowsOf, Option.isSome_map] at h
    rw [step, h]
    rfl
  | get epoch contextHash nf =>
    have h := holder_rowsOf m ⟨epoch.element, contextHash, nf⟩
    rw [holder] at h
    rw [step, h]
    rfl
  | add epoch contextHash nf account =>
    have h := Assoc.addNew_map tagRow_inj some m ⟨epoch.element, contextHash, nf⟩ account
    have hadd : (sqlite (rowsOf m)).add epoch.element.text contextHash.text nf.text account =
        ((Assoc.addNew m ⟨epoch.element, contextHash, nf⟩ account).1,
          sqlite (rowsOf (Assoc.addNew m ⟨epoch.element, contextHash, nf⟩ account).2)) :=
      congrArg (fun r : Bool × List (PrimaryKey × Option String) => (r.1, sqlite r.2)) h
    rw [step, hadd]
    rfl
  | prune c =>
    rw [step, (prune_rowsOf m c).1, (prune_rowsOf m c).2]
    rfl
  | size =>
    rw [step, size, rowsOf, List.length_map]
    rfl

theorem run_memoryOf (m : Claims) (ops : List Op) :
    (memoryOf m).run ops = ((Claims.run m ops).1, memoryOf (Claims.run m ops).2) := by
  induction ops generalizing m with
  | nil => rfl
  | cons op ops ih =>
    rw [run, step_memoryOf, ih]
    rfl

theorem run_rowsOf (m : Claims) (ops : List Op) :
    (sqlite (rowsOf m)).run ops = ((Claims.run m ops).1, sqlite (rowsOf (Claims.run m ops).2)) := by
  induction ops generalizing m with
  | nil => rfl
  | cons op ops ih =>
    rw [run, step_rowsOf, ih]
    rfl

/-! ## The table on disk -/

/-- What a database file keeps: the row `schedule` of `meta` and the rows of `claims`. -/
structure Database where
  schedule : Option String
  rows : List (PrimaryKey × Option String)

namespace Database

def empty : Database := ⟨none, []⟩

/-- `#open` of the file at `path`. -/
def «open» (path : String) (schedule : Option String) (db : Database) : Except String Database :=
  match schedule, db.schedule with
  | none, _ => .ok db
  | some schedule, none => .ok { db with schedule := some schedule }
  | some schedule, some v =>
    if v = schedule then .ok db
    else .error (s!"{path} was written under epoch/season schedule {v}, but this gateway runs {schedule}. " ++
      "Changing the epoch or season length renumbers every period, so the stored claims are not " ++
      "comparable. Point MNO_NULLIFIER_PATH at a new file to start the new schedule cleanly.")

/-- A store that is opened, used and closed. -/
def session (path : String) (schedule : Option String) (ops : List Op) (db : Database) :
    Except String (List Answer × Database) := do
  let db ← db.open path schedule
  match (sqlite db.rows).run ops with
  | (answers, sqlite rows) => pure (answers, { db with rows := rows })
  | (answers, memory _) => pure (answers, db)

/-- One store after another on the same file. -/
def sessions (path : String) : List (Option String × List Op) → Database → Except String (List Answer × Database)
  | [], db => pure ([], db)
  | (schedule, ops) :: rest, db => do
    let (answers, db) ← db.session path schedule ops
    let (answers', db) ← sessions path rest db
    pure (answers ++ answers', db)

variable {schedule : String} {m : Claims} {db : Database}

/-- A file under one schedule, with the rows of a table of claims. -/
def Holds (schedule : String) (m : Claims) (db : Database) : Prop :=
  (db.schedule = none ∨ db.schedule = some schedule) ∧ db.rows = rowsOf m

theorem Holds.open (h : Holds schedule m db) (path : String) {s : Option String} (hs : s = none ∨ s = some schedule) :
    ∃ db', db.open path s = .ok db' ∧ Holds schedule m db' := by
  rcases hs with rfl | rfl
  · exact ⟨db, rfl, h⟩
  · rcases h with ⟨h | h, hrows⟩
    · refine ⟨{ db with schedule := some schedule }, ?_, Or.inr rfl, hrows⟩
      unfold Database.open
      rw [h]
    · refine ⟨db, ?_, Or.inr h, hrows⟩
      unfold Database.open
      rw [h]
      exact if_pos rfl

theorem Holds.session (h : Holds schedule m db) (path : String) {s : Option String} (hs : s = none ∨ s = some schedule)
    (ops : List Op) :
    ∃ db', db.session path s ops = .ok ((Claims.run m ops).1, db') ∧ Holds schedule (Claims.run m ops).2 db' := by
  obtain ⟨db', hopen, hsched, hrows⟩ := h.open path hs
  refine ⟨{ db' with rows := rowsOf (Claims.run m ops).2 }, ?_, hsched, rfl⟩
  unfold Database.session
  rw [hopen]
  show (match (sqlite db'.rows).run ops with
    | (answers, sqlite rows) => pure (answers, { db' with rows := rows })
    | (answers, memory _) => pure (answers, db')) = _
  rw [hrows, run_rowsOf]
  rfl

theorem Holds.sessions (h : Holds schedule m db) (path : String) {l : List (Option String × List Op)}
    (hl : ∀ p ∈ l, p.1 = none ∨ p.1 = some schedule) :
    ∃ db', Database.sessions path l db = .ok ((Claims.run m (l.map Prod.snd).flatten).1, db') ∧
      Holds schedule (Claims.run m (l.map Prod.snd).flatten).2 db' := by
  induction l generalizing m db with
  | nil => exact ⟨db, rfl, h⟩
  | cons p l ih =>
    obtain ⟨s, ops⟩ := p
    obtain ⟨db₁, h₁, hdb₁⟩ := h.session path (hl _ List.mem_cons_self) ops
    obtain ⟨db₂, h₂, hdb₂⟩ := ih hdb₁ fun p hp => hl p (List.mem_cons_of_mem _ hp)
    rw [List.map_cons, List.flatten_cons, Claims.run_append]
    refine ⟨db₂, ?_, hdb₂⟩
    unfold Database.sessions
    rw [h₁]
    show (Database.sessions path l db₁ >>= fun r => pure ((Claims.run m ops).1 ++ r.1, r.2)) = _
    rw [h₂]
    rfl

end Database

/-! ## Interchangeable -/

theorem Claims.pruned (m : Claims) (c : Cutoff) (t : Tag) :
    (m.filter fun p => !older c p.1).lookup t = if older c t then none else m.lookup t := by
  rw [Assoc.lookup_filter fun u => !older c u]
  cases older c t <;> rfl

theorem Claims.removed_add (m : Claims) (c : Cutoff) :
    (m.countP fun p => older c p.1) + (m.filter fun p => !older c p.1).length = m.length := by
  rw [← List.countP_eq_length_filter, List.length_eq_countP_add_countP fun p : Tag × String => older c p.1]
  simp

end NullifierStore
