import MnoVerify.Lines
import MnoVerify.JsonTorn
import MnoVerify.Registration
import Mathlib.Data.List.Sort

/-!
# The registration file

`#load` and `append` of `FileBackend` in `core/registration_store.js`, as functions of the bytes of the file. Every
operation on the file succeeds, and the store is not behind its file. The syncs, which change no byte, and the log lines are
left out.
-/

namespace RegistrationFile

open Registration

/-- The arguments of the constructor, but for the path. -/
structure Config where
  schedule : Option String
  assumeSchedule : Bool

/-! ## A line -/

/-- `JSON.stringify(v)` in a template, of a property that may be missing. -/
def written : Option Json → List Char
  | none => "undefined".toList
  | some v => v.stringify

/-- `Number.isInteger(v) && v >= 0` -/
def isCount : Option Json → Bool
  | some (.num d) => d.isInteger && !d.neg
  | _ => false

def textProp : Option Json → Option String
  | some (.str s) => some s
  | _ => none

def isCanonicalProp (v : Option Json) : Bool := (v.map Field.isCanonicalField).getD false

/-- `registrationRecordProblem` -/
def registrationRecordProblem (rec : Json) : Option (List Char) :=
  match rec with
  | .obj _ =>
    if !isCount (rec.field "season") then
      some ("season ".toList ++ written (rec.field "season") ++ " is not a non-negative integer".toList)
    else match ["contextHash", "regNullifier", "commitment"].find? fun f => !isCanonicalProp (rec.field f) with
      | some f => some (f.toList ++ " is not a canonical field element".toList)
      | none =>
        if !isCount (rec.field "index") then
          some ("index ".toList ++ written (rec.field "index") ++ " is not a non-negative integer".toList)
        else if ((rec.field "engine").isSome || (rec.field "statement").isSome) &&
            !isValidEngineStatement (textProp (rec.field "engine")) (textProp (rec.field "statement")) then
          some ("engine/statement ".toList ++ written (rec.field "engine") ++ '/' :: written (rec.field "statement") ++
            " is not a valid pair".toList)
        else none
  | _ => some "not an object".toList

/-- The fields of a record without a problem. -/
def recordOf (rec : Json) : Record where
  season := Json.numberOf (rec.field "season")
  contextHash := (textProp (rec.field "contextHash")).getD ""
  regNullifier := (textProp (rec.field "regNullifier")).getD ""
  commitment := (textProp (rec.field "commitment")).getD ""
  engine := textProp (rec.field "engine")
  statement := textProp (rec.field "statement")
  index := match rec.field "index" with
    | some (.num d) => d.toInt.toNat
    | _ => 0

inductive Line
  | blank
  | notJson
  /-- With `String(rec.schedule)`. -/
  | header (schedule : List Char)
  | unusable (why : List Char)
  | record (r : Record)
deriving DecidableEq

/-- What `#load` takes a value for. -/
def lineOf (rec : Json) : Line :=
  if Json.isText "schedule" (rec.field "type") then .header (Json.textOf (rec.field "schedule"))
  else match registrationRecordProblem rec with
    | some why => .unusable why
    | none => .record (recordOf rec)

/-- What `#load` takes a line for. -/
def readLine (line : List Char) : Line :=
  let t := Js.trim line
  if t = [] then .blank
  else match Json.parse t with
    | none => .notJson
    | some rec => lineOf rec

/-! ## The lines in order -/

inductive LoadError
  | notJson (line : Nat)
  | otherSchedule (found : List Char)
  | unusable (line : Nat) (why : List Char)
  | repeats (line : Nat) (key : String)
  | declares (line : Nat) (declared first : Declaration)
  | noHeader
  | gap (bucket : String) (count maxIndex : Nat)
deriving DecidableEq

/-- `bucket[at] = rec`, at the first record of that key. -/
def replace (r : Record) : List Record → List Record
  | [] => []
  | q :: l => if q.key = r.key then r :: l else q :: replace r l

/-- One record of the file, onto the records before it. -/
def addRecord (line : Nat) (ix : Index) (r : Record) : Except LoadError Index :=
  if ix.has r.key then
    let bucket := ix.records r.bucket
    match bucket.find? fun q => decide (q.key = r.key) with
    | some first =>
      if sameRegistrationRecord first r then .ok { ix with byBucket := Assoc.set ix.byBucket r.bucket (replace r bucket) }
      else .error (.repeats line r.key)
    | none => .error (.repeats line r.key)
  else match ix.records r.bucket with
    | q :: _ => if q.declaration ≠ r.declaration then .error (.declares line r.declaration q.declaration) else .ok (ix.remember r)
    | [] => .ok (ix.remember r)

/-- What the loop over the lines keeps. -/
structure Scan where
  index : Index := {}
  seenHeader : Bool := false
  truncateTo : Option Nat := none

/-- A line that does not end the loop. -/
def takeLine (cfg : Config) (line : Nat) (s : Scan) : Line → Except LoadError Scan
  | .blank => .ok s
  | .notJson => .error (.notJson line)
  | .header found =>
    if cfg.schedule.any fun schedule => decide (found ≠ schedule.toList) then .error (.otherSchedule found)
    else .ok { s with seenHeader := true }
  | .unusable why => .error (.unusable line why)
  | .record r => do
    let ix ← addRecord line s.index r
    .ok { s with index := ix }

/-- The offset at which the lines after `done` begin. -/
def offset (done : List (List Char)) : Nat := Utf8.byteLength (['\n'].intercalate done) + if 0 < done.length then 1 else 0

/-- The loop; `done` are the lines before, and `unterminated` is `!raw.endsWith("\n")`. -/
def scan (cfg : Config) (unterminated : Bool) : List (List Char) → List (List Char) → Scan → Except LoadError Scan
  | _, [], s => .ok s
  | done, line :: rest, s =>
    if readLine line = .notJson ∧ unterminated = true ∧ (∀ l ∈ rest, Js.trim l = []) then
      .ok { s with truncateTo := some (offset done) }
    else do
      let s ← takeLine cfg (done.length + 1) s (readLine line)
      scan cfg unterminated (done ++ [line]) rest s

/-! ## The buckets in order -/

/-- `recs.sort((a, b) => a.index - b.index)`, and the bound on the last index. -/
def sortBucket (bucket : String × List Record) : Except LoadError (String × List Record) :=
  let recs := bucket.2.insertionSort fun a b => a.index ≤ b.index
  match recs.getLast? with
  | some last => if recs.length < last.index then .error (.gap bucket.1 recs.length last.index) else .ok (bucket.1, recs)
  | none => .ok (bucket.1, recs)

def sortIndex (ix : Index) : Except LoadError Index := do
  let byBucket ← ix.byBucket.mapM sortBucket
  .ok { ix with byBucket := byBucket }

/-! ## The whole load -/

/-- The text of `{ type: "schedule", schedule }` -/
def headerText (schedule : String) : List Char :=
  (Json.obj [("type", .str "schedule"), ("schedule", .str schedule)]).stringify

structure Loaded where
  /-- The file after the load; none is a file that does not exist. -/
  file : Option (List UInt8)
  tornTailDiscarded : Bool
  tornTailTerminated : Bool
  result : Except LoadError Index

/-- `truncate(path, n)`, which fills a shorter file up. -/
def truncate (n : Nat) (file : List UInt8) : List UInt8 := file.take n ++ List.replicate (n - file.length) 0

/-- `open(path, "a")` and a write. -/
def appendText (file : Option (List UInt8)) (text : List Char) : Option (List UInt8) :=
  some (file.getD [] ++ Utf8.encode text)

/-- The loop found a whole line without its line break. -/
def terminates (raw : List Char) (s : Scan) : Bool :=
  s.truncateTo.isNone && !raw.isEmpty && decide (raw.getLast? ≠ some '\n')

/-- The file ends on a record boundary. -/
def repair (raw : List Char) (file : Option (List UInt8)) (s : Scan) : Option (List UInt8) :=
  match s.truncateTo with
  | some n => file.map (truncate n)
  | none => if terminates raw s then appendText file ['\n'] else file

/-- The header, and the buckets in order. -/
def stamp (cfg : Config) (file : Option (List UInt8)) (discarded terminated : Bool) (ix : Index) (seenHeader : Bool) : Loaded :=
  match cfg.schedule with
  | none => ⟨file, discarded, terminated, sortIndex ix⟩
  | some schedule =>
    if seenHeader then ⟨file, discarded, terminated, sortIndex ix⟩
    else if !ix.seen.isEmpty && !cfg.assumeSchedule then ⟨file, discarded, terminated, .error .noHeader⟩
    else ⟨appendText file (headerText schedule ++ ['\n']), discarded, terminated, sortIndex ix⟩

/-- `#load` -/
def load (cfg : Config) (file : Option (List UInt8)) : Loaded :=
  let raw := Utf8.decode (file.getD [])
  match scan cfg (decide (raw.getLast? ≠ some '\n')) [] (raw.splitOn '\n') {} with
  | .error e => ⟨file, false, false, .error e⟩
  | .ok s => stamp cfg (repair raw file s) s.truncateTo.isSome (terminates raw s) s.index s.seenHeader

/-! ## An append -/

/-- The text of a record. -/
def recordText (r : Record) : List Char :=
  (Json.obj ([("season", r.season.toJson), ("contextHash", .str r.contextHash), ("regNullifier", .str r.regNullifier),
    ("commitment", .str r.commitment)] ++ (r.engine.map fun e => ("engine", Json.str e)).toList ++
    (r.statement.map fun s => ("statement", Json.str s)).toList ++ [("index", .num (.ofNat r.index))])).stringify

/-- A loaded store and its file. -/
structure Store where
  file : Option (List UInt8)
  index : Index

/-- `#appendOne` -/
def append (st : Store) (d : Draft) : Store × Answer :=
  match st.index.decideAppend d with
  | .answer a => (st, a)
  | .write r => (⟨appendText st.file (recordText r ++ ['\n']), st.index.remember r⟩, .stored r.index)

/-- Appends one after the other: the store after them, and the records that they stored. -/
def appendAll : Store → List Draft → Store × List Record
  | st, [] => (st, [])
  | st, d :: ds =>
    let rest := appendAll (append st d).1 ds
    match (append st d).2 with
    | .stored i => (rest.1, d.record i :: rest.2)
    | _ => rest

end RegistrationFile
