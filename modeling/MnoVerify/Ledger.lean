import MnoVerify.Assoc
import Mathlib.Data.Rat.Floor
import Mathlib.Logic.Relation

/-!
# The shared grant ledger

`adapters/common/grant_ledger.js` for any adapter: the statements on the database, what
one member's chain does between two platform calls, and one process at a time that
opens the file, runs and stops. `R` holds the records that the adapter's `validate`
accepts, `O` what `orphaned` returns. Scopes are compared after `String`.
-/

namespace Ledger

/-- What an adapter gives the ledger. -/
structure Adapter (R O : Type) where
  expiresAt : R → ℚ
  orphaned : R → R → Option O
  covering : R → O → Option R
  repairs : Bool

variable {R O : Type}

/-! ## The database -/

/-- A row of `grants`. A retirement rounds the column down. -/
structure Row (A : Adapter R O) where
  record : R
  column : ℚ
  rev : Nat
  column_le : column ≤ A.expiresAt record

structure Regression where
  observed : Int
  mark : Int
  at_ : Int

/-- The two tables; an absent `meta` key is `none`. -/
structure Database (A : Adapter R O) where
  grants : List (String × Row A)
  revSeq : Option Nat
  clockMark : Option Int
  clockRegressed : Option Regression
  scope : Option String
  importedFrom : Bool

namespace Database

variable {A : Adapter R O}

def row (db : Database A) (userId : String) : Option (Row A) := db.grants.lookup userId

/-- The revision that `nextRev` returns. -/
def freshRev (db : Database A) : Nat := match db.revSeq with
  | some n => n + 1
  | none => 1

def nextRev (db : Database A) : Database A := { db with revSeq := some db.freshRev }

/-- `put`, the second statement of `#put`. -/
def put (db : Database A) (userId : String) (record : R) (rev : Nat) : Database A :=
  { db with grants := Assoc.set db.grants userId ⟨record, A.expiresAt record, rev, le_rfl⟩ }

def del (db : Database A) (userId : String) (rev : Nat) : Database A :=
  if (db.row userId).map Row.rev = some rev then { db with grants := Assoc.erase db.grants userId } else db

def raiseMark (db : Database A) (t : Int) : Database A :=
  { db with clockMark := some (match db.clockMark with | some mark => max mark t | none => t) }

/-- `#observeClock`: the floor of this reading, and the marks it leaves. -/
def observeClock (db : Database A) (t : Int) : Database A × Int :=
  match db.clockMark with
  | none => (db.raiseMark t, t)
  | some mark =>
    if mark < t then (db.raiseMark t, t)
    else
      ({ db with clockRegressed := if t < mark ∧ db.clockRegressed.isNone then some ⟨t, mark, t⟩ else db.clockRegressed },
        max t mark)

/-- `due`: the members whose row has lapsed, in order. -/
def due (db : Database A) (floor : Int) : List String :=
  ((db.grants.filter fun p => decide (p.2.column ≤ (floor : ℚ))).map Prod.fst).mergeSort fun a b => decide (a ≤ b)

/-- `live`: the marks its reading leaves, and whether the member's record has not lapsed. -/
def live (db : Database A) (userId : String) (now : Int) : Database A × Bool :=
  let (db, floor) := db.observeClock now
  (db, match db.row userId with
    | some row => decide ((floor : ℚ) < A.expiresAt row.record)
    | none => false)

/-- `MAX(rev)`. -/
def highestRev (db : Database A) : Nat := (db.grants.map fun p => p.2.rev).foldr max 0

def seedRevSeq (db : Database A) : Database A := { db with revSeq := some (max (db.revSeq.getD 0) db.highestRev) }

end Database

/-! ## A member's chain -/

/-- What a write of `grant` is followed by. -/
inductive After (R O : Type)
  /-- The covering record is written: revoke the orphan. -/
  | migrate (record prev : R) (orphan : O)
  /-- The prior record is back, and the grant fails. -/
  | restored
  | apply (renewal : Bool)

/-- Where a member's running operation stands. -/
inductive Op (R O : Type)
  /-- In `#put`; `rev` is what its first statement allocated. -/
  | putting (record : R) (rev : Option Nat) (after : After R O)
  /-- `grant`: the revoke of the orphan is in flight; `covered` when a covering record was written. -/
  | migrating (record prev : R) (orphan : O) (covered : Bool)
  /-- `grant`: the apply is in flight. -/
  | applying (record : R) (renewal : Bool) (rev : Nat)
  /-- `sweep`, or a failed first `grant`: the revoke is in flight. -/
  | revoking (record : R) (rev : Nat)
  /-- About to delete the row. -/
  | deleting (rev : Nat)
  /-- `admitIfLive`: `admit` is in flight. -/
  | admitting (record : R)

/-- How a platform call settles; a rejection carries `e.mutated`. -/
inductive Outcome
  | resolved
  | rejected (mutated : Option Bool)

/-- What a member's running operation does next. -/
inductive Stmt
  | nextRev
  | put
  /-- A statement of `#put` throws. -/
  | putFails
  | del
  | settle (outcome : Outcome)

/-- The operation that follows a committed write. -/
def After.op (after : After R O) (record : R) (rev : Nat) : Option (Op R O) :=
  match after with
  | .migrate record prev orphan => some (.migrating record prev orphan true)
  | .restored => none
  | .apply renewal => some (.applying record renewal rev)

/-- `grant` from its read of the prior row. -/
def startGrant (A : Adapter R O) (prev : Option (Row A)) (record : R) : Op R O :=
  match prev with
  | none => .putting record none (.apply false)
  | some prev => match A.orphaned prev.record record with
    | none => .putting record none (.apply true)
    | some orphan => match A.covering record orphan with
      | some cover => .putting cover none (.migrate record prev.record orphan)
      | none => .migrating record prev.record orphan false

/-- How an operation takes the settling of its platform call. -/
def settle (A : Adapter R O) : Op R O → Outcome → Option (Op R O)
  | .migrating record _ _ _, .resolved => some (.putting record none (.apply true))
  | .migrating _ prev _ covered, .rejected _ => if covered then some (.putting prev none .restored) else none
  | .applying _ _ _, .resolved => none
  | .applying record renewal rev, .rejected mutated =>
    if renewal then none
    else if mutated = some false then some (.deleting rev)
    else if A.repairs then none
    else some (.revoking record rev)
  | .revoking _ rev, .resolved => some (.deleting rev)
  | .revoking _ _, .rejected _ => none
  | .admitting _, _ => none
  | op, _ => some op

/-- One statement of a member's operation, or the settling of its call; `none` when the
operation has ended. What the operation is not about to do changes nothing. -/
def advance {A : Adapter R O} (db : Database A) (userId : String) (op : Op R O) (s : Stmt) : Database A × Option (Op R O) :=
  match op, s with
  | .putting record none after, .nextRev => (db.nextRev, some (.putting record (some db.freshRev) after))
  | .putting record (some rev) after, .put => (db.put userId record rev, after.op record rev)
  | .putting _ _ _, .putFails => (db, none)
  | .deleting rev, .del => (db.del userId rev, none)
  | op, .settle outcome => (db, settle A op outcome)
  | op, _ => (db, some op)

/-! ## Opening the file -/

/-- A legacy JSON ledger. A record is `none` when `validate` refuses it. -/
inductive LegacyFile (R : Type)
  | malformed
  | parsed (grants : List (String × Option R)) (clockMark : Option Int) (clockRegressed : Option Regression)

/-- The options of one construction; `importFrom` is the file found there. -/
structure Opening (R : Type) where
  scope : Option String
  adoptScope : Option String
  importFrom : Option (LegacyFile R)
  allowForeignScope : Bool
  resetClock : Bool
  /-- Moving the migrated file aside works. -/
  renames : Bool

namespace Database

variable {A : Adapter R O}

def pendingLegacyCount (db : Database A) : Option (LegacyFile R) → Nat
  | none => 0
  | some file =>
    if db.grants.length > 0 ∨ db.importedFrom then 0
    else match file with
      | .malformed => 1
      | .parsed grants _ _ => grants.length

/-- `#refuseForeignScope`; `none` when it throws. -/
def refuseForeignScope (db : Database A) (o : Opening R) : Option (Database A) :=
  match db.scope, o.scope with
  | some bound, some scope =>
    if bound = scope then some db
    else if o.allowForeignScope then some db
    else if db.grants.length + db.pendingLegacyCount o.importFrom = 0 then some { db with scope := some scope }
    else none
  | _, _ => some db

/-- The transaction of `#importLegacy`. -/
def importRows (db : Database A) : List (String × Option R) → Option (Database A)
  | [] => some db
  | (userId, some record) :: grants => (db.nextRev.put userId record db.freshRev).importRows grants
  | (_, none) :: _ => none

/-- The marks of the legacy file. -/
def importMarks (db : Database A) (clockMark : Option Int) (clockRegressed : Option Regression) : Database A :=
  let db := match clockMark with
    | some mark => db.raiseMark mark
    | none => db
  { db with clockRegressed := clockRegressed.or db.clockRegressed, importedFrom := true }

/-- `#importLegacy`, and whether it did not throw. -/
def importLegacy (db : Database A) (o : Opening R) : Database A × Bool :=
  match o.importFrom with
  | none => (db, true)
  | some file =>
    if db.grants.length > 0 ∨ db.importedFrom then (db, true)
    else match file with
      | .malformed => (db, false)
      | .parsed grants clockMark clockRegressed => match db.importRows grants with
        | none => (db, false)
        | some db => (db.importMarks clockMark clockRegressed, o.renames)

/-- `#bindScope`; `none` when it throws. -/
def bindScope (db : Database A) (o : Opening R) : Option (Database A) :=
  match o.scope, db.scope with
  | some scope, none =>
    if db.grants.length = 0 then some { db with scope := some scope }
    else if o.adoptScope = some scope then some { db with scope := some scope }
    else none
  | _, _ => some db

/-- The last part of the constructor: the reset, then the comparison with the clock. -/
def startClock (db : Database A) (o : Opening R) (now : Int) : Database A :=
  if o.resetClock then ({ db with clockMark := none, clockRegressed := none }.observeClock now).1
  else (db.observeClock now).1

end Database

/-! ## Retirement -/

/-- What a retirement's `transform` returns. -/
inductive Retired (R : Type)
  /-- The record it was given. -/
  | same
  | drop
  | replace (record : R)
  /-- A record that `validate` refuses. -/
  | invalid

/-- The rows and the counter after `transform` has seen each row; `none` rolls back. -/
def retireRows {A : Adapter R O} (transform : R → String → Retired R) :
    List (String × Row A) → Option Nat → Option (List (String × Row A) × Option Nat)
  | [], revSeq => some ([], revSeq)
  | (userId, row) :: rows, revSeq => match transform row.record userId with
    | .same => (retireRows transform rows revSeq).map fun r => ((userId, row) :: r.1, r.2)
    | .drop => retireRows transform rows revSeq
    | .replace record =>
      let rev := revSeq.getD 0 + 1
      (retireRows transform rows (some rev)).map fun r =>
        ((userId, ⟨record, ⌊A.expiresAt record⌋, rev, Int.floor_le _⟩) :: r.1, r.2)
    | .invalid => none

def Database.retireAll {A : Adapter R O} (db : Database A) (transform : R → String → Retired R) : Database A :=
  match retireRows transform db.grants db.revSeq with
  | some (grants, revSeq) => { db with grants := grants, revSeq := revSeq }
  | none => db

/-! ## One process at a time -/

/-- The parts of the constructor, in order. The rows are valid, so `#validateAll` passes. -/
inductive Stage
  | seedRevSeq
  | refuseForeignScope
  | importLegacy
  | bindScope
  | startClock
deriving DecidableEq

inductive Phase (R : Type)
  | closed
  | opening (o : Opening R) (stage : Stage)
  | running (o : Opening R)

structure World (A : Adapter R O) where
  db : Database A
  phase : Phase R
  /-- The running operation of each member's chain. -/
  ops : List (String × Op R O)
  /-- What is left of the due list of each running sweep. -/
  sweeps : List (List String)

inductive Event (R : Type)
  | open_ (o : Opening R)
  /-- The constructor goes on. -/
  | next (now : Int)
  /-- The process ends, wherever it is. -/
  | stop
  | grant (userId : String) (record : R) (now : Int)
  | sweep (now : Int)
  /-- A sweep goes on to the next member of its due list. -/
  | sweepNext (sweep : Nat) (now : Int)
  | admitIfLive (userId : String) (now : Int) (matches_ : Bool)
  | live (userId : String) (now : Int)
  | chain (userId : String) (s : Stmt)
  | retireAll (transform : R → String → Retired R)

namespace World

variable {A : Adapter R O}

def op (w : World A) (userId : String) : Option (Op R O) := w.ops.lookup userId

def setOp (w : World A) (userId : String) (o : Op R O) : World A := { w with ops := Assoc.set w.ops userId o }

/-- The operation ends; the member's chain is free. -/
def done (w : World A) (userId : String) : World A := { w with ops := Assoc.erase w.ops userId }

def setDb (w : World A) (db : Database A) : World A := { w with db := db }

def close (w : World A) : World A := { w with phase := .closed, ops := [], sweeps := [] }

def running (w : World A) : Bool := match w.phase with
  | .running _ => true
  | _ => false

/-- A new operation of the member may start. -/
def free (w : World A) (userId : String) : Bool := w.running && (w.op userId).isNone

/-- One part of the constructor; what throws closes the file. -/
def openStage (w : World A) (o : Opening R) (now : Int) : Stage → World A
  | .seedRevSeq => { w with db := w.db.seedRevSeq, phase := .opening o .refuseForeignScope }
  | .refuseForeignScope => match w.db.refuseForeignScope o with
    | some db => { w with db := db, phase := .opening o .importLegacy }
    | none => w.close
  | .importLegacy => match w.db.importLegacy o with
    | (db, true) => { w with db := db, phase := .opening o .bindScope }
    | (db, false) => (w.setDb db).close
  | .bindScope => match w.db.bindScope o with
    | some db => { w with db := db, phase := .opening o .startClock }
    | none => w.close
  | .startClock => { w with db := w.db.startClock o now, phase := .running o }

/-- The part of `grant` before its first write. -/
def grant (w : World A) (userId : String) (record : R) (now : Int) : World A :=
  let (db, floor) := w.db.observeClock now
  let w := w.setDb db
  if A.expiresAt record ≤ floor then w else w.setOp userId (startGrant A (db.row userId) record)

/-- The part of `sweep` before the revoke of one member. -/
def sweepOne (w : World A) (userId : String) (now : Int) : World A :=
  match w.db.row userId with
  | none => w
  | some row =>
    let (db, floor) := w.db.observeClock now
    let w := w.setDb db
    if floor < A.expiresAt row.record then w else w.setOp userId (.revoking row.record row.rev)

/-- The part of `admitIfLive` before `admit`. -/
def admitIfLive (w : World A) (userId : String) (now : Int) (matches_ : Bool) : World A :=
  let (db, floor) := w.db.observeClock now
  let w := w.setDb db
  match db.row userId with
  | none => w
  | some row =>
    if A.expiresAt row.record ≤ floor then w else if !matches_ then w else w.setOp userId (.admitting row.record)

/-- A member's operation goes on. -/
def chain (w : World A) (userId : String) (s : Stmt) : World A :=
  match w.op userId with
  | none => w
  | some op => match advance w.db userId op s with
    | (db, some op) => (w.setDb db).setOp userId op
    | (db, none) => (w.setDb db).done userId

end World

/-- One event. One process has the file open at a time, and a member's chain runs one
operation at a time; an event that does not apply changes nothing. -/
def step {A : Adapter R O} (w : World A) : Event R → World A
  | .open_ o => match w.phase with
    | .closed => { w with phase := .opening o .seedRevSeq }
    | _ => w
  | .next now => match w.phase with
    | .opening o stage => w.openStage o now stage
    | _ => w
  | .stop => w.close
  | .grant userId record now => if w.free userId then w.grant userId record now else w
  | .sweep now =>
    if w.running then
      { w with db := (w.db.observeClock now).1
               sweeps := w.sweeps ++ [(w.db.observeClock now).1.due (w.db.observeClock now).2] }
    else w
  | .sweepNext i now => match w.sweeps[i]? with
    | some (userId :: rest) =>
      if w.free userId then ({ w with sweeps := w.sweeps.set i rest }).sweepOne userId now else w
    | _ => w
  | .admitIfLive userId now matches_ => if w.free userId then w.admitIfLive userId now matches_ else w
  | .live userId now => if w.running then w.setDb (w.db.live userId now).1 else w
  | .chain userId s => w.chain userId s
  | .retireAll transform => if w.running then w.setDb (w.db.retireAll transform) else w

def run {A : Adapter R O} (w : World A) (es : List (Event R)) : World A := es.foldl step w

@[simp] theorem run_nil {A : Adapter R O} (w : World A) : run w [] = w := rfl

@[simp] theorem run_cons {A : Adapter R O} (w : World A) (e : Event R) (es : List (Event R)) :
    run w (e :: es) = run (step w e) es := rfl

/-! ## What each part leaves alone -/

variable {A : Adapter R O}

theorem grants_observeClock (db : Database A) (t : Int) : (db.observeClock t).1.grants = db.grants := by
  unfold Database.observeClock
  split
  · rfl
  · split <;> rfl

theorem row_observeClock (db : Database A) (t : Int) (u : String) : (db.observeClock t).1.row u = db.row u := by
  rw [Database.row, grants_observeClock]; rfl

theorem op_setOp_self (w : World A) (u : String) (op : Op R O) : (w.setOp u op).op u = some op := by
  rw [World.setOp, World.op, Assoc.lookup_set_self]

theorem op_setOp_of_ne {u u' : String} (h : u ≠ u') (w : World A) (op : Op R O) : (w.setOp u' op).op u = w.op u := by
  rw [World.setOp, World.op, Assoc.lookup_set_of_ne h]; rfl

theorem op_done_self (w : World A) (u : String) : (w.done u).op u = none := by
  rw [World.done, World.op, Assoc.lookup_erase_self]

theorem op_done_of_ne {u u' : String} (h : u ≠ u') (w : World A) : (w.done u').op u = w.op u := by
  rw [World.done, World.op, Assoc.lookup_erase_of_ne h]; rfl

theorem db_grant (w : World A) (u : String) (record : R) (now : Int) :
    (w.grant u record now).db = (w.db.observeClock now).1 := by
  unfold World.grant
  dsimp only
  split <;> rfl

theorem db_sweepOne {w : World A} {u : String} (now : Int) (h : (w.db.row u).isSome) :
    (w.sweepOne u now).db = (w.db.observeClock now).1 := by
  obtain ⟨row, hrow⟩ := Option.isSome_iff_exists.1 h
  unfold World.sweepOne
  rw [hrow]
  dsimp only
  split <;> rfl

theorem db_admitIfLive (w : World A) (u : String) (now : Int) (matches_ : Bool) :
    (w.admitIfLive u now matches_).db = (w.db.observeClock now).1 := by
  unfold World.admitIfLive
  dsimp only
  cases (w.db.observeClock now).1.row u with
  | none => rfl
  | some row =>
    dsimp only
    split
    · rfl
    split <;> rfl

theorem db_chain (w : World A) (u : String) (s : Stmt) :
    (w.chain u s).db = w.db ∨ ∃ op, w.op u = some op ∧ (w.chain u s).db = (advance w.db u op s).1 := by
  unfold World.chain
  cases hop : w.op u with
  | none => exact .inl rfl
  | some op =>
    right
    refine ⟨op, rfl, ?_⟩
    dsimp only
    rcases advance w.db u op s with ⟨db, _ | op'⟩ <;> rfl

/-- `w'` has the phase and the sweeps of `w`. -/
def Frame (w w' : World A) : Prop := w'.phase = w.phase ∧ w'.sweeps = w.sweeps

theorem running_of_frame {w w' : World A} (h : Frame w w') (hr : w.running = true) : w'.running = true := by
  rw [World.running, h.1]; exact hr

theorem frame_grant (w : World A) (u : String) (record : R) (now : Int) : Frame w (w.grant u record now) := by
  unfold World.grant
  dsimp only
  split <;> exact ⟨rfl, rfl⟩

theorem frame_sweepOne (w : World A) (u : String) (now : Int) : Frame w (w.sweepOne u now) := by
  unfold World.sweepOne
  cases w.db.row u with
  | none => exact ⟨rfl, rfl⟩
  | some row => dsimp only; split <;> exact ⟨rfl, rfl⟩

theorem frame_admitIfLive (w : World A) (u : String) (now : Int) (matches_ : Bool) :
    Frame w (w.admitIfLive u now matches_) := by
  unfold World.admitIfLive
  dsimp only
  cases (w.db.observeClock now).1.row u with
  | none => exact ⟨rfl, rfl⟩
  | some row =>
    dsimp only
    split
    · exact ⟨rfl, rfl⟩
    split <;> exact ⟨rfl, rfl⟩

theorem frame_chain (w : World A) (u : String) (s : Stmt) : Frame w (w.chain u s) := by
  unfold World.chain
  cases w.op u with
  | none => exact ⟨rfl, rfl⟩
  | some op =>
    dsimp only
    rcases advance w.db u op s with ⟨db, _ | op'⟩ <;> exact ⟨rfl, rfl⟩

theorem running_of_free {w : World A} {u : String} (h : w.free u = true) : w.running = true := by
  simp only [World.free, Bool.and_eq_true] at h
  exact h.1

/-! ## The constructor's defaults -/

/-- Records that are only a deadline, with the defaults of `orphaned`, `covering` and `repairs`. -/
def deadlineOnly : Adapter ℚ Unit := ⟨id, fun _ _ => none, fun _ _ => none, false⟩

def Opening.plain : Opening R := ⟨none, none, none, false, false, true⟩

/-- A file that does not exist yet. -/
def World.fresh : World A := ⟨⟨[], none, none, none, none, false⟩, .closed, [], []⟩

/-- A construction that runs to its end. -/
def opened (o : Opening R) (now : Int) : List (Event R) :=
  [.open_ o, .next now, .next now, .next now, .next now, .next now]

/-- A first grant that is applied. -/
def granted (userId : String) (record : R) (now : Int) : List (Event R) :=
  [.grant userId record now, .chain userId .nextRev, .chain userId .put, .chain userId (.settle .resolved)]

end Ledger
