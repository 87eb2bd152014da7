import MnoVerify.Assoc
import Mathlib.Algebra.Order.Field.Rat
import Mathlib.Logic.Relation

/-!
# The Discord grant ledger

`adapters/common/grant_ledger.js` with the record shapes of
`adapters/discord/grant_ledger.js`. The world is the database, what is live on the
platform, and the operation that each member's chain is running. An event is one
synchronous stretch of code, one statement, one effect of a platform call in
flight, or the settling of that call; the process may stop between any two.
-/

namespace GrantLedger

inductive Mode
  | channel
  | role
deriving DecidableEq

/-- The part of a record that names what it gives access to. -/
structure Targets where
  mode : Mode
  channels : List String
  roleId : Option String
deriving DecidableEq

structure Record extends Targets where
  expiresAt : ℚ
deriving DecidableEq

/-- A place on the platform. -/
inductive Target
  | channel (id : String)
  | role (id : String)
deriving DecidableEq

/-- What a record names. -/
def Targets.list (r : Targets) : List Target :=
  match r.mode with
  | .channel => r.channels.map .channel
  | .role => r.roleId.toList.map .role

def isValidRecord (r : Record) : Bool :=
  match r.mode with
  | .channel => !r.channels.isEmpty && r.channels.all fun c => decide (c ≠ "")
  | .role => match r.roleId with
    | some id => decide (id ≠ "")
    | none => false

/-- The targets in `a` that `b` does not already cover. -/
def extraTargets (a b : Targets) : Option Targets :=
  match a.mode with
  | .channel =>
    let covered := if b.mode = .channel then b.channels else []
    let channels := a.channels.filter fun c => decide (c ∉ covered)
    if channels.isEmpty then none else some ⟨.channel, channels, none⟩
  | .role =>
    let coveredRole := if b.mode = .role then b.roleId else none
    match a.roleId with
    | some id => if id ≠ "" ∧ some id ≠ coveredRole then some ⟨.role, [], some id⟩ else none
    | none => none

/-- `coveringTargets`: the record written before the orphan is revoked. -/
def coveringTargets (record : Record) (orphan : Targets) : Record :=
  if record.mode ≠ .channel ∨ orphan.mode ≠ .channel then record
  else { record with channels := (record.channels ++ orphan.channels).eraseDups }

/-! ## The database -/

structure Regression where
  observed : Int
  mark : Int
  at_ : Int

structure Database where
  grants : List (String × Record × Nat)
  revSeq : Nat
  clockMark : Option Int
  clockRegressed : Option Regression

namespace Database

def row (db : Database) (userId : String) : Option (Record × Nat) := db.grants.lookup userId

/-- `nextRev`, the first statement of `#put`. -/
def nextRev (db : Database) : Database := { db with revSeq := db.revSeq + 1 }

/-- `#put`: the row at a fresh revision. -/
def put (db : Database) (userId : String) (record : Record) : Database :=
  { db.nextRev with grants := Assoc.set db.grants userId (record, db.nextRev.revSeq) }

/-- `del`: one statement, conditional on the revision. -/
def del (db : Database) (userId : String) (rev : Nat) : Database :=
  if (db.row userId).map Prod.snd = some rev then { db with grants := Assoc.erase db.grants userId } else db

/-- `#observeClock`: the floor of this reading, and the marks it leaves. -/
def observeClock (db : Database) (t : Int) : Database × Int :=
  match db.clockMark with
  | none => ({ db with clockMark := some t }, t)
  | some mark =>
    if mark < t then ({ db with clockMark := some t }, t)
    else
      ({ db with clockRegressed := if t < mark ∧ db.clockRegressed.isNone then some ⟨t, mark, t⟩ else db.clockRegressed },
        max t mark)

/-- `due`: the members whose record has lapsed, in order. -/
def due (db : Database) (floor : Int) : List String :=
  ((db.grants.filter fun p => decide (p.2.1.expiresAt ≤ (floor : ℚ))).map Prod.fst).mergeSort fun a b => decide (a ≤ b)

end Database

/-! ## The operations -/

/-- Where a member's running operation stands. -/
inductive Op
  /-- `grant`: about to write the covering record. -/
  | covering (record prev : Record) (orphan : Targets)
  /-- `grant`: the revoke of the orphan is in flight. -/
  | migrating (record prev : Record) (orphan : Targets)
  /-- `grant`: the orphan was not revoked, and the prior record is about to be put back. -/
  | restoring (prev : Record)
  /-- `grant`: about to write the record. -/
  | writing (record : Record) (renewal : Bool)
  /-- `grant`: the apply is in flight. -/
  | applying (record : Record) (renewal : Bool) (rev : Nat)
  /-- `sweep`, or a failed first `grant`: the revoke is in flight. -/
  | revoking (record : Record) (rev : Nat)
  /-- About to delete the row. -/
  | deleting (rev : Nat)
  /-- `admitIfLive`: `admit` is in flight. -/
  | admitting (record : Record)

structure World where
  db : Database
  /-- What could be live on the platform. -/
  live : List (String × Target)
  /-- The running operation of each member's chain. -/
  ops : List (String × Op)
  /-- What is left of the due list of each running sweep. -/
  sweeps : List (List String)

/-- How a platform call settles; a rejection carries `e.mutated`. -/
inductive Outcome
  | resolved
  | rejected (mutated : Option Bool)

inductive Event
  | grant (userId : String) (record : Record) (now : Int)
  | sweep (now : Int)
  /-- A sweep goes on to the next member of its due list. -/
  | sweepNext (sweep : Nat) (now : Int)
  | admitIfLive (userId : String) (now : Int) (matches_ : Bool)
  | live (now : Int)
  /-- Only the first statement of the pending `#put`. -/
  | nextRev (userId : String)
  /-- The pending `#put`, which commits or fails. -/
  | put (userId : String) (commits : Bool)
  | del (userId : String)
  /-- An effect of the call in flight on one target. -/
  | effect (userId : String) (target : Target)
  | settle (userId : String) (outcome : Outcome)
  | stop
  | start (resetClock : Bool) (now : Int)

namespace World

def op (w : World) (userId : String) : Option Op := w.ops.lookup userId

def setOp (w : World) (userId : String) (o : Op) : World := { w with ops := Assoc.set w.ops userId o }

/-- The operation ends; the member's chain is free. -/
def done (w : World) (userId : String) : World := { w with ops := Assoc.erase w.ops userId }

def setDb (w : World) (db : Database) : World := { w with db := db }

def isLive (w : World) (userId : String) (t : Target) : Prop := (userId, t) ∈ w.live

instance (w : World) (userId : String) (t : Target) : Decidable (w.isLive userId t) :=
  inferInstanceAs (Decidable (_ ∈ _))

/-- Access given. -/
def give (w : World) (userId : String) (ts : List Target) : World :=
  { w with live := ts.map (fun t => (userId, t)) ++ w.live }

/-- Access taken back. -/
def takeBack (w : World) (userId : String) (ts : List Target) : World :=
  { w with live := w.live.filter fun p => decide (¬ (p.1 = userId ∧ p.2 ∈ ts)) }

/-- The part of `grant` before its first write. -/
def grant (w : World) (userId : String) (record : Record) (now : Int) : World :=
  if !isValidRecord record then w
  else
    let (db, floor) := w.db.observeClock now
    let w := w.setDb db
    if record.expiresAt ≤ floor then w
    else match db.row userId with
      | none => w.setOp userId (.writing record false)
      | some (prev, _) => match extraTargets prev.toTargets record.toTargets with
        | some orphan => w.setOp userId (.covering record prev orphan)
        | none => w.setOp userId (.writing record true)

/-- The part of `sweep` before the revoke of one member. -/
def sweepOne (w : World) (userId : String) (now : Int) : World :=
  match w.db.row userId with
  | none => w
  | some (record, rev) =>
    let (db, floor) := w.db.observeClock now
    let w := w.setDb db
    if floor < record.expiresAt then w else w.setOp userId (.revoking record rev)

/-- The part of `admitIfLive` before `admit`. -/
def admitIfLive (w : World) (userId : String) (now : Int) (matches_ : Bool) : World :=
  let (db, floor) := w.db.observeClock now
  let w := w.setDb db
  match db.row userId with
  | none => w
  | some (record, _) =>
    if record.expiresAt ≤ floor then w else if !matches_ then w else w.setOp userId (.admitting record)

/-- The pending `put` of the member's operation. -/
def put (w : World) (userId : String) (commits : Bool) : World :=
  match w.op userId with
  | some (.covering record prev orphan) =>
    if commits then
      (w.setDb (w.db.put userId (coveringTargets record orphan))).setOp userId (.migrating record prev orphan)
    else w.done userId
  | some (.restoring prev) => if commits then (w.setDb (w.db.put userId prev)).done userId else w.done userId
  | some (.writing record renewal) =>
    if commits then (w.setDb (w.db.put userId record)).setOp userId (.applying record renewal w.db.nextRev.revSeq)
    else w.done userId
  | _ => w

/-- The member's operation is about to `put`. -/
def putting (w : World) (userId : String) : Bool :=
  match w.op userId with
  | some (.covering ..) => true
  | some (.restoring _) => true
  | some (.writing ..) => true
  | _ => false

/-- The call in flight changes one of its targets. -/
def effect (w : World) (userId : String) (t : Target) : World :=
  match w.op userId with
  | some (.migrating _ _ orphan) => if t ∈ orphan.list then w.takeBack userId [t] else w
  | some (.revoking record _) => if t ∈ record.list then w.takeBack userId [t] else w
  | some (.applying record _ _) => if t ∈ record.list then w.give userId [t] else w
  | some (.admitting record) => if t ∈ record.list then w.give userId [t] else w
  | _ => w

/-- The call in flight settles. `repairs` is the adapter's policy for a failed first grant. -/
def settle (repairs : Bool) (w : World) (userId : String) (outcome : Outcome) : World :=
  match w.op userId, outcome with
  | some (.migrating record _ orphan), .resolved => (w.takeBack userId orphan.list).setOp userId (.writing record true)
  | some (.migrating _ prev _), .rejected _ => w.setOp userId (.restoring prev)
  | some (.applying record _ _), .resolved => (w.give userId record.list).done userId
  | some (.applying record renewal rev), .rejected mutated =>
    if renewal then w.done userId
    else if mutated = some false then w.setOp userId (.deleting rev)
    else if repairs then w.done userId
    else w.setOp userId (.revoking record rev)
  | some (.revoking record rev), .resolved => (w.takeBack userId record.list).setOp userId (.deleting rev)
  | some (.revoking _ _), .rejected _ => w.done userId
  | some (.admitting _), _ => w.done userId
  | _, _ => w

end World

/-- One event. A member's chain runs one operation at a time; an event that does not
apply changes nothing. -/
def step (repairs : Bool) (w : World) : Event → World
  | .grant userId record now => if (w.op userId).isNone then w.grant userId record now else w
  | .sweep now =>
    let (db, floor) := w.db.observeClock now
    { w with db := db, sweeps := w.sweeps ++ [db.due floor] }
  | .sweepNext i now => match w.sweeps[i]? with
    | some (userId :: rest) =>
      if (w.op userId).isNone then ({ w with sweeps := w.sweeps.set i rest }).sweepOne userId now else w
    | _ => w
  | .admitIfLive userId now matches_ => if (w.op userId).isNone then w.admitIfLive userId now matches_ else w
  | .live now => w.setDb (w.db.observeClock now).1
  | .nextRev userId => if w.putting userId then w.setDb w.db.nextRev else w
  | .put userId commits => w.put userId commits
  | .del userId => match w.op userId with
    | some (.deleting rev) => (w.setDb (w.db.del userId rev)).done userId
    | _ => w
  | .effect userId t => w.effect userId t
  | .settle userId outcome => w.settle repairs userId outcome
  | .stop => { w with ops := [], sweeps := [] }
  | .start resetClock now =>
    if resetClock then w.setDb ({ w.db with clockMark := none, clockRegressed := none }.observeClock now).1
    else w.setDb (w.db.observeClock now).1

end GrantLedger
