import MnoVerify.Durable
import MnoVerify.RegistrationFile
import Mathlib.Logic.Relation

/-!
# The file backend

`FileBackend` of `core/registration_store.js` behind `RegistrationStore`, as a state machine: any number of calls of one
process, the load and the reconciliation that they share, and the disk under them. A step takes a call, the load or the
reconciliation from one `await` to the next. The directory of the file exists, so `mkdir` creates nothing.
-/

namespace RegistrationBackend

open Registration RegistrationFile
open Durable (Disk Session Op Outcome)

/-! ## Reads -/

inductive Query
  | has (season : Js.Num) (contextHash regNullifier : String)
  | forSeasonContext (season : Js.Num) (contextHash : String)
  | declarationFor (season : Js.Num) (contextHash : String)
  | seasonHasEngine (season : Js.Num) (engine : String)

inductive Reply
  | has (known : Bool)
  | records (rs : List Record)
  | declaration (d : Option Declaration)
  | engine (declared : Bool)
  | append (a : Answer)

/-- What a read answers from the maps. -/
def Query.answer (ix : Index) : Query → Reply
  | has season contextHash regNullifier => .has (ix.has (uniqueKey season contextHash regNullifier))
  | forSeasonContext season contextHash => .records (ix.forSeasonContext season contextHash)
  | declarationFor season contextHash => .declaration (ix.declarationFor season contextHash)
  | seasonHasEngine season engine => .engine (ix.seasonHasEngine season engine)

/-! ## The load -/

/-- Where `#load` stands: the operation that it awaits, and its variables. -/
inductive LoadPc
  | mkdir
  | reading
  | truncating (n : Nat) (s : Scan)
  /-- The file ends on a whole line that is not terminated, or has not been synced by this process. -/
  | repairing (work : Session) (ix : Index) (seenHeader : Bool)
  | stamping (work : Session) (ix : Index)
  | naming (work : Session) (ix : Index)

inductive LoadTurn
  | goes (pc : LoadPc)
  | installs (ix : Index)
  | throws

/-- The buckets are put in order and the maps installed. -/
def finish (ix : Index) : LoadTurn :=
  match sortIndex ix with
  | .ok ix => .installs ix
  | .error _ => .throws

section
variable (cfg : Config)

/-- The directory is flushed once in a process. -/
def afterStamp (dirEnsured : Bool) (ix : Index) : LoadTurn :=
  if cfg.schedule.isSome && !dirEnsured then .goes (.naming (.opening .directory [.syncDir]) ix) else finish ix

def afterRepair (dirEnsured : Bool) (ix : Index) (seenHeader : Bool) : LoadTurn :=
  match cfg.schedule with
  | none => afterStamp cfg dirEnsured ix
  | some schedule =>
    if seenHeader then afterStamp cfg dirEnsured ix
    else if !ix.seen.isEmpty && !cfg.assumeSchedule then .throws
    else .goes (.stamping (.opening .append [.append (Utf8.encode (headerText schedule ++ ['\n'])), .sync]) ix)

/-- The lines have been read. -/
def afterScan (dirEnsured : Bool) (raw : List Char) (s : Scan) : LoadTurn :=
  match s.truncateTo with
  | some n => .goes (.truncating n s)
  | none =>
    if terminates raw s then
      .goes (.repairing (.opening .append [.sync, .append (Utf8.encode ['\n']), .sync]) s.index s.seenHeader)
    else if cfg.schedule.isSome && !s.index.seen.isEmpty then
      .goes (.repairing (.opening .existing [.sync]) s.index s.seenHeader)
    else afterRepair cfg dirEnsured s.index s.seenHeader

/-- A session of the load; a file that is missing where it is opened throws. -/
def work (step : Disk × Durable.Turn) (ensured : Bool) (goes : Session → LoadPc) (returns : Bool × LoadTurn) :
    Disk × Bool × LoadTurn :=
  match step.2 with
  | .goes s => (step.1, ensured, .goes (goes s))
  | .returns => (step.1, returns)
  | _ => (step.1, ensured, .throws)

/-- One operation of `#load`: the disk, `#dirEnsured`, and where the load goes on. -/
def LoadPc.next (d : Disk) (ensured : Bool) : LoadPc → Outcome → Disk × Bool × LoadTurn
  | mkdir, .done => (d, ensured, .goes reading)
  | reading, .done =>
    let raw := Utf8.decode d.bytes
    match scan cfg (decide (raw.getLast? ≠ some '\n')) [] (raw.splitOn '\n') {} with
    | .error _ => (d, ensured, .throws)
    | .ok s => (d, ensured, afterScan cfg ensured raw s)
  | truncating n s, .done => (d.truncate n, ensured, afterRepair cfg ensured s.index s.seenHeader)
  | repairing w ix seenHeader, o =>
    work (w.next d o) ensured (repairing · ix seenHeader) (ensured, afterRepair cfg ensured ix seenHeader)
  | stamping w ix, o => work (w.next d o) ensured (stamping · ix) (ensured, afterStamp cfg ensured ix)
  | naming w ix, o => work (w.next d o) ensured (naming · ix) (true, finish ix)
  | _, .fails _ => (d, ensured, .throws)

end

/-! ## The process -/

inductive Loading
  | none
  | running (pc : LoadPc)
  | fulfilled

/-- `#reconcile`, and the reaction of its promise. -/
inductive Attempt
  | barrier (work : Session)
  | loading (pc : LoadPc)
  | returned (ok : Bool)

/-- Where a call stands. -/
inductive Pc
  | idle
  /-- Behind the appends before it. -/
  | queued
  | entering
  /-- At `await this.ready()`. -/
  | waiting
  | loaded (ok : Bool)
  /-- At `await this.#reconcile()`. -/
  | joining
  | joined (ok : Bool)
  /-- `#ready` has returned. -/
  | current
  | writing (work : Session) (r : Record)
  /-- At the barrier after a write that failed. -/
  | barring (work : Session) (r : Record)
  | settling (r : Record)
  | settled (r : Record) (ok : Bool)
  | replied (reply : Reply)
  | rejected

inductive Kind
  | read (q : Query)
  | append (g : Given)

structure Proc where
  index : Index
  stale : Bool
  unbarriered : Bool
  dirEnsured : Bool
  loading : Loading
  reconciling : Option Attempt
  /-- The appends of `_tail`. -/
  tail : List Nat
  calls : Nat → Pc

def Proc.fresh : Proc := ⟨{}, false, false, false, .none, none, [], fun _ => .idle⟩

structure World where
  disk : Disk
  proc : Proc
  /-- The records of the appends that have answered `{ duplicate: false }`. -/
  acked : List Record

namespace Proc

variable (p : Proc)

def goto (i : Nat) (pc : Pc) : Proc := { p with calls := fun j => if j = i then pc else p.calls j }

/-- A call is over; the next append may begin. -/
def finish (i : Nat) (pc : Pc) : Proc := { p.goto i pc with tail := p.tail.erase i }

/-- `#mark` -/
def mark : Proc := { p with stale := true, unbarriered := true }

/-- The reactions of a promise that is settled. -/
def wake (f : Pc → Pc) : Proc := { p with calls := fun j => f (p.calls j) }

/-- `#reconcile`, where none is running. -/
def reconcile : Proc :=
  match p.reconciling with
  | some _ => p
  | none =>
    let a : Attempt := if p.unbarriered then .barrier (.opening .existing [.sync]) else .loading .mkdir
    { p with reconciling := some a }

end Proc

/-- The reactions to the load of `ready`. -/
def Pc.onLoad (ok : Bool) : Pc → Pc
  | waiting => loaded ok
  | pc => pc

/-- The reactions to the reconciliation. -/
def Pc.onAttempt (ok : Bool) : Pc → Pc
  | joining => joined ok
  | settling r => settled r ok
  | pc => pc

inductive Act
  | call (i : Nat) (o : Outcome)
  | load (o : Outcome)
  | attempt (o : Outcome)
  | writeBack (n : Nat)
  /-- The process is stopped, and starts again. -/
  | restart
  | powerLoss (kept : Bool)

section
variable (cfg : Config) (kind : Nat → Kind)

namespace World

variable (w : World)

/-- `ready()` -/
def enter (i : Nat) : World :=
  match w.proc.loading with
  | .none => { w with proc := { w.proc.goto i .waiting with loading := .running .mkdir } }
  | .running _ => { w with proc := w.proc.goto i .waiting }
  | .fulfilled => { w with proc := w.proc.goto i (.loaded true) }

/-- The view is taken for good, or reconciled. -/
def consult (i : Nat) : World :=
  if !w.proc.stale && !w.proc.unbarriered then { w with proc := w.proc.goto i .current }
  else { w with proc := (w.proc.goto i .joining).reconcile }

/-- The rest of a read, or of `#appendOne` up to its write. -/
def proceed (i : Nat) : World :=
  match kind i with
  | .read q => { w with proc := w.proc.finish i (.replied (q.answer w.proc.index)) }
  | .append g =>
    match g.check with
    | .error why => { w with proc := w.proc.finish i (.replied (.append (.invalid why))) }
    | .ok d =>
      match w.proc.index.decideAppend d with
      | .answer a => { w with proc := w.proc.finish i (.replied (.append a)) }
      | .write r =>
        let line := Utf8.encode (recordText r ++ ['\n'])
        { w with proc := w.proc.goto i (.writing (.opening .append [.append line, .sync]) r) }

/-- An operation of the write, with the reactions of its two `catch` clauses. -/
def write (i : Nat) (s : Session) (r : Record) (o : Outcome) : World :=
  let (d, t) := s.next w.disk o
  match t with
  | .goes (.closing true) =>
    { w with disk := d, proc := { w.proc.goto i (.writing (.closing true) r) with index := w.proc.index.remember r } }
  | .goes (.closing false) => { w with disk := d, proc := (w.proc.goto i (.writing (.closing false) r)).mark }
  | .goes s => { w with disk := d, proc := w.proc.goto i (.writing s r) }
  | .returns =>
    { disk := d, proc := w.proc.finish i (.replied (.append (.stored r.index))), acked := w.acked ++ [r] }
  | _ => { w with disk := d, proc := (w.proc.goto i (.barring (.opening .existing [.sync]) r)).mark }

/-- The barrier after a failed write. -/
def bar (i : Nat) (s : Session) (r : Record) (o : Outcome) : World :=
  let (d, t) := s.next w.disk o
  match t with
  | .goes s => { w with disk := d, proc := w.proc.goto i (.barring s r) }
  | .returns => { w with disk := d, proc := (w.proc.goto i (.settling r)).reconcile }
  | _ => { w with disk := d, proc := w.proc.finish i .rejected }

/-- What the reconciliation has found of the write. -/
def settle (i : Nat) (r : Record) : World :=
  match (w.proc.index.records r.bucket).find? fun q => decide (q.key = r.key) with
  | some found =>
    if sameRegistrationRecord found r then
      { w with proc := w.proc.finish i (.replied (.append (.stored found.index))), acked := w.acked ++ [found] }
    else { w with proc := w.proc.finish i (.replied (.append .duplicate)) }
  | none => { w with proc := w.proc.finish i .rejected }

/-- A call goes on. -/
def call (i : Nat) (o : Outcome) : Option World :=
  match w.proc.calls i with
  | .idle =>
    match kind i with
    | .read _ => some { w with proc := w.proc.goto i .entering }
    | .append g =>
      match g.check with
      | .error why => some { w with proc := w.proc.goto i (.replied (.append (.invalid why))) }
      | .ok _ => some { w with proc := { w.proc.goto i .queued with tail := w.proc.tail ++ [i] } }
  | .queued => if w.proc.tail.head? = some i then some (w.enter i) else none
  | .entering => some (w.enter i)
  | .loaded true => some (w.consult i)
  | .loaded false => some { w with proc := w.proc.finish i .rejected }
  | .joined true => some { w with proc := w.proc.goto i .current }
  | .joined false => some { w with proc := w.proc.finish i .rejected }
  | .current => some (w.proceed kind i)
  | .writing s r => some (w.write i s r o)
  | .barring s r => some (w.bar i s r o)
  | .settled r true => some (w.settle i r)
  | .settled _ false => some { w with proc := w.proc.finish i .rejected }
  | _ => none

/-- The load of `ready` goes on. -/
def load (o : Outcome) : Option World :=
  match w.proc.loading with
  | .running pc =>
    let (d, ensured, t) := pc.next cfg w.disk w.proc.dirEnsured o
    match t with
    | .goes pc => some { w with disk := d, proc := { w.proc with dirEnsured := ensured, loading := .running pc } }
    | .installs ix =>
      some { w with disk := d, proc := { w.proc.wake (Pc.onLoad true) with
        dirEnsured := ensured, loading := .fulfilled, index := ix } }
    | .throws =>
      some { w with disk := d, proc := { w.proc.wake (Pc.onLoad false) with dirEnsured := ensured, loading := .none } }
  | _ => none

/-- The reconciliation goes on; its slot is given back with its reaction. -/
def attempt (o : Outcome) : Option World :=
  match w.proc.reconciling with
  | some (.barrier s) =>
    let (d, t) := s.next w.disk o
    let a := match t with
      | .goes s => .barrier s
      | .throws => .returned false
      | _ => .loading .mkdir
    some { w with disk := d, proc := { w.proc with reconciling := some a } }
  | some (.loading pc) =>
    let (d, ensured, t) := pc.next cfg w.disk w.proc.dirEnsured o
    match t with
    | .goes pc => some { w with disk := d, proc := { w.proc with dirEnsured := ensured, reconciling := some (.loading pc) } }
    | .installs ix =>
      some { w with disk := d, proc := { w.proc with
        dirEnsured := ensured, reconciling := some (.returned true), index := ix } }
    | .throws =>
      some { w with disk := d, proc := { w.proc with dirEnsured := ensured, reconciling := some (.returned false) } }
  | some (.returned true) =>
    some { w with proc := { w.proc.wake (Pc.onAttempt true) with stale := false, unbarriered := false, reconciling := none } }
  | some (.returned false) =>
    some { w with proc := { w.proc.wake (Pc.onAttempt false) with stale := true, reconciling := none } }
  | none => none

end World

/-- A process on what the disk has. -/
def World.boot (d : Disk) : World := ⟨d, .fresh, []⟩

def step (w : World) : Act → Option World
  | .call i o => w.call kind i o
  | .load o => w.load cfg o
  | .attempt o => w.attempt cfg o
  | .writeBack n => some { w with disk := w.disk.writeBack n }
  | .restart => some { w with proc := .fresh }
  | .powerLoss kept => some { w with disk := w.disk.powerLoss kept, proc := .fresh }

/-- A run, of any number of steps. -/
def Runs (w w' : World) : Prop := Relation.ReflTransGen (fun w w' => ∃ a, step cfg kind w a = some w') w w'

end

end RegistrationBackend
