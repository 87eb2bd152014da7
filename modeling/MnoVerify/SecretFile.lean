import MnoVerify.Gateway
import MnoVerify.JsonIndent
import MnoVerify.Snapshot

/-!
# The member secret file

`prover/secret_file.js` and `register` of `prover/two_tier.js`, on one path. A file has the text that a read sees and the
text that is on the disk, and so has the directory entry of the path; a sync brings the second up to the first. Any number
of runs take their operations in any order; an operation may fail, and a run may stop before any of them.
-/

namespace SecretFile

open Snapshot (present)
open Gateway (truthy)
open Json (isText)

/-! ## Records -/

/-- What a call of `register` brings along; `secret` is what it draws if it needs a new one. -/
structure Run where
  platform : String
  community : String
  role : String
  season : String
  contextHash : String
  secret : String

/-- The record that `writePendingSecret` writes. -/
def pendingRecord (r : Run) : Json :=
  .obj [("status", .str "pending"), ("secret", .str r.secret), ("platform", .str r.platform),
    ("community", .str r.community), ("role", .str r.role), ("season", .str r.season), ("contextHash", .str r.contextHash)]

/-- A member of a spread object; what is undefined is not written. -/
def spread (m : List (String × Json)) (k : String) : Option Json → List (String × Json)
  | some v => Assoc.set m k v
  | none => Assoc.erase m k

def members : Json → List (String × Json)
  | .obj m => m
  | _ => []

/-- `{ ...current, ...extra, status: "accepted" }`, with the `extra` of `register`. -/
def acceptedRecord (current res : Json) : Json :=
  .obj (Assoc.set (spread (spread (members current) "index" (res.field "index")) "membersRoot" (res.field "membersRoot"))
    "status" (.str "accepted"))

/-- `JSON.stringify(record, null, 2)` -/
def textOf (record : Json) : List Char := Json.pretty 0 record

/-- A recorded value that is there and is not the expected one. -/
def differs (v : Option Json) (expected : String) : Bool := present v && decide (Json.textOf v ≠ expected.toList)

/-- The answers of `resolveSecret`. -/
inductive Kind
  | fresh
  | mismatch
  | accepted
  | retry (secret : Json)
  | unknown

/-- `resolveSecret` on what the file holds. -/
def resolveSecret (existing : Json) (r : Run) : Kind :=
  match existing with
  | .null => .fresh
  | existing =>
    if differs (existing.field "contextHash") r.contextHash || differs (existing.field "season") r.season then .mismatch
    else if isText "accepted" (existing.field "status") then .accepted
    else match existing.field "secret" with
      | some secret => if truthy (some secret) then .retry secret else .unknown
      | none => .unknown

/-! ## The disk -/

structure Inode where
  visible : List Char
  stable : List Char

/-- The files by number, and the file that the path names, as it is seen and as it is on the disk. A temporary file has a
number only: no other run opens it. -/
structure Fs where
  inodes : List Inode
  entry : Option Nat
  stableEntry : Option Nat

namespace Fs

def empty : Fs := ⟨[], none, none⟩

def text (fs : Fs) (i : Nat) : List Char := ((fs.inodes[i]?).map Inode.visible).getD []

def create (fs : Fs) : Fs := { fs with inodes := fs.inodes ++ [⟨[], []⟩] }

def append (fs : Fs) (i : Nat) (chunk : List Char) : Fs :=
  { fs with inodes := fs.inodes.modify i fun ino => { ino with visible := ino.visible ++ chunk } }

def sync (fs : Fs) (i : Nat) : Fs := { fs with inodes := fs.inodes.modify i fun ino => { ino with stable := ino.visible } }

def link (fs : Fs) (i : Nat) : Fs := { fs with entry := some i }

def syncDir (fs : Fs) : Fs := { fs with stableEntry := fs.entry }

/-- The power fails: the disk is what is left, and a file that it does not name is gone. -/
def powerLoss (fs : Fs) : Fs :=
  match fs.stableEntry with
  | none => empty
  | some j => ⟨fs.inodes.map fun ino => ⟨ino.stable, ino.stable⟩, some j, some j⟩

end Fs

/-! ## A run -/

/-- Where a run stands: at which operation, with what it holds. -/
inductive Pc
  /-- At the `readFile` of `resolveSecret`. -/
  | start
  | reading (i : Nat)
  /-- At the exclusive `open` of `writePendingSecret`. -/
  | creating
  | writing (i : Nat) (todo : List Char)
  | syncing (i : Nat)
  | syncingDir
  /-- It has its secret, and proves; the post is next. -/
  | ready (secret : Json)
  | posted (secret : Json)
  /-- At the `readFile` of `markSecretAccepted`. -/
  | marking (res : Json)
  | rereading (i : Nat) (res : Json)
  /-- At the `open` of the temporary file. -/
  | opening (text : List Char)
  | copying (i : Nat) (todo : List Char)
  | copySyncing (i : Nat)
  | replacing (i : Nat)
  | flushing
  | stopped

/-- What becomes of the operation that a run is at. `fails` stands also for a run that is stopped before it. -/
inductive Outcome
  | done
  | fails
  /-- A sync of the directory that the filesystem does not support. -/
  | unsupported
  /-- So many characters are written. -/
  | writes (n : Nat)
  /-- The gateway answers. -/
  | answers (res : Json)

/-- One operation of a run: the disk after it, and where the run goes on; `none` for an outcome that the operation does not
have. -/
def next (r : Run) (fs : Fs) : Pc → Outcome → Option (Fs × Pc)
  | .stopped, _ => none
  | _, .fails => some (fs, .stopped)
  | .start, .done => match fs.entry with
    | none => some (fs, .creating)
    | some i => some (fs, .reading i)
  | .reading i, .done => match Json.parse (fs.text i) with
    | none => some (fs, .stopped)
    | some existing => match resolveSecret existing r with
      | .fresh => some (fs, .creating)
      | .retry secret => some (fs, .ready secret)
      | _ => some (fs, .stopped)
  | .creating, .done => match fs.entry with
    | none => some (fs.create.link fs.inodes.length, .writing fs.inodes.length (textOf (pendingRecord r)))
    | some _ => some (fs, .stopped)
  | .writing i todo, .writes n =>
    some (fs.append i (todo.take n), if todo.length ≤ n then .syncing i else .writing i (todo.drop n))
  | .syncing i, .done => some (fs.sync i, .syncingDir)
  | .syncingDir, .done => some (fs.syncDir, .ready (.str r.secret))
  | .syncingDir, .unsupported => some (fs.syncDir, .ready (.str r.secret))
  | .ready secret, .done => some (fs, .posted secret)
  | .posted _, .answers res => some (fs, if truthy (res.field "ok") then .marking res else .stopped)
  | .marking res, .done => match fs.entry with
    | none => some (fs, .stopped)
    | some i => some (fs, .rereading i res)
  | .rereading i res, .done => match Json.parse (fs.text i) with
    | none => some (fs, .stopped)
    | some .null => some (fs, .stopped)
    | some current => some (fs, .opening (textOf (acceptedRecord current res)))
  | .opening text, .done => some (fs.create, .copying fs.inodes.length text)
  | .copying i todo, .writes n =>
    some (fs.append i (todo.take n), if todo.length ≤ n then .copySyncing i else .copying i (todo.drop n))
  | .copySyncing i, .done => some (fs.sync i, .replacing i)
  | .replacing i, .done => some (fs.link i, .flushing)
  | .flushing, .done => some (fs.syncDir, .stopped)
  | .flushing, .unsupported => some (fs.syncDir, .stopped)
  | _, _ => none

/-! ## Interleaved runs -/

structure State where
  fs : Fs
  pc : Nat → Pc
  /-- The secrets for which `writePendingSecret` has returned. -/
  saved : List String

def State.initial : State := ⟨Fs.empty, fun _ => .start, []⟩

inductive Act
  | run (k : Nat) (o : Outcome)
  /-- The system writes a file, or the directory, to the disk of its own accord. -/
  | writeBack (i : Nat)
  | writeBackDir
  /-- Every run ends with it. -/
  | powerLoss

/-- `writePendingSecret` returns with the operation at this place. -/
def returns (r : Run) : Pc → Pc → List String
  | .syncingDir, .ready _ => [r.secret]
  | _, _ => []

section

variable (runs : Nat → Run)

def step (σ : State) : Act → Option State
  | .run k o => do
    let (fs, pc) ← next (runs k) σ.fs (σ.pc k) o
    some ⟨fs, fun j => if j = k then pc else σ.pc j, σ.saved ++ returns (runs k) (σ.pc k) pc⟩
  | .writeBack i => some { σ with fs := σ.fs.sync i }
  | .writeBackDir => some { σ with fs := σ.fs.syncDir }
  | .powerLoss => some { σ with fs := σ.fs.powerLoss, pc := fun _ => .stopped }

/-- Something holds of every step of an interleaving. -/
def AllSteps (P : State → Act → State → Prop) : State → List Act → Prop
  | _, [] => True
  | σ, a :: acts => ∀ σ', step runs σ a = some σ' → P σ a σ' ∧ AllSteps P σ' acts

end

end SecretFile
