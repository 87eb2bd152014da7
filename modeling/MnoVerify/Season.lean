import MnoVerify.MembersTree
import MnoVerify.Registration

/-!
# Season members

`SeasonMembers` of `core/season.js` over one registration store. Operations wait in
a queue and run one at a time. A commit is cut where it waits for its durable write;
what its reads, its clock and that write do is given with each step.
-/

namespace Season

open Members Registration

/-- `<` of two numbers. -/
def lessThan : Js.Num → Js.Num → Bool
  | .nan, _ => false
  | _, .nan => false
  | .infinite true, y => decide (y ≠ .infinite true)
  | x, .infinite false => decide (x ≠ .infinite false)
  | .dec a, .dec b => decide (a.toRat < b.toRat)
  | _, _ => false

structure Config where
  monotonic : Bool
  treeDepth : Option Nat
  rootWindow : Nat
  /-- `seasonNow` is given. -/
  seasonNow : Bool
  /-- `clockRegressed` is given. -/
  clockRegressed : Bool

/-- A depth of zero is falsy, and stands for the default. -/
def Config.depth (cfg : Config) : Nat :=
  match cfg.treeDepth with
  | some (d + 1) => d + 1
  | _ => TREE_DEPTH

/-- How the durable write of a commit goes. -/
inductive Write
  | proceeds
  /-- `{ staleRoot: true }` -/
  | stale
  /-- A result without an index that names no refusal. -/
  | unrecognised
  | throws (landed : Bool)

/-- What the calls of one stretch do. -/
structure Awaits where
  readThrows : Bool
  rereadThrows : Bool
  hasThrows : Bool
  buildThrows : Bool
  rebuildThrows : Bool
  now : Int
  /-- `Number(this.seasonNow())`, none when it throws. -/
  live : Option Js.Num
  regressed : Bool
  write : Write

/-- A registration that a commit is called with. -/
structure Commit extends Draft where
  /-- `regNullifier` is supplied. -/
  nullifierGiven : Bool
deriving DecidableEq

inductive Op
  | ensure (season : Js.Num)
  | ensureContext (season : Js.Num) (contextHash : String)
  | recoverMember (season : Js.Num) (contextHash : String)
  | commit (r : Commit)
deriving DecidableEq

inductive Refusal
  | seasonRolled (live : Option Js.Num)
  | alreadyRegistered
  | treeFull (capacity : Nat)
  | clockRegressed
  | statementMismatch (declared : Declaration)
  | invalidEngineStatement
  | staleRoot
  | unrecognised
  | indexMismatch
deriving DecidableEq

def Refusal.reason : Refusal → String
  | seasonRolled _ => "season-rolled-retry"
  | alreadyRegistered => "already-registered"
  | treeFull _ => "members-tree-full"
  | clockRegressed => "clock-regressed"
  | statementMismatch _ => "statement-mismatch"
  | invalidEngineStatement => "invalid-engine-statement"
  | staleRoot => "stale-or-unknown-root"
  | unrecognised => "durable-write-unrecognised"
  | indexMismatch => "index-tree-mismatch"

inductive Outcome
  | threw
  | done
  | recovered (rebuilt : Bool) (size : Nat)
  /-- `{ rebuilt: false, reason: "season-rolled" }` -/
  | notRecovered
  | committed (index membersRoot size : Nat)
  | refused (why : Refusal)
deriving DecidableEq

/-- What `appendDurable` resolves to. -/
inductive Written
  | answer (a : Answer)
  | staleRoot
  | unrecognised
deriving DecidableEq

section
variable {F : Type} (H : Poseidon F) (cfg : Config)

/-- The cached tree and root window of one context. -/
structure Context where
  tree : MembersTree H cfg.depth
  roots : RootStore

structure State where
  current : Option Js.Num := none
  ctx : List (String × Context H cfg) := []

variable {H cfg}

namespace State

def isCurrent (m : State H cfg) (season : Js.Num) : Bool := m.current.any fun c => c.strictEq season

/-- `Number(this.current)` -/
def number (m : State H cfg) : Js.Num := m.current.getD (.dec 0)

def size (m : State H cfg) (contextHash : String) : Nat := ((m.ctx.lookup contextHash).map fun c => c.tree.size).getD 0

/-- `_roll`; none when it throws. -/
def roll (m : State H cfg) (season : Js.Num) : Option (State H cfg) :=
  if cfg.monotonic && m.current.any (lessThan season) then none
  else if m.isCurrent season then some m
  else some ⟨some season, []⟩

/-- A tree over `records`, its root at the top of `roots`, put in the cache. -/
def install (m : State H cfg) (contextHash : String) (records : List Record) (roots : RootStore) (throws : Bool) (now : Int) :
    Option (State H cfg × Context H cfg) :=
  if throws then none
  else
    (MembersTree.fromCommitments H cfg.depth (records.map Record.commitment)).map fun tree =>
      let c : Context H cfg := ⟨tree, roots.update [⟨tree.size, tree.root, now⟩]⟩
      ({ m with ctx := Assoc.set m.ctx contextHash c }, c)

/-- `_materializeFrom` -/
def materializeFrom (m : State H cfg) (contextHash : String) (records : List Record) (a : Awaits) :
    Option (State H cfg × Context H cfg) :=
  m.install contextHash records ⟨cfg.rootWindow, []⟩ a.buildThrows a.now

/-- `_materialize` -/
def materialize (m : State H cfg) (store : Index) (contextHash : String) (a : Awaits) :
    Option (State H cfg × Context H cfg) :=
  match m.ctx.lookup contextHash with
  | some c => some (m, c)
  | none =>
    if a.readThrows then none
    else m.materializeFrom contextHash (store.forSeasonContext m.number contextHash) a

/-- `_rebuildTreePreservingRoots` -/
def rebuildTreePreservingRoots (m : State H cfg) (contextHash : String) (records : List Record) (a : Awaits) :
    Option (State H cfg × Context H cfg) :=
  m.install contextHash records (((m.ctx.lookup contextHash).map Context.roots).getD ⟨cfg.rootWindow, []⟩) a.rebuildThrows
    a.now

/-- `_reconcileIfBehind` -/
def reconcileIfBehind (m : State H cfg) (store : Index) (contextHash : String) (a : Awaits) : Option (State H cfg × Bool) :=
  if a.rereadThrows then none
  else
    let records := store.forSeasonContext m.number contextHash
    if m.size contextHash < records.length then
      (m.rebuildTreePreservingRoots contextHash records a).map fun p => (p.1, true)
    else some (m, false)

def ensure (m : State H cfg) (season : Js.Num) : State H cfg × Outcome :=
  match m.roll season with
  | some m => (m, .done)
  | none => (m, .threw)

def ensureContext (m : State H cfg) (store : Index) (season : Js.Num) (contextHash : String) (a : Awaits) :
    State H cfg × Outcome :=
  match m.roll season with
  | none => (m, .threw)
  | some m =>
    if (m.ctx.lookup contextHash).isSome then (m, .done)
    else if a.readThrows then (m, .threw)
    else
      let records := store.forSeasonContext m.number contextHash
      if 0 < records.length then
        match m.materializeFrom contextHash records a with
        | some (m, _) => (m, .done)
        | none => (m, .threw)
      else (m, .done)

def recoverMember (m : State H cfg) (store : Index) (season : Js.Num) (contextHash : String) (a : Awaits) :
    State H cfg × Outcome :=
  if m.isCurrent season then
    match m.reconcileIfBehind store contextHash a with
    | some (m, rebuilt) => (m, .recovered rebuilt (m.size contextHash))
    | none => (m, .threw)
  else (m, .notRecovered)

/-- The checks of `commit` on the context it commits into, up to its durable write. -/
def refusal (store : Index) (r : Commit) (c : Context H cfg) (a : Awaits) : Option Outcome :=
  if r.nullifierGiven && a.hasThrows then some .threw
  else if r.nullifierGiven && store.has r.key then some (.refused .alreadyRegistered)
  else if c.tree.full then some (.refused (.treeFull c.tree.capacity))
  else if cfg.seasonNow && a.live.isNone then some .threw
  else if cfg.seasonNow && !(a.live.any fun live => live.strictEq r.season) then some (.refused (.seasonRolled a.live))
  else if cfg.clockRegressed && a.regressed then some (.refused .clockRegressed)
  else none

/-- `commit` up to its durable write: its outcome, or the context it is going to append to. -/
def prepare (m : State H cfg) (store : Index) (r : Commit) (a : Awaits) : State H cfg × (Outcome ⊕ Context H cfg) :=
  if m.isCurrent r.season then
    match m.materialize store r.contextHash a with
    | none => (m, .inl .threw)
    | some (m, c) =>
      match m.reconcileIfBehind store r.contextHash a with
      | none => (m, .inl .threw)
      | some (m, _) =>
        let c := (m.ctx.lookup r.contextHash).getD c
        match refusal store r c a with
        | some o => (m, .inl o)
        | none => (m, .inr c)
  else (m, .inl (.refused (.seasonRolled none)))

/-- `commit` after its durable write. -/
def finish (m : State H cfg) (r : Commit) (c : Context H cfg) (w : Written) (a : Awaits) : State H cfg × Outcome :=
  match w with
  | .answer .duplicate => (m, .refused .alreadyRegistered)
  | .answer (.conflict declared) => (m, .refused (.statementMismatch declared))
  | .answer (.invalid _) => (m, .refused .invalidEngineStatement)
  | .staleRoot => (m, .refused .staleRoot)
  | .unrecognised => (m, .refused .unrecognised)
  | .answer (.stored index) =>
    if index ≠ c.tree.size then (m, .refused .indexMismatch)
    else
      match c.tree.append r.commitment with
      | none => (m, .threw)
      | some tree =>
        let c : Context H cfg := ⟨tree, c.roots.update [⟨tree.size, tree.root, a.now⟩]⟩
        ({ m with ctx := Assoc.set m.ctx r.contextHash c }, .committed index tree.root tree.size)

end State

/-- `appendDurable`: the store afterwards, and what it resolves to, none when it throws. -/
def appendDurable (store : Index) (r : Commit) : Write → Index × Option Written
  | .proceeds => ((store.appendChecked r.toDraft.given).1, some (.answer (store.appendChecked r.toDraft.given).2))
  | .stale => (store, some .staleRoot)
  | .unrecognised => (store, some .unrecognised)
  | .throws landed => (if landed then (store.appendChecked r.toDraft.given).1 else store, none)

/-! ## The queue -/

variable (H cfg) in
/-- A commit that has passed its checks. -/
structure Frame where
  commit : Commit
  context : Context H cfg
  /-- What its season check read. -/
  live : Option Js.Num
  /-- What its durable write resolved to. -/
  written : Option Written

variable (H cfg) in
structure Machine where
  members : State H cfg
  store : Index
  queue : List Op
  running : Option (Frame H cfg)
  /-- The operations that are over, in their order. -/
  settled : List (Op × Outcome)

namespace Machine

variable (H cfg) in
def init (store : Index) : Machine H cfg := ⟨{}, store, [], none, []⟩

/-- All operations that were enqueued, in their order. -/
def ops (m : Machine H cfg) : List Op :=
  m.settled.map Prod.fst ++ (m.running.map fun f => Op.commit f.commit).toList ++ m.queue

def settle (m : Machine H cfg) (members : State H cfg) (op : Op) (o : Outcome) : Machine H cfg :=
  { m with members := members, running := none, settled := m.settled ++ [(op, o)] }

def enqueue (m : Machine H cfg) (op : Op) : Machine H cfg := { m with queue := m.queue ++ [op] }

/-- The operation at the head of the queue runs: to its end, or to its durable write. -/
def start (m : Machine H cfg) (op : Op) (rest : List Op) (a : Awaits) : Machine H cfg :=
  let m := { m with queue := rest }
  match op with
  | .ensure season => let r := m.members.ensure season; m.settle r.1 op r.2
  | .ensureContext season contextHash =>
    let r := m.members.ensureContext m.store season contextHash a; m.settle r.1 op r.2
  | .recoverMember season contextHash =>
    let r := m.members.recoverMember m.store season contextHash a; m.settle r.1 op r.2
  | .commit r =>
    match m.members.prepare m.store r a with
    | (members, .inl o) => m.settle members op o
    | (members, .inr c) => { m with members := members, running := some ⟨r, c, a.live, none⟩ }

def write (m : Machine H cfg) (f : Frame H cfg) (a : Awaits) : Machine H cfg :=
  match appendDurable m.store f.commit a.write with
  | (store, none) => { m with store := store }.settle m.members (.commit f.commit) .threw
  | (store, some w) => { m with store := store, running := some { f with written := some w } }

def finish (m : Machine H cfg) (f : Frame H cfg) (w : Written) (a : Awaits) : Machine H cfg :=
  let r := m.members.finish f.commit f.context w a
  m.settle r.1 (.commit f.commit) r.2

/-- The next stretch of the queue. -/
def advance (m : Machine H cfg) (a : Awaits) : Machine H cfg :=
  match m.running with
  | some f => match f.written with
    | none => m.write f a
    | some w => m.finish f w a
  | none => match m.queue with
    | op :: rest => m.start op rest a
    | [] => m

/-- The commitments that are durable for a context in the current season. -/
def durable (m : Machine H cfg) (contextHash : String) : List String :=
  (m.store.forSeasonContext m.members.number contextHash).map Record.commitment

end Machine

inductive Step : Machine H cfg → Machine H cfg → Prop
  | enqueue (m : Machine H cfg) (op : Op) : Step m (m.enqueue op)
  | start (m : Machine H cfg) {op : Op} {rest : List Op} (a : Awaits) (hq : m.queue = op :: rest) (hr : m.running = none) :
    Step m (m.start op rest a)
  | write (m : Machine H cfg) {f : Frame H cfg} (a : Awaits) (hr : m.running = some f) (hw : f.written = none) :
    Step m (m.write f a)
  | finish (m : Machine H cfg) {f : Frame H cfg} {w : Written} (a : Awaits) (hr : m.running = some f)
    (hw : f.written = some w) : Step m (m.finish f w a)

end

end Season
