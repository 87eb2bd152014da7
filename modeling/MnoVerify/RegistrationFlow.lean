import MnoVerify.Season

/-!
# Registrations

`verifyRegistrationCore` of `core/verifier.js` with the `commit` and `recover` that
`core/gateway.js` gives it. A call is cut at its awaits and waits for the operations
that it put in the queue of the season members. An event is one stretch of one call,
one stretch of the queue, or an operation that something else enqueues.
-/

namespace RegistrationFlow

open Members Registration Season

/-- The decoded claims of a proof. -/
structure Claims where
  season : Value
  contextHash : String
  regNullifier : String
  commitment : String
  root : String

structure Expected where
  season : Value
  contextHash : String
  engine : Value
  statement : Value

inductive Result
  | refused (reason : String)
  /-- `{ ok: true, .. }` -/
  | registered (index membersRoot size : Nat)
  | rejected
deriving DecidableEq

/-- What the call awaits; a ticket is the place of its operation among all that were enqueued. -/
inductive Pc
  | has (found : Bool)
  | proof
  | hasAgain (found : Bool)
  | recover (ticket : Nat)
  | commit (ticket : Nat)
  | done (result : Result)
deriving DecidableEq

structure Call where
  claims : Claims
  expected : Expected
  pc : Pc
  /-- The call's proof check returned true. -/
  proved : Bool
  /-- The call's root was eligible after its proof check. -/
  eligible : Bool
  /-- The ticket of the call's commit. -/
  ticket : Option Nat
  /-- The ticket of the recovery that the call ran after a read that found its key durable. -/
  recovery : Option Nat

/-- How the awaited proof check settles. -/
inductive ProofOutcome
  | returns (valid : Bool)
  | throws
  /-- The gate sheds the call. -/
  | shed

/-- What the outside does in one stretch of a call. -/
structure Env where
  hasThrows : Bool
  /-- `rootOk()` -/
  rootOk : Bool
  proof : ProofOutcome

namespace Call
variable {F : Type} {H : Poseidon F} {cfg : Config}

def key (c : Call) : String := uniqueKey c.claims.season.number c.claims.contextHash c.claims.regNullifier

/-- What `commit` is called with. -/
def toCommit (c : Call) : Commit :=
  ⟨⟨c.expected.season.number, c.claims.contextHash, c.claims.regNullifier, c.claims.commitment, c.expected.engine.text,
    c.expected.statement.text⟩, true⟩

def refuse (c : Call) (reason : String) : Call := { c with pc := .done (.refused reason) }

/-- `await registrationStore.has(..)` -/
def lookup (c : Call) (m : Machine H cfg) (env : Env) (pc : Bool → Pc) : Call :=
  { c with pc := if env.hasThrows then .done .rejected else pc (m.store.has c.key) }

/-- `await recover(..)` -/
def runRecover (c : Call) (m : Machine H cfg) : Machine H cfg × Call :=
  (m.enqueue (.recoverMember c.claims.season.number c.claims.contextHash),
    { c with pc := .recover m.ops.length, recovery := some m.ops.length })

/-- `return commit(..)` -/
def runCommit (c : Call) (m : Machine H cfg) : Machine H cfg × Call :=
  (m.enqueue (.commit c.toCommit), { c with pc := .commit m.ops.length, ticket := some m.ops.length })

/-- The answer of the call to the outcome of its commit. -/
def answer : Outcome → Result
  | .committed index membersRoot size => .registered index membersRoot size
  | .refused why => .refused why.reason
  | _ => .rejected

/-- The stretch after the proof check. -/
def proven (c : Call) (m : Machine H cfg) (env : Env) : Machine H cfg × Call :=
  let c := { c with proved := true }
  if env.rootOk then { c with eligible := true }.runCommit m else (m, c.lookup m env .hasAgain)

/-- The stretch after one await. -/
def advance (c : Call) (m : Machine H cfg) (env : Env) : Machine H cfg × Call :=
  match c.pc with
  | .has true => c.runRecover m
  | .has false => (m, if env.rootOk then { c with pc := .proof } else c.refuse "stale-or-unknown-root")
  | .proof => match env.proof with
    | .returns true => c.proven m env
    | .returns false => (m, c.refuse "invalid-proof")
    | .throws => (m, c.refuse "invalid-proof")
    | .shed => (m, { c with pc := .done .rejected })
  | .hasAgain true => c.runRecover m
  | .hasAgain false => (m, c.refuse "stale-or-unknown-root")
  | .recover ticket => match m.settled[ticket]? with
    | none => (m, c)
    | some (_, .threw) => (m, { c with pc := .done .rejected })
    | some _ => (m, c.refuse "already-registered")
  | .commit ticket => match m.settled[ticket]? with
    | none => (m, c)
    | some (_, o) => (m, { c with pc := .done (answer o) })
  | .done _ => (m, c)

/-- `verifyRegistrationCore` up to its first await. -/
def start (claims : Claims) (expected : Expected) (m : Machine H cfg) (env : Env) : Call :=
  let c : Call := ⟨claims, expected, .has false, false, false, none, none⟩
  if !isValidEngineStatement expected.engine.asString expected.statement.asString then c.refuse "invalid-engine-statement"
  else if claims.season.text ≠ expected.season.text then c.refuse "wrong-season"
  else if claims.contextHash ≠ expected.contextHash then c.refuse "wrong-context"
  else c.lookup m env .has

end Call

section
variable {F : Type} (H : Poseidon F) (cfg : Config)

/-- The queue over the store, and the calls in the order in which they started. -/
structure World where
  machine : Machine H cfg
  calls : List Call

inductive Event
  | start (claims : Claims) (expected : Expected) (env : Env)
  | resume (call : Nat) (env : Env)
  /-- A stretch of the queue. -/
  | turn (a : Awaits)
  | ensure (season : Js.Num)
  | ensureContext (season : Js.Num) (contextHash : String)
  | recoverMember (season : Js.Num) (contextHash : String)

variable {H cfg}

def World.init (store : Index) : World H cfg := ⟨.init H cfg store, []⟩

def step (w : World H cfg) : Event → World H cfg
  | .start claims expected env => { w with calls := w.calls ++ [.start claims expected w.machine env] }
  | .resume i env => match w.calls[i]? with
    | some c => ⟨(c.advance w.machine env).1, w.calls.set i (c.advance w.machine env).2⟩
    | none => w
  | .turn a => { w with machine := w.machine.advance a }
  | .ensure season => { w with machine := w.machine.enqueue (.ensure season) }
  | .ensureContext season contextHash => { w with machine := w.machine.enqueue (.ensureContext season contextHash) }
  | .recoverMember season contextHash => { w with machine := w.machine.enqueue (.recoverMember season contextHash) }

def run (w : World H cfg) (events : List Event) : World H cfg := events.foldl step w

end

end RegistrationFlow
