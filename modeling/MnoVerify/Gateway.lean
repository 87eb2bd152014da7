import MnoVerify.TimeGuard
import MnoVerify.Utf8
import MnoVerify.Verifier

/-!
# Challenges and verifies

The membership flow of `core/gateway.js`: `POST /v1/challenge` and `POST /v1/verify`
with the `ChallengeStore` of `core/stores.js`, the clock guard and the verifier. A
request is cut at its awaits; an event is one stretch of one request, or something
else the gateway does in between. Root stores change in any way at any time, which
covers refreshes, ageing, registrations and rollovers.
-/

namespace Gateway

open TimeGuard (Lengths Guard Kind observe periodNow)

/-- `grantExpiresAt` -/
def grantExpiresAt (epoch : Int) (epochSeconds : Nat) (season : Option Int) (seasonSeconds : Nat) : Int :=
  match season with
  | none => (epoch + 1) * epochSeconds
  | some season => min ((epoch + 1) * epochSeconds) ((season + 1) * seasonSeconds)

structure Config where
  lengths : Lengths
  twoTier : Bool
  challengeTtlSeconds : Nat
  maxPendingChallenges : Nat
  maxAccountBytes : Nat
  /-- `contextHash` of platform, community and role. -/
  contextHash : List Char → List Char → List Char → String
  signalHash : String → String → String
  emptyRoot : String

/-! ## Challenges -/

/-- What a challenge is minted with. -/
structure Challenge where
  account : String
  signalHash : String
  epoch : Int
  contextHash : String
  season : Option Int
  root : String

structure Pending where
  challenge : Challenge
  expires : Int

/-- `pending` of the challenge store. -/
abbrev Challenges := List (String × Pending)

namespace Challenges

def sweep (cs : Challenges) (now : Int) : Challenges := cs.filter fun p => !decide (p.2.expires < now)

/-- The store with room for one more, if sweeping makes room. -/
def room (cs : Challenges) (maxPending : Nat) (now : Int) : Challenges :=
  if maxPending ≤ cs.length then cs.sweep now else cs

def put (cs : Challenges) (cfg : Config) (nonce : String) (c : Challenge) (sweepNow now : Int) : Bool × Challenges :=
  let cs := cs.room cfg.maxPendingChallenges sweepNow
  if cfg.maxPendingChallenges ≤ cs.length then (false, cs)
  else (true, Assoc.set cs nonce ⟨c, now + cfg.challengeTtlSeconds * 1000⟩)

def take (cs : Challenges) (nonce : String) (now : Int) : Option Pending × Challenges :=
  match cs.lookup nonce with
  | none => (none, cs)
  | some v => (if v.expires < now then none else some v, Assoc.erase cs nonce)

def restore (cs : Challenges) (cfg : Config) (nonce : String) (v : Pending) (now sweepNow : Int) : Bool × Challenges :=
  if v.expires < now then (false, cs)
  else
    let cs := cs.room cfg.maxPendingChallenges sweepNow
    if cfg.maxPendingChallenges ≤ cs.length then (false, cs) else (true, Assoc.set cs nonce v)

end Challenges

/-- The roots that verifies in flight hold, with their counts. -/
abbrev HeldRoots := List (String × Nat)

def HeldRoots.hold (held : HeldRoots) (root : String) : HeldRoots := Assoc.set held root ((held.lookup root).getD 0 + 1)

def HeldRoots.release (held : HeldRoots) (root : String) : HeldRoots :=
  let n := (held.lookup root).getD 1 - 1
  if 0 < n then Assoc.set held root n else Assoc.erase held root

/-! ## Roots -/

/-- The accepted roots of every root store, newest last: `dmlRoots`, `emptyRoots`, and the
stores of the contexts. -/
structure Roots where
  stores : List (List String)
  contexts : List (String × Nat)

namespace Roots

def accepted (r : Roots) (store : Nat) : List String := (r.stores[store]?).getD []

def isRecent (r : Roots) (store : Nat) (root : String) : Bool := decide (root ∈ r.accepted store)

def dmlRoots : Nat := 0

def emptyRoots : Nat := 1

def rootStore (r : Roots) (contextHash : String) : Nat := (r.contexts.lookup contextHash).getD emptyRoots

/-- The root of `rootCurrent`. -/
def rootCurrent (r : Roots) (cfg : Config) (contextHash : String) : String :=
  match r.contexts.lookup contextHash with
  | some store => (r.accepted store).getLast?.getD cfg.emptyRoot
  | none => cfg.emptyRoot

end Roots

/-! ## The clock -/

/-- One call of the clock guard: what the clock reads, and whether `#persist` throws if due. -/
structure Reading where
  now : Int
  at_ : Int
  throws : Bool

/-- `timeGuard.epoch()` and `timeGuard.season()`; none when it throws. -/
def guardCall (l : Lengths) (g : Guard) (k : Kind) (r : Reading) : Guard × Option Int :=
  let value := periodNow l k r.now
  let (g, due) := observe g k value r.at_
  (g, if due && r.throws then none else some value)

/-- The clock readings in one stretch. -/
structure Clock where
  epoch : Reading
  season : Reading
  /-- `nowSec()` -/
  now : Int
  seasonAgain : Reading
  /-- `Date.now()` of the challenge store. -/
  ms : Int
  sweepMs : Int

/-- What a period check compared: `nowSec()` with the epoch's end, the clock with the season. -/
structure Check where
  now : Int
  season : Option Int

/-! ## Requests -/

/-- A verify request that took its challenge. -/
structure Taken where
  nonce : String
  account : Json
  publicSignals : Json
  pending : Pending

inductive Answer
  | error (status : Nat) (text : String)
  | challenge (nonce : String) (c : Challenge) (challengeExpiresAt accessEndsAt : Int)
  | refused (status : Nat) (reason : String)
  | granted (account : String) (epoch : Element) (expiresAt : Int) (regranted : Bool)

abbrev Call := Verifier.Call Check

/-- What a request awaits, or how it ended. -/
inductive Request
  | challengeBody
  | challengeEnsure (season : Int) (contextHash account : String)
  | verifyBody
  | verifyEnsure (t : Taken)
  | verifying (t : Taken) (store : Nat) (call : Except String Call)
  | answered (answer : Answer)
  /-- Ended with its challenge taken. -/
  | ended (t : Taken) (call : Option (Except String Call)) (putBack : Bool) (answer : Answer)

/-- What the outside does in one stretch. -/
structure Env where
  authorized : Bool
  ingress : Bool
  /-- Both rate limits accept. -/
  allowed : Bool
  /-- What `readBody` settles with; an error carries its answer. -/
  body : Except (Nat × String) Json
  clock : Clock
  /-- `randomUUID()` -/
  nonce : String
  /-- `ensureContext` resolves. -/
  ensures : Bool
  readThrows : Option Bool
  proof : Verifier.ProofOutcome
  addThrows : Option Bool

structure World where
  guard : Guard
  roots : Roots
  challenges : Challenges
  held : HeldRoots
  nullifiers : NullifierStore
  requests : List Request
  /-- Every challenge put under a fresh nonce, newest first. -/
  minted : List (String × Challenge)

/-- `v` as a condition. -/
def truthy : Option Json → Bool
  | none => false
  | some .null => false
  | some (.bool b) => b
  | some (.num d) => decide (d ≠ 0)
  | some (.str s) => decide (s ≠ "")
  | some (.arr _) => true
  | some (.obj _) => true

def internalError : Answer := .error 500 "internal error"

def intText (z : Int) : String := String.ofList (Js.Dec.ofInt z).toText

section
variable (cfg : Config)

/-- `(pending.epoch + 1) * config.epochSeconds` -/
def Challenge.epochEnd (c : Challenge) : Int := (c.epoch + 1) * cfg.lengths.epochSeconds

def Challenge.expiresAt (c : Challenge) : Int :=
  grantExpiresAt c.epoch cfg.lengths.epochSeconds (if cfg.twoTier then c.season else none) cfg.lengths.seasonSeconds

namespace World

/-- The clock check in front of the two handlers, and what comes before the body. -/
def arrive (w : World) (env : Env) (awaiting : Request) : World × Request :=
  match guardCall cfg.lengths w.guard .epoch env.clock.epoch with
  | (g, none) => ({ w with guard := g }, .answered internalError)
  | (g, some _) => match guardCall cfg.lengths g .season env.clock.season with
    | (g, none) => ({ w with guard := g }, .answered internalError)
    | (g, some _) =>
      let w := { w with guard := g }
      if g.regressed then (w, .answered (.error 503 "clock-regression"))
      else if !env.authorized then (w, .answered (.error 401 "unauthorized"))
      else if !env.ingress then (w, .answered (.error 429 "rate limited"))
      else (w, awaiting)

/-- `/v1/challenge` from the root on. -/
def mint (w : World) (env : Env) (season : Option Int) (contextHash account : String) : World × Request :=
  let cur := if cfg.twoTier then some (w.roots.rootCurrent cfg contextHash) else (w.roots.accepted Roots.dmlRoots).getLast?
  match cur with
  | none => (w, .answered (.error 503 "no root available yet"))
  | some root => match guardCall cfg.lengths w.guard .epoch env.clock.epoch with
    | (g, none) => ({ w with guard := g }, .answered internalError)
    | (g, some epoch) =>
      let c : Challenge := ⟨account, cfg.signalHash env.nonce account, epoch, contextHash, season, root⟩
      let accessEndsAt := c.expiresAt cfg
      let challengeExpiresAt := min (env.clock.now + cfg.challengeTtlSeconds) accessEndsAt
      match w.challenges.put cfg env.nonce c env.clock.sweepMs env.clock.ms with
      | (false, cs) => ({ w with guard := g, challenges := cs }, .answered (.error 429 "too many pending challenges"))
      | (true, cs) =>
        ({ w with guard := g, challenges := cs, minted := (env.nonce, c) :: w.minted },
          .answered (.challenge env.nonce c challengeExpiresAt accessEndsAt))

/-- The bound on the account. -/
def oversized (account : List Char) : Bool := decide (cfg.maxAccountBytes < Utf8.byteLength account)

def oversizedText : String := "account exceeds " ++ intText cfg.maxAccountBytes ++ " bytes"

/-- `/v1/challenge` with its body. -/
def challengeBody (w : World) (env : Env) (body : Json) : World × Request :=
  if !truthy (body.field "platform") || !truthy (body.field "communityId") || !truthy (body.field "roleId") ||
      !truthy (body.field "account") then (w, .answered (.error 400 "missing fields"))
  else
    let account := Json.textOf (body.field "account")
    if oversized cfg account then (w, .answered (.error 400 (oversizedText cfg)))
    else
      let ctx := cfg.contextHash (Json.textOf (body.field "platform")) (Json.textOf (body.field "communityId"))
        (Json.textOf (body.field "roleId"))
      if !env.allowed then (w, .answered (.error 429 "rate limited"))
      else if cfg.twoTier then
        match guardCall cfg.lengths w.guard .season env.clock.season with
        | (g, none) => ({ w with guard := g }, .answered internalError)
        | (g, some season) => ({ w with guard := g }, .challengeEnsure season ctx (String.ofList account))
      else w.mint cfg env none ctx (String.ofList account)

/-- `stillCurrent`, and what it compared. -/
def stillCurrent (w : World) (t : Taken) (store : Nat) (clock : Clock) : Guard × Verifier.Verdict × Check :=
  let c := t.pending.challenge
  let root := (Verifier.readSignals t.publicSignals).elim "" fun s => s.root.text
  let recent := if w.roots.isRecent store root then none else some "stale-or-unknown-root"
  match guardCall cfg.lengths w.guard .epoch clock.epoch with
  | (g, none) => (g, .throws, ⟨clock.now, none⟩)
  | (g, some _) => match guardCall cfg.lengths g .season clock.season with
    | (g, none) => (g, .throws, ⟨clock.now, none⟩)
    | (g, some _) =>
      if g.regressed then (g, .answers (some "clock-regressed"), ⟨clock.now, none⟩)
      else if c.epochEnd cfg ≤ clock.now then (g, .answers (some "epoch-rolled-over"), ⟨clock.now, none⟩)
      else if !cfg.twoTier then (g, .answers recent, ⟨clock.now, none⟩)
      else match guardCall cfg.lengths g .season clock.seasonAgain with
        | (g, none) => (g, .throws, ⟨clock.now, some clock.seasonAgain.now⟩)
        | (g, some season) =>
          let check : Check := ⟨clock.now, some clock.seasonAgain.now⟩
          if c.season ≠ some season then (g, .answers (some "season-rolled-over"), check)
          else if w.roots.rootStore c.contextHash ≠ store then (g, .answers (some "season-rolled-over"), check)
          else (g, .answers recent, check)

/-- The request ends with its challenge taken, and lets go of the root. -/
def finish (w : World) (t : Taken) (call : Option (Except String Call)) (putBack : Bool) (answer : Answer) :
    World × Request :=
  ({ w with held := w.held.release t.pending.challenge.root }, .ended t call putBack answer)

/-- What the verifier runs in, given what `stillCurrent` says. -/
def verifierEnv (env : Env) (verdict : Verifier.Verdict) (check : Check) : Verifier.Env Check :=
  ⟨env.readThrows, env.proof, verdict, check, env.addThrows⟩

def expected (w : World) (t : Taken) (store : Nat) : Verifier.Expected where
  account := some t.pending.challenge.account
  isRecent := w.roots.isRecent store
  epoch := intText t.pending.challenge.epoch
  contextHash := t.pending.challenge.contextHash
  signalHash := t.pending.challenge.signalHash
  hasStillCurrent := true

/-- `verifyMembership` is called. -/
def callVerifier (w : World) (env : Env) (t : Taken) (store : Nat) : World × Request :=
  (w, .verifying t store (Verifier.start w.nullifiers t.publicSignals (w.expected t store)
    (verifierEnv env (.answers none) ⟨env.clock.now, none⟩)))

/-- `/v1/verify` with its challenge taken. -/
def verifyTaken (w : World) (env : Env) (t : Taken) : World × Request :=
  if String.ofList t.account.toStr ≠ t.pending.challenge.account then w.finish t none false (.refused 200 "account-mismatch")
  else if t.pending.challenge.epochEnd cfg ≤ env.clock.now then w.finish t none false (.refused 200 "epoch-rolled-over")
  else if cfg.twoTier then
    match guardCall cfg.lengths w.guard .season env.clock.season with
    | (g, none) => { w with guard := g }.finish t none false internalError
    | (g, some _) => ({ w with guard := g }, .verifyEnsure t)
  else w.callVerifier env t Roots.dmlRoots

/-- `challenges.take(nonce)`: only a string can be a key. -/
def take (w : World) (nonce : Json) (ms : Int) : Option (String × Pending) × World :=
  match nonce with
  | .str n =>
    let (v, cs) := w.challenges.take n ms
    (v.map fun v => (n, v), { w with challenges := cs })
  | _ => (none, w)

/-- `/v1/verify` with its body. -/
def verifyBody (w : World) (env : Env) (body : Json) : World × Request :=
  if !truthy (body.field "nonce") || !truthy (body.field "proof") || !truthy (body.field "publicSignals") ||
      !truthy (body.field "account") then (w, .answered (.error 400 "missing fields"))
  else if oversized cfg (Json.textOf (body.field "account")) then (w, .answered (.error 400 (oversizedText cfg)))
  else if !env.allowed then (w, .answered (.error 429 "rate limited"))
  else match w.take ((body.field "nonce").getD .null) env.clock.ms with
    | (none, w) => (w, .answered (.refused 410 "unknown-or-expired-challenge"))
    | (some (nonce, v), w) =>
      let w := { w with held := w.held.hold v.challenge.root }
      w.verifyTaken cfg env ⟨nonce, (body.field "account").getD .null, (body.field "publicSignals").getD .null, v⟩

/-- `verifyMembership` has settled. -/
def verified (w : World) (env : Env) (t : Taken) (call : Except String Call) (result : Verifier.Result) : World × Request :=
  match result with
  | .refused reason => w.finish t (some call) false (.refused 200 reason)
  | .granted _ epoch regranted => w.finish t (some call) false
    (.granted t.pending.challenge.account epoch (t.pending.challenge.expiresAt cfg) regranted)
  | .rejected none => w.finish t (some call) false internalError
  | .rejected (some tag) =>
    let detail := if tag = .overloaded then "overloaded" else "a temporary error verifying"
    match w.challenges.restore cfg t.nonce t.pending env.clock.ms env.clock.sweepMs with
    | (true, cs) => { w with challenges := cs }.finish t (some call) true (.error 503 (detail ++ ", retry later"))
    | (false, cs) => { w with challenges := cs }.finish t (some call) false
      (.error 503 (detail ++ ", the challenge could not be preserved, request a new challenge"))

/-- A request goes on while `verifyMembership` runs. -/
def verifying (w : World) (env : Env) (t : Taken) (store : Nat) (call : Except String Call) : World × Request :=
  match call with
  | .error reason => w.verified cfg env t call (.refused reason)
  | .ok c => match c.pc with
    | .done result => w.verified cfg env t call result
    | _ =>
      let (g, verdict, check) := w.stillCurrent cfg t store env.clock
      let venv := verifierEnv env verdict check
      let (nullifiers, c') := c.advance w.nullifiers venv
      ({ w with guard := if c.asks venv then g else w.guard, nullifiers := nullifiers }, .verifying t store (.ok c'))

/-- The stretch of a request after one await. -/
def resume (w : World) (env : Env) : Request → World × Request
  | .challengeBody => match env.body with
    | .error (status, text) => (w, .answered (.error status text))
    | .ok .null => (w, .answered internalError)
    | .ok body => w.challengeBody cfg env body
  | .challengeEnsure season ctx account =>
    if env.ensures then w.mint cfg env (some season) ctx account else (w, .answered internalError)
  | .verifyBody => match env.body with
    | .error (status, text) => (w, .answered (.error status text))
    | .ok .null => (w, .answered internalError)
    | .ok body => w.verifyBody cfg env body
  | .verifyEnsure t =>
    if env.ensures then w.callVerifier env t (w.roots.rootStore t.pending.challenge.contextHash)
    else w.finish t none false internalError
  | .verifying t store call => w.verifying cfg env t store call
  | r => (w, r)

end World

inductive Route
  | challenge
  | verify

inductive Event
  | request (route : Route) (env : Env)
  | resume (request : Nat) (env : Env)
  /-- The accepted roots of a store change. -/
  | accept (store : Nat) (roots : List String)
  /-- A context gets a root store. -/
  | materialize (contextHash : String) (roots : List String)
  /-- A season rollover clears the contexts. -/
  | rollover
  /-- Something else calls the clock guard. -/
  | clock (kind : Kind) (reading : Reading)
  /-- `pinnedRoots` sweeps the challenges. -/
  | sweep (ms : Int)
  | prune (minEpoch : Js.Num)

def step (w : World) : Event → World
  | .request route env =>
    let (w, r) := w.arrive cfg env (match route with | .challenge => .challengeBody | .verify => .verifyBody)
    { w with requests := w.requests ++ [r] }
  | .resume i env => match w.requests[i]? with
    | some r =>
      let (w, r) := w.resume cfg env r
      { w with requests := w.requests.set i r }
    | none => w
  | .accept store roots => { w with roots := { w.roots with stores := w.roots.stores.set store roots } }
  | .materialize ctx roots =>
    { w with roots := ⟨w.roots.stores ++ [roots], Assoc.set w.roots.contexts ctx w.roots.stores.length⟩ }
  | .rollover => { w with roots := { w.roots with contexts := [] } }
  | .clock kind reading => { w with guard := (guardCall cfg.lengths w.guard kind reading).1 }
  | .sweep ms => { w with challenges := w.challenges.sweep ms }
  | .prune minEpoch => { w with nullifiers := w.nullifiers.prune minEpoch }

def run (w : World) (events : List Event) : World := events.foldl (step cfg) w

end

/-- A gateway as it starts. -/
def World.boot (guard : Guard) (roots : Roots) (nullifiers : NullifierStore) : World :=
  ⟨guard, roots, [], [], nullifiers, [], []⟩

end Gateway
