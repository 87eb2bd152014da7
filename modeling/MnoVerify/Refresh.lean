import MnoVerify.RootWindow

/-!
# Refreshing the root window

`refreshRoots`, `enforceDmlFreshness`, `oracleSignaturesOk` and `windowOrderKey` of `core/gateway.js`. A refresh is
in flight from its call to its last `await`; other requests run between, and the rest of it is one stretch. What the
source answers and the readings of the clock are data. Ed25519 and the decoding of a key are parameters, with the
two hashes.
-/

namespace Refresh

open RootWindow (Record)

structure Config extends Snapshot.Config where
  limits : RootWindow.Limits
  /-- `dmlSource === "node"` -/
  nodeMode : Bool
  /-- The trusted keys, in the base64 of `rawPublicB64`. -/
  oraclePubkeys : List String
  oracleQuorum : Nat
  requireShaRoot : Bool
  /-- The mode has registrations, and their store is open. -/
  twoTier : Bool

structure Crypto where
  poseidon : Nat → Nat → Nat
  sha256 : List UInt8 → List UInt8
  /-- `rawPublicB64(publicKeyFromRaw(label))`; `none` when it throws. -/
  canonicalKey : String → Option String
  /-- `verifySnapshotSig`, of the message, the signature and the key. -/
  verify : List UInt8 → String → String → Bool

/-! ## The signature quorum -/

def MAX_SNAPSHOT_SIGS : Nat := 64

def sigs (o : Json) : List Json :=
  match o.field "sigs" with
  | some (.arr l) => l
  | _ => []

/-- The signatures by the key that each one names; `none` when a key is named twice. -/
def byKey (K : Crypto) : List Json → List (String × String) → Option (List (String × String))
  | [], m => some m
  | entry :: sigs, m => match entry.field "key", entry.field "sig" with
    | some (.str key), some (.str sig) => match K.canonicalKey key with
      | none => byKey K sigs m
      | some id => if (m.lookup id).isSome then none else byKey K sigs (Assoc.set m id sig)
    | _, _ => byKey K sigs m

def oracleSignaturesOk (cfg : Config) (K : Crypto) (o : Json) : Except String Bool :=
  if cfg.oraclePubkeys.isEmpty then .ok true
  else if !Snapshot.isHash (o.field "blockHash") then .ok false
  else if MAX_SNAPSHOT_SIGS < (sigs o).length then .ok false
  else match byKey K (sigs o) [] with
    | none => .ok false
    | some m => do
      let msg ← Snapshot.snapshotMessage o
      let met := cfg.oraclePubkeys.countP fun trusted => (m.lookup trusted).any fun sig => K.verify msg sig trusted
      return decide (cfg.oracleQuorum ≤ met)

/-- A snapshot built from the node has no signatures to check. -/
def signaturesOk (cfg : Config) (K : Crypto) (o : Json) : Except String Bool :=
  if cfg.nodeMode then .ok true else oracleSignaturesOk cfg K o

/-! ## One snapshot -/

/-- What becomes of a snapshot that did not throw. -/
inductive Verdict
  | quorumNotMet
  | rootMismatch
  | shaRootMismatch
  | heightRegressed
  | rootChanged
  | adopt (r : Record)

def windowOrderKey (version : Nat) (order : Option Json) : Option String :=
  if version = 3 then some (Snapshot.textOf order) else none

/-- `v ?? null` of a property that holds a string. -/
def textOrNull (v : Option Json) : Option (List Char) := if Snapshot.present v then some (Json.textOf v) else none

/-- `o.height`, once it is known to be an integer. -/
def heightOf (o : Json) : Int :=
  match o.field "height" with
  | some (.num d) => d.toInt
  | _ => 0

/-- The record that `refreshRoots` adopts. -/
def recordOf (cfg : Config) (K : Crypto) (now : Int) (o : Json) (version : Nat) : Record where
  height := heightOf o
  root := Json.textOf (o.field "root")
  shaRoot := textOrNull (o.field "shaRoot")
  ts := Json.numberOf (some (Json.orElse (.num (.ofInt now)) (o.field "ts")))
  order := windowOrderKey version (o.field "order")
  blockHash := textOrNull (o.field "blockHash")
  setCommitment := some (Snapshot.leafSetCommitment K.sha256 (Snapshot.leafTexts o))
  snapshot := some (RootWindow.normalizeSnapshot o cfg.treeDepth)

/-- The SHA-256 root of the leaves, where the snapshot states one. -/
def shaRecomputed (cfg : Config) (K : Crypto) (o : Json) : Except String (Option (List Char)) :=
  if Snapshot.present (o.field "shaRoot") then
    (Snapshot.shaRootFromLeaves K.sha256 cfg.treeDepth (Snapshot.leafTexts o)).map some
  else .ok none

/-- The part of the `try` block after its last `await`. -/
def judge (cfg : Config) (K : Crypto) (now : Nat → Int) (snaps : List Record) (o : Json) (requiresSha : Bool) :
    Except String Verdict := do
  Snapshot.validateSnapshot cfg.toConfig (now 0) (now 1) o requiresSha
  let signaturesOk ← signaturesOk cfg K o
  if !signaturesOk then .ok .quorumNotMet
  else
    let recomputed ← Snapshot.dmlRootFromLeaves K.poseidon cfg.treeDepth (Snapshot.leafTexts o)
    let shaRecomputed ← shaRecomputed cfg K o
    if recomputed ≠ Json.textOf (o.field "root") then .ok .rootMismatch
    else if shaRecomputed.any fun r => decide (r ≠ Json.textOf (o.field "shaRoot")) then .ok .shaRootMismatch
    else if (RootWindow.maxHeight snaps).any fun m => decide (heightOf o < m) then .ok .heightRegressed
    else if !RootWindow.mayCoexist snaps (heightOf o) (textOrNull (o.field "blockHash"))
        (some (Snapshot.leafSetCommitment K.sha256 (Snapshot.leafTexts o))) then .ok .rootChanged
    else
      let version ← Snapshot.snapshotVersion o
      .ok (.adopt (recordOf cfg K (now 2) o version))

/-! ## The gateway -/

structure Gateway where
  snaps : List Record
  refreshInFlight : Bool
  closed : Bool

/-- What a refresh meets: the snapshot or why there is none, whether the season has zkVM registrations, the readings
of the clock, and the roots that the pending challenges pin. -/
structure Attempt where
  fetched : Except String Json
  hasEngine : Except String Bool
  now : Nat → Int
  pinned : Nat → List (List Char)

def requiresSha (cfg : Config) (a : Attempt) : Except String Bool :=
  if cfg.requireShaRoot then .ok true else if cfg.twoTier then a.hasEngine else .ok false

/-- The `try` block. -/
def attempt (cfg : Config) (K : Crypto) (snaps : List Record) (a : Attempt) : Except String Verdict := do
  let o ← a.fetched
  let requiresSha ← requiresSha cfg a
  judge cfg K a.now snaps o requiresSha

/-- The window after the `try` block; what it throws is caught. -/
def tried (cfg : Config) (K : Crypto) (snaps : List Record) (a : Attempt) : List Record :=
  match attempt cfg K snaps a with
  | .ok (.adopt r) => match RootWindow.adopt cfg.limits a.pinned snaps r with
    | .ok snaps => snaps
    | .error _ => snaps
  | _ => snaps

def enforceDmlFreshness (cfg : Config) (now : Int) (snaps : List Record) : List Record :=
  if cfg.oracleMaxAgeSeconds = 0 then snaps else RootWindow.dropOlderThan (now - cfg.oracleMaxAgeSeconds) snaps

inductive Event
  /-- `refreshRoots` is called. -/
  | refreshRoots
  /-- The refresh in flight goes on after its last `await`, or that rejects. -/
  | settle (a : Attempt)
  /-- A request arrives. -/
  | request (now : Int)
  | close

def Gateway.step (cfg : Config) (K : Crypto) (g : Gateway) : Event → Gateway
  | .refreshRoots => if g.refreshInFlight || g.closed then g else { g with refreshInFlight := true }
  | .settle a =>
    if !g.refreshInFlight then g
    else if g.closed then { g with refreshInFlight := false }
    else { g with snaps := enforceDmlFreshness cfg (a.now 3) (tried cfg K g.snaps a), refreshInFlight := false }
  | .request now => { g with snaps := enforceDmlFreshness cfg now g.snaps }
  | .close => { g with closed := true }

def Gateway.boot : Gateway := ⟨[], false, false⟩

def Gateway.run (cfg : Config) (K : Crypto) (g : Gateway) (es : List Event) : Gateway := es.foldl (Gateway.step cfg K) g

end Refresh
