import MnoVerify.Assoc
import MnoVerify.Snapshot
import Mathlib.Data.List.Sort

/-!
# The root window

`RootWindows` and `normalizeSnapshot` of `core/stores.js`: a ring of adopted snapshots, one record for each height
and leaf order. A window is the list of its records, lowest height first. `pinnedRoots` is asked on every turn of
the eviction loop and may answer differently each time.
-/

namespace RootWindow

structure Record where
  height : Int
  root : List Char
  shaRoot : Option (List Char)
  /-- `Number(ts)`, which is all that is read of it. -/
  ts : Js.Num
  order : Option String
  blockHash : Option (List Char)
  setCommitment : Option (List Char)
  snapshot : Option Json

/-- The options of a window; the configuration refuses a window of no heights. -/
structure Limits where
  window : Nat
  window_pos : 0 < window
  /-- 0 is no bound. -/
  maxLeaves : Nat

/-! ## The snapshot of a record -/

def SNAPSHOT_FIELDS : List String := ["version", "height", "blockHash", "depth", "ts", "root", "shaRoot", "leaves"]

/-- A property that is left out where the source sets it to `undefined`. -/
def prop (k : String) (v : Option Json) : List (String × Json) := v.toList.map fun v => (k, v)

def normalizeSnapshot (o : Json) (defaultDepth : Nat) : Json :=
  .obj (("version", Json.orElse (.num (.ofNat 1)) (o.field "version")) :: prop "height" (o.field "height") ++
    ("blockHash", Json.orElse .null (o.field "blockHash")) ::
    ("depth", Json.orElse (.num (.ofNat defaultDepth)) (o.field "depth")) :: prop "ts" (o.field "ts") ++
    [("root", .str (Snapshot.textOf (o.field "root"))), ("shaRoot", Json.orElse .null (o.field "shaRoot")),
      ("leaves", .arr (Snapshot.leaves o))])

def keysOf : Json → List String
  | .obj m => m.map Prod.fst
  | _ => []

/-- `String(v ?? null)` -/
def nullText (v : Option (List Char)) : List Char := v.getD ['n', 'u', 'l', 'l']

/-- Every key of the snapshot is one of `SNAPSHOT_FIELDS`. -/
def checkFields (snapshot : Json) : Except String Unit :=
  match (keysOf snapshot).find? fun k => !SNAPSHOT_FIELDS.contains k with
  | some k => .error ("RootWindows: snapshot carries the unexpected field " ++ Snapshot.jsonText (some (.str k)) ++
      ". A record holds only version, height, blockHash, depth, ts, root, shaRoot, leaves, so anything else is an " ++
      "un-normalized object and would be retained at every height, unauthenticated and unbounded.")
  | none => .ok ()

/-- The checks of `adopt` on the snapshot that comes with a record. -/
def checkSnapshot (r : Record) (snapshot : Json) : Except String Unit := do
  checkFields snapshot
  Snapshot.require (decide (Json.textOf (snapshot.field "root") = r.root))
    ("RootWindows: the record advertises root " ++ String.ofList r.root ++ " while its snapshot carries " ++
      Snapshot.textOf (snapshot.field "root") ++ ". One record holds one snapshot, which is what stops a challenge " ++
      "naming a root whose leaves the same instant cannot serve.")
  Snapshot.require (decide (Json.numberOf (snapshot.field "height") = .dec (.ofInt r.height)))
    ("RootWindows: the record is at height " ++ String.ofList (Js.Dec.ofInt r.height).toText ++
      " while its snapshot says " ++ Snapshot.textOf (snapshot.field "height"))
  Snapshot.require (decide (nullText r.shaRoot = (Json.orElse .null (snapshot.field "shaRoot")).toStr))
    ("RootWindows: the record's shaRoot " ++ String.ofList (nullText r.shaRoot) ++ " is not the snapshot's " ++
      Snapshot.textOf (snapshot.field "shaRoot") ++ ". One record holds one snapshot, so their SHA-256 roots must " ++
      "match, present or absent together.")

def KNOWN_ORDERS : List (Option String) := [none, some "proRegTxHash"]

/-! ## The leaf bound -/

/-- `retainedLeaves`, over snapshots whose leaves are an array, as normalized ones are. -/
def retainedLeaves (snaps : List Record) : Nat :=
  (snaps.map fun s => (s.snapshot.elim [] Snapshot.leaves).length).sum

/-- `#pinnedHeights` -/
def pinnedHeights (pinned : List (List Char)) (snaps : List Record) : List Int :=
  (snaps.filter fun s => decide (s.root ∈ pinned) || s.shaRoot.any fun r => decide (r ∈ pinned)).map Record.height

/-- The distinct heights, in the order of the records. -/
def heights (snaps : List Record) : List Int := (snaps.map Record.height).eraseDups

/-- The height that one turn of the loop evicts; `none` when the loop breaks. -/
def evictionTarget (pinned : List (List Char)) (snaps : List Record) : Option Int :=
  match (heights snaps).getLast? with
  | none => none
  | some newest =>
    let candidates := (heights snaps).filter fun h => decide (h ≠ newest)
    let unpinned := candidates.find? fun h => decide (h ∉ pinnedHeights pinned snaps)
    unpinned.or candidates.head?

/-- One turn of the loop of `#enforceLeafBound`; `none` when it is over. -/
def evictStep (maxLeaves : Nat) (pinned : List (List Char)) (snaps : List Record) : Option (List Record) :=
  if retainedLeaves snaps ≤ maxLeaves then none
  else (evictionTarget pinned snaps).map fun target => snaps.filter fun s => decide (s.height ≠ target)

/-- The loop, for as many turns as there are records; `pinned n` is the answer with `n` turns to go. -/
def evictLoop (maxLeaves : Nat) (pinned : Nat → List (List Char)) : Nat → List Record → List Record
  | 0, snaps => snaps
  | n + 1, snaps => match evictStep maxLeaves (pinned n) snaps with
    | none => snaps
    | some snaps => evictLoop maxLeaves pinned n snaps

/-- `#enforceLeafBound` -/
def enforceLeafBound (maxLeaves : Nat) (pinned : Nat → List (List Char)) (snaps : List Record) : List Record :=
  if maxLeaves = 0 then snaps else evictLoop maxLeaves pinned snaps.length snaps

/-! ## Adoption -/

/-- The key `${height}|${order ?? "legacy"}`. -/
structure Key where
  height : Int
  order : Option String
deriving DecidableEq

def Record.key (r : Record) : Key := ⟨r.height, r.order⟩

/-- `byKey`, from the records. -/
def byKey (snaps : List Record) : List (Key × Record) := snaps.foldl (fun m s => Assoc.set m s.key s) []

/-- The records with the new one last, before they are sorted. -/
def insert (snaps : List Record) (r : Record) : List Record :=
  (Assoc.set (Assoc.erase (byKey snaps) r.key) r.key r).map Prod.snd

/-- The records at the last `window` heights. -/
def trim (window : Nat) (all : List Record) : List Record :=
  let keptHeights := (heights all).drop ((heights all).length - window)
  all.filter fun s => decide (s.height ∈ keptHeights)

/-- The records once a record has passed the checks. -/
def adopted (limits : Limits) (pinned : Nat → List (List Char)) (snaps : List Record) (r : Record) : List Record :=
  let all := (insert snaps r).insertionSort fun a b => a.height ≤ b.height
  enforceLeafBound limits.maxLeaves pinned (trim limits.window all)

/-- `adopt` -/
def adopt (limits : Limits) (pinned : Nat → List (List Char)) (snaps : List Record) (r : Record) :
    Except String (List Record) := do
  r.snapshot.elim (.ok ()) (checkSnapshot r)
  Snapshot.require (KNOWN_ORDERS.contains r.order)
    ("RootWindows: unknown leaf ordering " ++ Snapshot.jsonText (r.order.map .str) ++ ". The window's key space is the " ++
      "set of orderings this build knows, and that is what bounds records at one height.")
  return adopted limits pinned snaps r

/-! ## Reading -/

def current (snaps : List Record) : Option Record := snaps.getLast?

def maxHeight (snaps : List Record) : Option Int := (snaps.map Record.height).max?

def isRecent (snaps : List Record) (root : List Char) : Bool := snaps.any fun s => decide (s.root = root)

def shaIsRecent (snaps : List Record) (shaRoot : List Char) : Bool := snaps.any fun s => decide (s.shaRoot = some shaRoot)

/-- `tsOf`: the newest finite timestamp among the records of a root. -/
def tsOf (snaps : List Record) (root : List Char) : Option ℚ :=
  snaps.foldl (fun newest s => if s.root ≠ root then newest else match s.ts, newest with
    | .dec d, none => some d.toRat
    | .dec d, some n => if n < d.toRat then some d.toRat else some n
    | _, newest => newest) none

def isEligibleWithin (snaps : List Record) (root : List Char) (maxAgeSeconds now : ℚ) : Bool :=
  if !isRecent snaps root then false
  else if ¬ 0 < maxAgeSeconds then true
  else match tsOf snaps root with
    | none => false
    | some ts => decide (max 0 (now - ts) ≤ maxAgeSeconds)

def mayCoexist (snaps : List Record) (height : Int) (blockHash setCommitment : Option (List Char)) : Bool :=
  (snaps.filter fun s => decide (s.height = height)).all fun s =>
    s.blockHash.isSome && decide (s.blockHash = blockHash) && s.setCommitment.isSome &&
      decide (s.setCommitment = setCommitment)

/-- `Number(ts) >= cutoff` -/
def notBefore (cutoff : Int) : Js.Num → Bool
  | .nan => false
  | .infinite neg => !neg
  | .dec d => decide ((cutoff : ℚ) ≤ d.toRat)

def dropOlderThan (cutoff : Int) (snaps : List Record) : List Record := snaps.filter fun s => notBefore cutoff s.ts

end RootWindow
