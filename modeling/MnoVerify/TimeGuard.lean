import MnoVerify.JsonSound

/-!
# The clock guard

`core/time_guard.js`: the highest epoch and season a gateway has seen, in memory
and in the marks file, and the sticky record of a backward clock. A run is any
sequence of starts, `epoch()` and `season()` calls and kills; each `#persist` may
write, throw, or be cut by a kill. The file is replaced by a rename, so a
`#persist` that throws leaves it as it was.
-/

namespace TimeGuard

inductive Kind
  | epoch
  | season
deriving DecidableEq

def Kind.name : Kind → String
  | epoch => "epoch"
  | season => "season"

/-- The configured period lengths, which key the marks. -/
structure Lengths where
  epochSeconds : Nat
  seasonSeconds : Nat
  epoch_pos : 0 < epochSeconds
  season_pos : 0 < seasonSeconds

def epochNow (epochSeconds : Nat) (nowSeconds : Int) : Int := nowSeconds / epochSeconds

def seasonNow (seasonSeconds : Nat) (nowSeconds : Int) : Int := nowSeconds / seasonSeconds

/-- The period a clock reading falls in. -/
def periodNow (l : Lengths) : Kind → Int → Int
  | .epoch => epochNow l.epochSeconds
  | .season => seasonNow l.seasonSeconds

structure Marks where
  epoch : Option Int
  season : Option Int

def Marks.get (m : Marks) : Kind → Option Int
  | .epoch => m.epoch
  | .season => m.season

def Marks.set (m : Marks) (v : Int) : Kind → Marks
  | .epoch => { m with epoch := some v }
  | .season => { m with season := some v }

@[simp] theorem Marks.get_set (m : Marks) (v : Int) (k : Kind) : (m.set v k).get k = some v := by
  cases k <;> rfl

theorem Marks.get_set_of_ne (m : Marks) (v : Int) {k k' : Kind} (h : k' ≠ k) : (m.set v k).get k' = m.get k' := by
  cases k <;> cases k' <;> first | rfl | exact absurd rfl h

/-- The guard of one process. A recorded regression is an object. -/
structure Guard where
  marks : Marks
  regression : Option { j : Json // j.isObject = true }

def Guard.fresh : Guard := ⟨⟨none, none⟩, none⟩

def Guard.regressed (g : Guard) : Bool := g.regression.isSome

/-! ## `#load` and `#persist` -/

inductive LoadError
  | unreadable
  | notJson
  | malformed
  | malformedMark (kind : Kind)

/-- The text of the error, given the path of the marks and the message of the failed call. -/
def LoadError.text (path message : String) : LoadError → String
  | unreadable => "cannot read the clock marks at " ++ path ++ " (" ++ message ++ "). Fix or remove it."
  | notJson => "clock marks at " ++ path ++ " are not valid JSON (" ++ message ++ "). Fix or remove it."
  | malformed => "clock marks at " ++ path ++ " are malformed. Fix or remove it."
  | malformedMark kind => "clock marks at " ++ path ++ " have a malformed " ++ kind.name ++ ". Fix or remove it."

def loadMark (raw : Json) (k : Kind) : Except LoadError (Option Int) :=
  match raw.field k.name with
  | none => .ok none
  | some .null => .ok none
  | some (.num d) => if d.isInteger then .ok (some d.toInt) else .error (.malformedMark k)
  | some _ => .error (.malformedMark k)

def loadRegression (raw : Json) : Option { j : Json // j.isObject = true } :=
  match raw.field "regression" with
  | some j => if h : j.isObject = true then some ⟨j, h⟩ else none
  | none => none

/-- `#load` on the text of the marks file, `none` when there is no file. -/
def load (l : Lengths) : Option (List Char) → Except LoadError Guard
  | none => .ok .fresh
  | some text => match Json.parse text with
    | none => .error .notJson
    | some raw =>
      if !raw.isObject then .error .malformed
      else if !Json.isNum (.ofNat l.epochSeconds) (raw.field "epochSeconds") ||
          !Json.isNum (.ofNat l.seasonSeconds) (raw.field "seasonSeconds") then .ok .fresh
      else do
        let epoch ← loadMark raw .epoch
        let season ← loadMark raw .season
        .ok ⟨⟨epoch, season⟩, loadRegression raw⟩

def markJson : Option Int → Json
  | none => .null
  | some z => .num (.ofInt z)

def regressionJson : Option { j : Json // j.isObject = true } → Json
  | none => .null
  | some j => j.val

/-- What `#persist` writes. -/
def persistBody (l : Lengths) (g : Guard) : Json :=
  .obj [("epochSeconds", .num (.ofNat l.epochSeconds)), ("seasonSeconds", .num (.ofNat l.seasonSeconds)),
    ("epoch", markJson g.marks.epoch), ("season", markJson g.marks.season), ("regression", regressionJson g.regression)]

/-- The marks file that `#persist` leaves. -/
def persisted (l : Lengths) (g : Guard) : Option (List Char) := some (persistBody l g).stringify

/-! ## `#observe` -/

def regressionOf (k : Kind) (observed mark at_ : Int) : { j : Json // j.isObject = true } :=
  ⟨.obj [("kind", .str k.name), ("observed", .num (.ofInt observed)), ("mark", .num (.ofInt mark)),
    ("at", .num (.ofInt at_))], rfl⟩

/-- `#observe`: the guard in memory afterwards, and whether `#persist` is called. -/
def observe (g : Guard) (k : Kind) (value at_ : Int) : Guard × Bool :=
  match g.marks.get k with
  | none => ({ g with marks := g.marks.set value k }, true)
  | some mark =>
    if mark < value then ({ g with marks := g.marks.set value k }, true)
    else if value < mark ∧ g.regression.isNone then ({ g with regression := some (regressionOf k value mark at_) }, true)
    else (g, false)

/-! ## Runs -/

/-- How a `#persist` goes: it returns, it throws, or the process is killed in it. -/
inductive Write
  | done
  | throws
  | killed (renamed : Bool)

inductive Event
  | start (readFails : Bool)
  | call (kind : Kind) (now at_ : Int) (write : Write)
  | kill

structure State where
  file : Option (List Char)
  /-- The guard of the running process. -/
  guard : Option Guard
  /-- What the last step returned normally. -/
  returned : Option (Kind × Int)
  /-- A call returned normally in a process that had already reported a regression. -/
  served : Bool

def State.init (file : Option (List Char)) : State := ⟨file, none, none, false⟩

def step (l : Lengths) (s : State) : Event → State
  | .start readFails => match s.guard with
    | some _ => { s with returned := none }
    | none =>
      if readFails then { s with returned := none }
      else match load l s.file with
        | .ok g => { s with guard := some g, returned := none }
        | .error _ => { s with returned := none }
  | .kill => { s with guard := none, returned := none }
  | .call k now at_ write => match s.guard with
    | none => { s with returned := none }
    | some g =>
      let value := periodNow l k now
      match observe g k value at_, write with
      | (g', false), _ => { s with guard := some g', returned := some (k, value), served := s.served || g.regressed }
      | (g', true), .done =>
        ⟨persisted l g', some g', some (k, value), s.served || g.regressed⟩
      | (g', true), .throws => { s with guard := some g', returned := none }
      | (g', true), .killed renamed =>
        { s with file := if renamed then persisted l g' else s.file, guard := none, returned := none }

end TimeGuard
