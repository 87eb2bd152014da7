import MnoVerify.NullifierStore

/-!
# Verifying a membership proof

`verifyMembership` of `core/verifier.js`. A call is cut at its awaits: `start` and
`advance` are the synchronous stretches between them, and what is awaited is settled
in an `Env` of the stretch that goes on with it. `ρ` is what a period check reads.
-/

namespace Verifier

/-- `readSignals` of an array that passed the canonicality check. -/
structure Signals where
  nullifier : Element
  root : Element
  epoch : Element
  contextHash : Element
  signalHash : Element

def Signals.tag (s : Signals) : Tag := ⟨s.epoch, s.contextHash, s.nullifier⟩

def signalsAreCanonical (publicSignals : Json) (count : Nat) : Bool :=
  match publicSignals with
  | .arr l => decide (l.length = count) && l.all Field.isCanonicalField
  | _ => false

/-- An element, when the signal is one. -/
def element : Json → Option Element
  | .str s => if h : Field.isCanonical s.toList = true then some ⟨s, h⟩ else none
  | _ => none

def readSignals : Json → Option Signals
  | .arr [nullifier, root, epoch, contextHash, signalHash] => do
    some ⟨← element nullifier, ← element root, ← element epoch, ← element contextHash, ← element signalHash⟩
  | _ => none

/-- What the caller expects. `account` is none when it is not a string. -/
structure Expected where
  account : Option String
  /-- `rootStore.isRecent` as the call starts. -/
  isRecent : String → Bool
  epoch : String
  contextHash : String
  signalHash : String
  /-- Whether `stillCurrent` is a function. -/
  hasStillCurrent : Bool

inductive ErrorTag
  | beforeSpend
  | overloaded
deriving DecidableEq

/-- How a call ends. -/
inductive Result
  | refused (reason : String)
  | granted (nullifier epoch : Element) (regranted : Bool)
  | rejected (tag : Option ErrorTag)

/-- The four places where the period is checked. -/
inductive Phase
  | regrant
  | beforeAdd
  | afterAdd (duplicate : Bool)
  | afterLookup

/-- What the call awaits. -/
inductive Pc
  | has (spent : Bool)
  | owner (prior : Option Account)
  | proof (spent : Bool)
  | period (phase : Phase) (reason : Option String)
  | add (duplicate : Bool)
  | ownerAfter (prior : Option Account)
  | done (result : Result)

variable {ρ : Type}

/-- A call that passed the policy checks. -/
structure Call (ρ : Type) where
  signals : Signals
  account : String
  hasStillCurrent : Bool
  pc : Pc
  /-- The call's proof check returned true. -/
  proved : Bool
  /-- The call came to `add`. -/
  spending : Bool
  /-- The call's `add` recorded the claim. -/
  recorded : Bool
  /-- What the last period check before the claim was recorded or re-granted read. -/
  checked : Option ρ

/-- How the awaited proof check settles. -/
inductive ProofOutcome
  | returns (valid : Bool)
  | throws
  /-- The gate sheds the call. -/
  | shed

/-- How `stillCurrent` settles: null, a reason, or a rejection. -/
inductive Verdict
  | answers (reason : Option String)
  | throws

/-- What the outside does in one stretch. -/
structure Env (ρ : Type) where
  /-- A store read throws, an object or not. -/
  readThrows : Option Bool
  proof : ProofOutcome
  verdict : Verdict
  reading : ρ
  /-- `add` throws, and whether the claim was recorded all the same. -/
  addThrows : Option Bool

namespace Call

def tag (c : Call ρ) : Tag := c.signals.tag

def goto (c : Call ρ) (pc : Pc) : Call ρ := { c with pc := pc }

def refuse (c : Call ρ) (reason : String) : Call ρ := c.goto (.done (.refused reason))

def reject (c : Call ρ) (tag : Option ErrorTag) : Call ρ := c.goto (.done (.rejected tag))

def grant (c : Call ρ) (regranted : Bool) : Call ρ :=
  c.goto (.done (.granted c.signals.nullifier c.signals.epoch regranted))

/-- `readBeforeSpend` -/
def readBeforeSpend (c : Call ρ) (env : Env ρ) (pc : Pc) : Call ρ :=
  match env.readThrows with
  | none => c.goto pc
  | some isObject => c.reject (if isObject then some .beforeSpend else none)

/-- The first half of `claimedBySameAccount`: `get` is called. -/
def lookup (c : Call ρ) (s : NullifierStore) (env : Env ρ) (pc : Option Account → Pc) : Call ρ :=
  c.readBeforeSpend env (pc (s.get c.signals.epoch.text c.signals.contextHash.text c.signals.nullifier.text))

/-- The second half of `claimedBySameAccount`. -/
def owns (c : Call ρ) (prior : Option Account) : Bool :=
  match prior with
  | some a => decide (a.toStr = c.account)
  | none => false

/-- `periodStillCurrent` as the phase calls it. -/
def ask (c : Call ρ) (env : Env ρ) (phase : Phase) : Call ρ :=
  if !c.hasStillCurrent then c.goto (.period phase none)
  else
    let c := match phase with
      | .afterAdd _ => c
      | _ => { c with checked := some env.reading }
    match env.verdict with
    | .answers none => c.goto (.period phase none)
    | .answers (some reason) => c.goto (.period phase (some (if reason.length > 0 then reason else "period-changed")))
    | .throws => c.reject none

/-- The spend. -/
def add (c : Call ρ) (s : NullifierStore) (env : Env ρ) : NullifierStore × Call ρ :=
  let c := { c with spending := true }
  let (duplicate, s') := s.add c.signals.epoch.text c.signals.contextHash.text c.signals.nullifier.text c.account
  match env.addThrows with
  | none => (s', { c with recorded := !duplicate }.goto (.add duplicate))
  | some true => (s', { c with recorded := !duplicate }.reject none)
  | some false => (s, c.reject none)

/-- The call goes on after a period check that it passed. -/
def pass (c : Call ρ) (s : NullifierStore) (env : Env ρ) : Phase → NullifierStore × Call ρ
  | .regrant => (s, c.grant true)
  | .beforeAdd => c.add s env
  | .afterAdd true => (s, c.lookup s env .ownerAfter)
  | .afterAdd false => (s, c.grant false)
  | .afterLookup => (s, c.grant true)

/-- A root that aged out is no reason after the spend. -/
def passes : Phase → Option String → Bool
  | _, none => true
  | .regrant, some _ => false
  | .beforeAdd, some _ => false
  | .afterAdd _, some reason => decide (reason = "stale-or-unknown-root")
  | .afterLookup, some reason => decide (reason = "stale-or-unknown-root")

/-- The stretch after one await. -/
def advance (s : NullifierStore) (c : Call ρ) (env : Env ρ) : NullifierStore × Call ρ :=
  match c.pc with
  | .has true => (s, c.lookup s env .owner)
  | .has false => (s, c.goto (.proof false))
  | .owner prior => (s, if c.owns prior then c.goto (.proof true) else c.refuse "already-used")
  | .proof spent => match env.proof with
    | .returns true => (s, { c with proved := true }.ask env (if spent then .regrant else .beforeAdd))
    | .returns false => (s, c.refuse "invalid-proof")
    | .throws => (s, c.refuse "invalid-proof")
    | .shed => (s, c.reject (some .overloaded))
  | .period phase reason => if passes phase reason then c.pass s env phase else (s, c.refuse (reason.getD ""))
  | .add duplicate => (s, c.ask env (.afterAdd duplicate))
  | .ownerAfter prior => (s, if c.owns prior then c.ask env .afterLookup else c.refuse "already-used")
  | .done _ => (s, c)

/-- The stretch calls `stillCurrent`. -/
def asks (c : Call ρ) (env : Env ρ) : Bool :=
  c.hasStillCurrent && match c.pc with
    | .proof _ => match env.proof with
      | .returns valid => valid
      | _ => false
    | .add _ => true
    | .ownerAfter prior => c.owns prior
    | _ => false

/-- A stretch that does not call `stillCurrent` does not depend on its answer. -/
theorem advance_of_not_asks {c : Call ρ} {env : Env ρ} (h : c.asks env = false) (s : NullifierStore) (verdict : Verdict)
    (reading : ρ) : c.advance s { env with verdict := verdict, reading := reading } = c.advance s env := by
  have hask : ∀ (c : Call ρ) phase, c.hasStillCurrent = false →
      c.ask { env with verdict := verdict, reading := reading } phase = c.ask env phase := by
    intro c phase hc
    simp only [ask, hc, Bool.not_false, if_true]
  unfold advance
  unfold asks at h
  split
  · rfl
  · rfl
  · rfl
  · rename_i spent hpc
    rw [hpc] at h
    simp only
    split
    · rename_i hp
      simp only [hp, Bool.and_true] at h
      rw [hask { c with proved := true } _ h]
    · rfl
    · rfl
    · rfl
  · split
    · rename_i phase reason _ _
      cases phase with
      | afterAdd duplicate => cases duplicate <;> rfl
      | _ => rfl
    · rfl
  · rename_i hpc
    simp only [hpc, Bool.and_true] at h
    rw [hask c _ h]
  · rename_i prior hpc
    simp only [hpc] at h
    split
    · rename_i ho
      rw [ho, Bool.and_true] at h
      rw [hask c _ h]
    · rfl
  · rfl

end Call

/-- `verifyMembership` up to its first await: refused by a policy check, or running. -/
def start (s : NullifierStore) (publicSignals : Json) (expected : Expected) (env : Env ρ) : Except String (Call ρ) :=
  match readSignals publicSignals with
  | none => .error "non-canonical-signal"
  | some signals => match expected.account with
    | none => .error "missing-account"
    | some account =>
      if account = "" then .error "missing-account"
      else if !expected.isRecent signals.root.text then .error "stale-or-unknown-root"
      else if signals.epoch.text ≠ expected.epoch then .error "wrong-epoch"
      else if signals.contextHash.text ≠ expected.contextHash then .error "wrong-context"
      else if signals.signalHash.text ≠ expected.signalHash then .error "wrong-signal"
      else
        let spent := s.has signals.epoch.text signals.contextHash.text signals.nullifier.text
        let c : Call ρ := ⟨signals, account, expected.hasStillCurrent, .has spent, false, false, false, none⟩
        .ok (c.readBeforeSpend env (.has spent))

/-- The store, and the calls made on it, in the order in which they started. -/
structure World (ρ : Type) where
  store : NullifierStore
  calls : List (Except String (Call ρ))

inductive Event (ρ : Type)
  | start (publicSignals : Json) (expected : Expected) (env : Env ρ)
  | resume (call : Nat) (env : Env ρ)
  | prune (minEpoch : Js.Num)

def step (w : World ρ) : Event ρ → World ρ
  | .start publicSignals expected env => { w with calls := w.calls ++ [start w.store publicSignals expected env] }
  | .resume i env => match w.calls[i]? with
    | some (.ok c) =>
      let (store, c) := c.advance w.store env
      ⟨store, w.calls.set i (.ok c)⟩
    | _ => w
  | .prune minEpoch => { w with store := w.store.prune minEpoch }

def run (w : World ρ) (events : List (Event ρ)) : World ρ := events.foldl step w

/-- An array of five canonical strings, and nothing else, is read. -/
theorem isSome_readSignals (publicSignals : Json) :
    (readSignals publicSignals).isSome = signalsAreCanonical publicSignals 5 := by
  have he : ∀ j, (element j).isSome = Field.isCanonicalField j := by
    intro j
    cases j <;> simp only [element, Field.isCanonicalField, Option.isSome_none]
    split <;> simp_all
  unfold readSignals
  split
  · rename_i a b c d e
    simp only [signalsAreCanonical, List.length_cons, List.length_nil, List.all_cons, List.all_nil, ← he]
    cases element a <;> cases element b <;> cases element c <;> cases element d <;> cases element e <;> rfl
  · rename_i h
    unfold signalsAreCanonical
    split
    · rename_i l
      symm
      rw [Option.isSome_none, Bool.and_eq_false_iff, decide_eq_false_iff_not]
      refine Or.inl fun hl => ?_
      rcases l with _ | ⟨a, _ | ⟨b, _ | ⟨c, _ | ⟨d, _ | ⟨e, _ | ⟨f, l⟩⟩⟩⟩⟩⟩
      case cons.cons.cons.cons.cons.nil => exact h a b c d e rfl
      all_goals simp only [List.length_nil, List.length_cons] at hl; omega
    · rfl

end Verifier
