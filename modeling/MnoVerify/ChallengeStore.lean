import MnoVerify.Assoc

/-!
# The challenge store

`ChallengeStore` of `core/stores.js`, and what a gateway does with it: challenges are put, taken, and put back when they
were not processed, roots are held for as long as a verify runs, and the clock is read where the code reads it.
-/

/-- What a challenge was minted with, and when it ends. -/
structure Challenge (α : Type) where
  value : α
  expires : Int

/-- `held` counts the verifies in flight against a root. -/
structure ChallengeStore (α : Type) where
  ttl : Int
  maxPending : Nat
  pending : List (String × Challenge α)
  held : List (String × Int)

namespace ChallengeStore

variable {α : Type}

def new (ttlSeconds : Int) (maxPending : Nat) : ChallengeStore α := ⟨ttlSeconds * 1000, maxPending, [], []⟩

def sweep (s : ChallengeStore α) (now : Int) : ChallengeStore α :=
  { s with pending := s.pending.filter fun p => !decide (p.2.expires < now) }

/-- The sweep of a store that is full. -/
def sweepFull (s : ChallengeStore α) (now : Int) : ChallengeStore α :=
  if s.maxPending ≤ s.pending.length then s.sweep now else s

/-- `put`; the second clock is that of the expiry. -/
def put (s : ChallengeStore α) (nonce : String) (value : α) (now₁ now₂ : Int) : Bool × ChallengeStore α :=
  let s := s.sweepFull now₁
  if s.maxPending ≤ s.pending.length then (false, s)
  else (true, { s with pending := Assoc.set s.pending nonce ⟨value, now₂ + s.ttl⟩ })

def take (s : ChallengeStore α) (nonce : String) (now : Int) : Option (Challenge α) × ChallengeStore α :=
  match s.pending.lookup nonce with
  | none => (none, s)
  | some v => (if v.expires < now then none else some v, { s with pending := Assoc.erase s.pending nonce })

def restore (s : ChallengeStore α) (nonce : String) (value : Challenge α) (now₁ now₂ : Int) : Bool × ChallengeStore α :=
  if value.expires < now₁ then (false, s)
  else
    let s := s.sweepFull now₂
    if s.maxPending ≤ s.pending.length then (false, s)
    else (true, { s with pending := Assoc.set s.pending nonce value })

/-- `pinnedRoots`; `root` is the property of that name, none when it is null. -/
def pinnedRoots (root : α → Option String) (s : ChallengeStore α) (now : Int) : List String × ChallengeStore α :=
  let s := s.sweep now
  (s.pending.filterMap (fun p => root p.2.value) ++ s.held.map Prod.fst, s)

/-- What `hold` returns closes over: its root, none for a null one, and whether it was called. -/
structure Release where
  root : Option String
  released : Bool

def hold (s : ChallengeStore α) (root : Option String) : Release × ChallengeStore α :=
  match root with
  | none => (⟨none, false⟩, s)
  | some r => (⟨some r, false⟩, { s with held := Assoc.set s.held r ((s.held.lookup r).getD 0 + 1) })

/-- A call of what `hold` returned. -/
def release (s : ChallengeStore α) (f : Release) : Release × ChallengeStore α :=
  match f.root with
  | none => (f, s)
  | some r =>
    if f.released then (f, s)
    else
      let n := (s.held.lookup r).getD 1 - 1
      ({ f with released := true },
        { s with held := if 0 < n then Assoc.set s.held r n else Assoc.erase s.held r })

/-! ## Runs -/

/-- What came of a call. -/
inductive Event (α : Type)
  | put (nonce : String) (now : Int)
  | took (nonce : String) (value : Challenge α) (now : Int)
  | restored (nonce : String) (value : Challenge α)
  | released (hold : Nat)

/-- A store, the functions that `hold` returned, and what happened, the latest first. -/
structure World (α : Type) where
  store : ChallengeStore α
  holds : List Release
  log : List (Event α)

namespace World

def new (ttlSeconds : Int) (maxPending : Nat) : World α := ⟨ChallengeStore.new ttlSeconds maxPending, [], []⟩

def put (w : World α) (nonce : String) (value : α) (now₁ now₂ : Int) : World α :=
  let (done, store) := w.store.put nonce value now₁ now₂
  { w with store := store, log := if done then .put nonce now₂ :: w.log else w.log }

def take (w : World α) (nonce : String) (now : Int) : World α :=
  let (taken, store) := w.store.take nonce now
  { w with store := store, log := match taken with | some v => .took nonce v now :: w.log | none => w.log }

def restore (w : World α) (nonce : String) (value : Challenge α) (now₁ now₂ : Int) : World α :=
  let (done, store) := w.store.restore nonce value now₁ now₂
  { w with store := store, log := if done then .restored nonce value :: w.log else w.log }

def hold (w : World α) (root : Option String) : World α :=
  let (f, store) := w.store.hold root
  { w with store := store, holds := w.holds ++ [f] }

/-- A call of the function that hold number `i` returned. -/
def release (w : World α) (i : Nat) : World α :=
  match w.holds[i]? with
  | none => w
  | some f =>
    let (f, store) := w.store.release f
    { store := store, holds := w.holds.set i f, log := .released i :: w.log }

/-- The states that a gateway brings a store to: a nonce is put once, and what is restored was taken. -/
inductive Reachable (root : α → Option String) (ttlSeconds : Int) (maxPending : Nat) : World α → Prop
  | new : Reachable root ttlSeconds maxPending (new ttlSeconds maxPending)
  | put {w : World α} (h : Reachable root ttlSeconds maxPending w) {nonce : String} (fresh : ∀ now, .put nonce now ∉ w.log)
      (value : α) (now₁ now₂ : Int) : Reachable root ttlSeconds maxPending (w.put nonce value now₁ now₂)
  | take {w : World α} (h : Reachable root ttlSeconds maxPending w) (nonce : String) (now : Int) :
      Reachable root ttlSeconds maxPending (w.take nonce now)
  | restore {w : World α} (h : Reachable root ttlSeconds maxPending w) {nonce : String} {value : Challenge α} {now : Int}
      (taken : .took nonce value now ∈ w.log) (now₁ now₂ : Int) :
      Reachable root ttlSeconds maxPending (w.restore nonce value now₁ now₂)
  | sweep {w : World α} (h : Reachable root ttlSeconds maxPending w) (now : Int) :
      Reachable root ttlSeconds maxPending { w with store := w.store.sweep now }
  | pinnedRoots {w : World α} (h : Reachable root ttlSeconds maxPending w) (now : Int) :
      Reachable root ttlSeconds maxPending { w with store := (w.store.pinnedRoots root now).2 }
  | hold {w : World α} (h : Reachable root ttlSeconds maxPending w) (r : Option String) :
      Reachable root ttlSeconds maxPending (w.hold r)
  | release {w : World α} (h : Reachable root ttlSeconds maxPending w) (i : Nat) :
      Reachable root ttlSeconds maxPending (w.release i)

end World

end ChallengeStore
