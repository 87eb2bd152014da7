import MnoVerify.Assoc
import Mathlib.Logic.Function.Basic

/-!
# The rate limiters

`RateLimiter` and `allowAll` of `core/stores.js`. The table of a limiter is a `Map`, in insertion order, and the clock is
an argument, one for each place where the code reads it.
-/

/-- The count of a window and its end. -/
structure Hit where
  count : Nat
  reset : Int
deriving DecidableEq

structure RateLimiter where
  windowMs : Int
  max : Nat
  maxKeys : Nat
  hits : List (String × Hit)
deriving DecidableEq

namespace RateLimiter

def new (windowSeconds : Int) (max maxKeys : Nat) : RateLimiter := ⟨windowSeconds * 1000, max, maxKeys, []⟩

def sweep (l : RateLimiter) (now : Int) : RateLimiter :=
  { l with hits := l.hits.filter fun p => !decide (p.2.reset < now) }

/-- `while (this.hits.size >= this.maxKeys)`: the front goes. -/
def evict (maxKeys : Nat) : List (String × Hit) → List (String × Hit)
  | [] => []
  | p :: hits => if maxKeys ≤ hits.length + 1 then evict maxKeys hits else p :: hits

/-- What that loop takes. -/
def dropped (maxKeys : Nat) : List (String × Hit) → List (String × Hit)
  | [] => []
  | p :: hits => if maxKeys ≤ hits.length + 1 then p :: dropped maxKeys hits else []

/-- The table as a new key finds it. -/
def makeRoom (l : RateLimiter) (now : Int) : List (String × Hit) :=
  if l.maxKeys ≤ l.hits.length then evict l.maxKeys (l.sweep now).hits else l.hits

/-- The window that a key has after a charge at `now`. -/
def charged (l : RateLimiter) (key : String) (now : Int) : Hit :=
  match l.hits.lookup key with
  | none => ⟨1, now + l.windowMs⟩
  | some e => if e.reset < now then ⟨1, now + l.windowMs⟩ else ⟨e.count + 1, e.reset⟩

/-- `allow`; the second clock is that of the sweep. -/
def allow (l : RateLimiter) (key : String) (now₁ now₂ : Int) : Bool × RateLimiter :=
  let hits := if (l.hits.lookup key).isSome then l.hits else l.makeRoom now₂
  let e := l.charged key now₁
  (decide (e.count ≤ l.max), { l with hits := Assoc.set hits key e })

/-- The live windows that `allow` takes from other keys. -/
def evicted (l : RateLimiter) (key : String) (now₂ : Int) : List (String × Hit) :=
  if (l.hits.lookup key).isNone && decide (l.maxKeys ≤ l.hits.length) then dropped l.maxKeys (l.sweep now₂).hits else []

def wouldAllow (l : RateLimiter) (key : String) (now : Int) : Bool :=
  match l.hits.lookup key with
  | none => true
  | some e => decide (e.reset < now) || decide (e.count + 1 ≤ l.max)

/-! ## Several limiters -/

/-- The readings of a clock do not go back. -/
def NonDecreasing (clock : Nat → Int) : Prop := ∀ ⦃s t⦄, s ≤ t → clock s ≤ clock t

section
variable {ι : Type} [DecidableEq ι] (clock : Nat → Int)

/-- The pass that asks; it reads the clock from reading `t` on. -/
def askAll (ls : ι → RateLimiter) : Nat → List (ι × String) → Bool
  | _, [] => true
  | t, (i, key) :: pairs => if !(ls i).wouldAllow key (clock t) then false else askAll ls (t + 1) pairs

/-- The pass that charges. -/
def chargeAll (ls : ι → RateLimiter) : Nat → List (ι × String) → ι → RateLimiter
  | _, [] => ls
  | t, (i, key) :: pairs => chargeAll (Function.update ls i ((ls i).allow key (clock t) (clock (t + 1))).2) (t + 2) pairs

def allowAll (ls : ι → RateLimiter) (pairs : List (ι × String)) : Bool × (ι → RateLimiter) :=
  if askAll clock ls 0 pairs then (true, chargeAll clock ls pairs.length pairs) else (false, ls)

end

end RateLimiter
