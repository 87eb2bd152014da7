import MnoVerify.ProverSound

/-!
# One subject, one account

Runs of the gateway whose valid proofs come from satisfied circuits. A spent tag belongs to one subject in one period and
context, and whatever the order of the calls, a subject gets one account into a period and a context.
-/

namespace Admission

open Circuits (Proven RangeChecked PointInjective CollisionFree)
open Field (Scalar)
open Prover (element)
open RegistrationEngines (Components Poseidon Primitives)
open Verifier (World Event Call run Spares AllSound AllHeld no_calls)

variable {ρ : Type} {P : Primitives} {C : Components P} {poseidon : Poseidon}

/-- The tag of a call is what its circuit puts out. -/
structure Backed (p : Proven C poseidon) (c : Call ρ) : Prop where
  nullifier : c.tag.nullifier = element p.nullifier
  epoch : c.tag.epoch = element p.period
  contextHash : c.tag.contextHash = element p.contextHash

/-- The same subject in the same period and context. -/
structure Same (p q : Proven C poseidon) : Prop where
  subject : p.subject = q.subject
  period : p.period = q.period
  contextHash : p.contextHash = q.contextHash

theorem element_inj {v w : Scalar} (h : element v = element w) : v = w := by
  have htext := congrArg (fun e : Element => Prover.signal e.text) h
  simpa [element, Prover.signal_natText] using htext

/-- Two tags are one exactly where the nullifiers, the periods and the contexts are. -/
theorem tag_eq_iff {p q : Proven C poseidon} {c d : Call ρ} (hp : Backed p c) (hq : Backed q d) :
    c.tag = d.tag ↔ p.nullifier = q.nullifier ∧ p.period = q.period ∧ p.contextHash = q.contextHash := by
  constructor
  · intro h
    refine ⟨element_inj ?_, element_inj ?_, element_inj ?_⟩
    · rw [← hp.nullifier, h, hq.nullifier]
    · rw [← hp.epoch, h, hq.epoch]
    · rw [← hp.contextHash, h, hq.contextHash]
  · rintro ⟨hn, he, hc⟩
    apply Tag.ext
    · rw [hp.epoch, he, hq.epoch]
    · rw [hp.contextHash, hc, hq.contextHash]
    · rw [hp.nullifier, hn, hq.nullifier]

/-- A granted call owns what the store holds of its tag. -/
theorem owned_of_isGranted {c : Call ρ} (h : c.isGranted = true) : c.pc.owned = true ∧ c.pc.proved = true := by
  unfold Call.isGranted at h
  split at h
  · rename_i hpc
    rw [hpc]
    exact ⟨rfl, rfl⟩
  · cases h

/-- The signals of the secret 2 in the epoch 3 and the context 4. -/
def twiceSignals : Json := .arr [.str "2", .str "2", .str "3", .str "4", .str "5"]

/-- Two calls of one account for the secret 2, the second after the first is granted. -/
def twice : List (Event Unit) :=
  .start twiceSignals Verifier.raceExpected Verifier.raceEnv :: (List.replicate 5 (.resume 0 Verifier.raceEnv) ++
    .start twiceSignals Verifier.raceExpected Verifier.raceEnv :: List.replicate 5 (.resume 1 Verifier.raceEnv))

/-- The circuit that the signals come from. -/
def twiceProven : Proven (Circuits.checked Circuits.points) Circuits.first := Circuits.memberTwoProven (3 : Nat) (4 : Nat) (5 : Nat)

theorem element_natCast {n : Nat} (h : n < Field.FIELD_PRIME) : (element (n : Scalar)).text = Snapshot.natText n := by
  exact congrArg Snapshot.natText (ZMod.val_natCast_of_lt h)

theorem twice_backed {i : Nat} {c : Call Unit} (h : (run ⟨.memory [], []⟩ twice).calls[i]? = some (.ok c)) :
    Backed twiceProven c := by
  have htag : c.tag = ⟨⟨"3", by decide⟩, ⟨"4", by decide⟩, ⟨"2", by decide⟩⟩ := by
    match i, h with
    | 0, h => cases h; rfl
    | 1, h => cases h; rfl
  have hthree : element ((3 : Nat) : Scalar) = ⟨"3", by decide⟩ := Element.ext (element_natCast (by decide))
  have hfour : element ((4 : Nat) : Scalar) = ⟨"4", by decide⟩ := Element.ext (element_natCast (by decide))
  have htwo : element ((2 : Nat) : Scalar) = ⟨"2", by decide⟩ := Element.ext (element_natCast (by decide))
  rw [← hthree, ← hfour, ← htwo] at htag
  constructor
  · rw [htag]
    rfl
  · rw [htag]
    rfl
  · rw [htag]
    rfl

end Admission
