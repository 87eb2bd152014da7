import MnoVerify.RegistrationEngines

/-!
# The three circuits

`circuits/mno_membership.circom` and `circuits/mno_members.circom` as the constraints on their signals, beside
`circuits/mno_registration.circom`. A `Proven` is a satisfied assignment of one of the three; its subject is what it proves
knowledge of.
-/

namespace Circuits

open Field (Scalar)
open MerklePath (Inclusion)
open RegistrationEngines (Components KeyHash Poseidon Primitives ORDER TREE_DEPTH signals privToLimbs
  TAG_SEASONAL_REGISTRATION)

/-- `TAG_SINGLE_TIER_ADMISSION()` -/
def TAG_SINGLE_TIER_ADMISSION : Scalar :=
  2746475764083232086712230627440145149755258450541734044813292983362430706365

/-- The signals of `MnoMembership(16, 64, 4)`. -/
structure Membership where
  privkey : List Scalar
  root : Scalar
  epoch : Scalar
  contextHash : Scalar
  signalHash : Scalar
  nullifier : Scalar
  lh : KeyHash
  incl : Inclusion
  sq : Scalar

/-- The constraints of `MnoMembership(16, 64, 4)`. -/
structure Membership.Satisfies {P : Primitives} (C : Components P) (poseidon : Poseidon) (s : Membership) : Prop where
  p2p : C.ECDSAPrivToPub s.privkey s.lh.x s.lh.y
  lh : s.lh.Satisfies C
  leaf : s.incl.leaf = s.lh.out
  incl : s.incl.Satisfies (fun l r => poseidon [l, r]) TREE_DEPTH
  root : s.incl.root = s.root
  dlt : C.BigLessThan s.privkey C.order 1
  kz : C.IsZero s.privkey.sum 0
  nullifier : s.nullifier = poseidon [TAG_SINGLE_TIER_ADMISSION, poseidon s.privkey, s.epoch, s.contextHash]
  sq : s.sq = s.signalHash * s.signalHash

/-- The public signals: the output, then the public inputs. -/
def Membership.publicSignals (s : Membership) : List Scalar :=
  [s.nullifier, s.root, s.epoch, s.contextHash, s.signalHash]

/-- The signals of `MnoMembers(16)`. -/
structure Members where
  secret : Scalar
  membersRoot : Scalar
  epoch : Scalar
  contextHash : Scalar
  signalHash : Scalar
  nullifier : Scalar
  incl : Inclusion
  sq : Scalar

/-- The constraints of `MnoMembers(16)`. -/
structure Members.Satisfies (poseidon : Poseidon) (s : Members) : Prop where
  leaf : s.incl.leaf = poseidon [s.secret]
  incl : s.incl.Satisfies (fun l r => poseidon [l, r]) TREE_DEPTH
  root : s.incl.root = s.membersRoot
  nullifier : s.nullifier = poseidon [s.secret, s.epoch, s.contextHash]
  sq : s.sq = s.signalHash * s.signalHash

def Members.publicSignals (s : Members) : List Scalar :=
  [s.nullifier, s.membersRoot, s.epoch, s.contextHash, s.signalHash]

/-- What is taken of `ECDSAPrivToPub` besides its outputs: the limbs are checked to be of 64 bits. -/
def RangeChecked {P : Primitives} (C : Components P) : Prop :=
  ∀ k x y, C.ECDSAPrivToPub k x y → ∃ limbs : List Nat, limbs.length = 4 ∧ (∀ v ∈ limbs, v < 2 ^ 64) ∧ k = signals limbs

/-- The multiples of the generator below its order differ. -/
def PointInjective (P : Primitives) : Prop :=
  ∀ d d', 0 < d → d < ORDER → 0 < d' → d' < ORDER → P.point d = P.point d' → d = d'

/-- No two of these inputs hash alike. -/
def CollisionFree (poseidon : Poseidon) (inputs : List (List Scalar)) : Prop :=
  ∀ xs ∈ inputs, ∀ ys ∈ inputs, poseidon xs = poseidon ys → xs = ys

/-! ## A satisfied circuit -/

inductive Proven {P : Primitives} (C : Components P) (poseidon : Poseidon)
  | membership (s : Membership) (h : s.Satisfies C poseidon)
  | registration (s : RegistrationEngines.Signals) (h : s.Satisfies C poseidon)
  | members (s : Members) (h : s.Satisfies poseidon)

/-- What is proved: the key of a point in one of its two uses, or a member's secret. -/
inductive Subject
  | admission (x y : List Scalar)
  | registration (x y : List Scalar)
  | member (secret : Scalar)
deriving DecidableEq

namespace Proven

variable {P : Primitives} {C : Components P} {poseidon : Poseidon}

def nullifier : Proven C poseidon → Scalar
  | membership s _ => s.nullifier
  | registration s _ => s.regNullifier
  | members s _ => s.nullifier

def subject : Proven C poseidon → Subject
  | membership s _ => .admission s.lh.x s.lh.y
  | registration s _ => .registration s.lh.x s.lh.y
  | members s _ => .member s.secret

/-- The epoch or the season. -/
def period : Proven C poseidon → Scalar
  | membership s _ => s.epoch
  | registration s _ => s.season
  | members s _ => s.epoch

def contextHash : Proven C poseidon → Scalar
  | membership s _ => s.contextHash
  | registration s _ => s.contextHash
  | members s _ => s.contextHash

/-- The inputs that the nullifier is hashed from. -/
def preimage : Proven C poseidon → List Scalar
  | membership s _ => [TAG_SINGLE_TIER_ADMISSION, poseidon s.privkey, s.epoch, s.contextHash]
  | registration s _ => [TAG_SEASONAL_REGISTRATION, poseidon s.privkey, s.season, s.contextHash]
  | members s _ => [s.secret, s.epoch, s.contextHash]

/-- The limbs that the key is hashed from. -/
def limbs : Proven C poseidon → List (List Scalar)
  | membership s _ => [s.privkey]
  | registration s _ => [s.privkey]
  | members _ _ => []

/-- What the circuit hashes on the way to its nullifier. -/
def hashed (p : Proven C poseidon) : List (List Scalar) := p.preimage :: p.limbs

end Proven

end Circuits
