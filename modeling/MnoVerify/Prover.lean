import MnoVerify.Circuits

/-!
# The provers

What `prover/prover.js` and the `prove` step of `prover/two_tier.js` give to their circuits, from a challenge and a list of
leaves. The keys and the secret are already read.
-/

namespace Prover

open Circuits (Membership Members)
open Field (Scalar)
open MerklePath (Path circomlib merklePathFor)
open OracleLeaves (leafFromPubkey)
open RegistrationEngines (Poseidon Primitives ORDER TREE_DEPTH compressed privToLimbs)
open Snapshot (natText)

/-- A scalar that `getPublicKey` takes. -/
structure VotingKey where
  d : Nat
  d_pos : 0 < d
  d_lt : d < ORDER

/-- What is read of a challenge, each as a string. -/
structure Challenge where
  root : String
  epoch : String
  contextHash : String
  signalHash : String

/-- The hash of two, as the trees use it. -/
def pair (poseidon : Poseidon) (l r : Scalar) : Scalar := poseidon [l, r]

/-- A decimal string as a signal. -/
def signal (text : String) : Scalar := (Field.value text.toList : Scalar)

/-- `leafFromPriv` -/
def leafFromPriv (P : Primitives) (key : VotingKey) : Nat := leafFromPubkey P.hash160 (compressed (P.point key.d))

/-! ## The single tier -/

structure MembershipInput where
  privkey : List String
  path : Path
  root : String
  epoch : String
  contextHash : String
  signalHash : String

/-- `prover.js` up to the proof. -/
def proveMembership (P : Primitives) (poseidon : Poseidon) (leaves : List String) (challenge : Challenge) (key : VotingKey) :
    Except String MembershipInput :=
  match leaves.idxOf? (natText (leafFromPriv P key)) with
  | none => .error "This voting key does not match any masternode in the current list."
  | some index => do
    let path ← merklePathFor (circomlib (pair poseidon)) leaves (.dec (.ofNat index)) TREE_DEPTH
    if natText path.root ≠ challenge.root then
      .error ("The local masternode list does not match the challenge root. The list has moved.\n" ++
        "Refresh your oracle snapshot and request a new challenge, then try again.")
    else .ok {
      privkey := (privToLimbs key.d).map natText
      path := path
      root := challenge.root
      epoch := challenge.epoch
      contextHash := challenge.contextHash
      signalHash := challenge.signalHash }

/-- The assignment takes its input signals from what the prover gives. -/
structure MembershipInput.Feeds (input : MembershipInput) (s : Membership) : Prop where
  privkey : s.privkey = input.privkey.map signal
  pathElements : ∀ l < TREE_DEPTH, input.path.pathElements[l]? = some (s.incl.pathElements l).val
  pathIndices : ∀ l < TREE_DEPTH, input.path.pathIndices[l]? = some (s.incl.pathIndices l).val
  root : s.root = signal input.root
  epoch : s.epoch = signal input.epoch
  contextHash : s.contextHash = signal input.contextHash
  signalHash : s.signalHash = signal input.signalHash

/-! ## The second tier -/

structure MembersInput where
  secret : String
  path : Path
  membersRoot : String
  epoch : String
  contextHash : String
  signalHash : String

/-- `prove` up to the proof, over the commitments that the gateway serves. -/
def proveMembers (poseidon : Poseidon) (commitments : List String) (challenge : Challenge) (secret : String) :
    Except String MembersInput :=
  match commitments.idxOf? (natText (poseidon [signal secret]).val) with
  | none => .error "Your commitment is not in the members tree yet. Run register first."
  | some index => do
    let path ← merklePathFor (circomlib (pair poseidon)) commitments (.dec (.ofNat index)) TREE_DEPTH
    .ok {
      secret := secret
      path := path
      membersRoot := natText path.root
      epoch := challenge.epoch
      contextHash := challenge.contextHash
      signalHash := challenge.signalHash }

structure MembersInput.Feeds (input : MembersInput) (s : Members) : Prop where
  secret : s.secret = signal input.secret
  pathElements : ∀ l < TREE_DEPTH, input.path.pathElements[l]? = some (s.incl.pathElements l).val
  pathIndices : ∀ l < TREE_DEPTH, input.path.pathIndices[l]? = some (s.incl.pathIndices l).val
  membersRoot : s.membersRoot = signal input.membersRoot
  epoch : s.epoch = signal input.epoch
  contextHash : s.contextHash = signal input.contextHash
  signalHash : s.signalHash = signal input.signalHash

/-! ## What is submitted -/

/-- The public signals of a proof file. -/
def publicSignals (xs : List Scalar) : Json := .arr (xs.map fun v => .str (natText v.val))

/-- What the gateway expects of a submission agrees with the challenge. -/
structure Expects (expected : Verifier.Expected) (challenge : Challenge) : Prop where
  account : ∃ account, expected.account = some account ∧ account ≠ ""
  epoch : expected.epoch = challenge.epoch
  contextHash : expected.contextHash = challenge.contextHash
  signalHash : expected.signalHash = challenge.signalHash

/-- The three signals of a challenge are canonical. -/
structure Challenge.Canonical (challenge : Challenge) : Prop where
  epoch : Field.isCanonical challenge.epoch.toList = true
  contextHash : Field.isCanonical challenge.contextHash.toList = true
  signalHash : Field.isCanonical challenge.signalHash.toList = true

end Prover
