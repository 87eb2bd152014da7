import MnoVerify.Bits
import MnoVerify.MerklePath
import MnoVerify.OracleLeaves
import MnoVerify.Verifier

/-!
# The two registration engines

The zkVM guest `registration_reg.rs` as a function from what it reads to its journal, `circuits/mno_registration.circom`
as the constraints on its signals, and the two decoders of `core/verifier.js`. SHA-256, RIPEMD-160, the multiples of the
generator of secp256k1 and Poseidon, one function for each number of inputs, are parameters that both engines share.
-/

namespace RegistrationEngines

open Field (Scalar FIELD_PRIME)
open OracleLeaves (bigEndian)
open Snapshot (require natText hexOf)

def TREE_DEPTH : Nat := 16

/-- The order of the group of secp256k1. -/
def ORDER : Nat := 0xFFFFFFFFFFFFFFFFFFFFFFFFFFFFFFFEBAAEDCE6AF48A03BBFD25E8CD0364141

/-- What both engines compute with. -/
structure Primitives where
  sha256 : List UInt8 → List UInt8
  ripemd160 : List UInt8 → List UInt8
  /-- The affine coordinates of a multiple of the generator. -/
  point : Nat → Nat × Nat
  sha256_length : ∀ bytes, (sha256 bytes).length = 32
  ripemd160_length : ∀ bytes, (ripemd160 bytes).length = 20
  point_lt : ∀ d, (point d).1 < 2 ^ 256 ∧ (point d).2 < 2 ^ 256

def Primitives.hash160 (P : Primitives) (data : List UInt8) : List UInt8 := P.ripemd160 (P.sha256 data)

/-- The `k` bytes of a number, the high ones first. -/
def toBE (k n : Nat) : List UInt8 := (Bytes.toLE k n).reverse

/-- The compressed encoding of a point: the parity of `y`, and `x`. -/
def compressed (p : Nat × Nat) : List UInt8 := (if p.2 % 2 = 0 then 2 else 3) :: toBE 32 p.1

/-- Poseidon of any number of inputs. -/
abbrev Poseidon := List Scalar → Scalar

/-! ## The guest -/

section
variable (P : Primitives) (poseidon : Poseidon)

/-- `fr_to_be32` -/
def frToBe32 (v : Scalar) : List UInt8 := toBE 32 v.val

/-- `fr_from_be_canonical` -/
def frFromBeCanonical (bytes : List UInt8) (what : String) : Except String Scalar := do
  let v : Scalar := (bigEndian bytes : Scalar)
  require (decide (frToBe32 v = bytes)) (what ++ " must be a canonical field element")
  return v

/-- The loop over the siblings and the bits, up from a node. -/
def climb : List (List UInt8 × UInt8) → List UInt8 → Except String (List UInt8)
  | [], node => .ok node
  | (sib, bit) :: path, node => do
    require (decide (bit = 0 ∨ bit = 1)) "path bit must be 0 or 1"
    climb path (P.sha256 (1 :: (if bit = 0 then node ++ sib else sib ++ node)))

/-- `limb(i)`: the bytes `32 - 8 * (i + 1)` up to `32 - 8 * i` as a u64. -/
def limb (d : List UInt8) (i : Nat) : Nat := bigEndian ((d.drop (32 - 8 * (i + 1))).take 8)

/-- `main`, from what is read to the journal; a panic is its message. -/
def guest (d secret : List UInt8) (pathSiblings : List (List UInt8)) (pathBits : List UInt8) (root : List UInt8)
    (season : UInt64) (contextHash : List UInt8) : Except String (List UInt8) := do
  require (decide (0 < bigEndian d ∧ bigEndian d < ORDER)) "private key must be a canonical scalar in [1, n)"
  let keyId := P.hash160 (compressed (P.point (bigEndian d)))
  require (decide (pathSiblings.length = TREE_DEPTH)) ("path must have exactly " ++ natText TREE_DEPTH ++ " siblings")
  require (decide (pathBits.length = TREE_DEPTH)) ("path must have exactly " ++ natText TREE_DEPTH ++ " bits")
  let node ← climb P (pathSiblings.zip pathBits) (P.sha256 (0 :: keyId))
  require (decide (node = root)) "Merkle inclusion failed, keyID is not under the published root"
  let secretFr ← frFromBeCanonical secret "secret"
  let ctxFr ← frFromBeCanonical contextHash "contextHash"
  let commitment := poseidon [secretFr]
  let kh := poseidon [(limb d 0 : Scalar), (limb d 1 : Scalar), (limb d 2 : Scalar), (limb d 3 : Scalar)]
  let regNullifier := poseidon [kh, (season.toNat : Scalar), ctxFr]
  return frToBe32 commitment ++ (frToBe32 regNullifier ++ (root ++ (toBE 8 season.toNat ++ contextHash)))

end

/-! ## The circuit -/

/-- `get_secp256k1_order(64, 4)` and `privToLimbs`: four limbs of 64 bits, the lowest first. -/
def privToLimbs (d : Nat) : List Nat := (List.range 4).map fun i => d / 2 ^ (64 * i) % 2 ^ 64

/-- Numbers as signals. -/
def signals (xs : List Nat) : List Scalar := xs.map Nat.cast

/-- Bits as signals. -/
def bitSignals (bits : List Bool) : List Scalar := bits.map fun b => if b then 1 else 0

/-- `TAG_SEASONAL_REGISTRATION()` -/
def TAG_SEASONAL_REGISTRATION : Scalar :=
  4412587802530862675250799606570235507701539531635883910631083162293640935633

/-- The components that are included, each as the signals that its constraints admit at its ports. -/
structure Components (P : Primitives) where
  /-- `ECDSAPrivToPub(64, 4)`: the key, and the two coordinates. -/
  ECDSAPrivToPub : List Scalar → List Scalar → List Scalar → Prop
  /-- `BigLessThan(64, 4)` -/
  BigLessThan : List Scalar → List Scalar → Scalar → Prop
  /-- `get_secp256k1_order(64, 4)` -/
  order : List Scalar
  IsZero : Scalar → Scalar → Prop
  /-- `Num2Bits(n)` -/
  Num2Bits : Nat → Scalar → List Scalar → Prop
  /-- `Bits2Num(160)` -/
  Bits2Num : List Scalar → Scalar → Prop
  /-- `Sha256(264)` -/
  Sha256 : List Scalar → List Scalar → Prop
  /-- `Ripemd160(256)` -/
  Ripemd160 : List Scalar → List Scalar → Prop
  privToPub : ∀ d, 0 < d → d < ORDER → ∀ x y, ECDSAPrivToPub (signals (privToLimbs d)) x y ↔
    x = signals (privToLimbs (P.point d).1) ∧ y = signals (privToLimbs (P.point d).2)
  lessThan : ∀ a b, a < 2 ^ 256 → b < 2 ^ 256 → ∀ out,
    BigLessThan (signals (privToLimbs a)) (signals (privToLimbs b)) out ↔ out = if a < b then 1 else 0
  order_eq : order = signals (privToLimbs ORDER)
  isZero : ∀ a out, IsZero a out ↔ out = if a = 0 then 1 else 0
  num2Bits : ∀ v : Nat, v < 2 ^ 64 → ∀ out, Num2Bits 64 (v : Scalar) out ↔ out = bitSignals (Bits.ofNat 64 v)
  bits2Num : ∀ bits, bits.length = 160 → ∀ out, Bits2Num (bitSignals bits) out ↔ out = (Bits.toNat bits : Scalar)
  sha256 : ∀ bytes, bytes.length = 33 → ∀ out,
    Sha256 (bitSignals (Bits.ofBytes bytes)) out ↔ out = bitSignals (Bits.ofBytes (P.sha256 bytes))
  ripemd160 : ∀ bytes, bytes.length = 32 → ∀ out,
    Ripemd160 (bitSignals (Bits.ofBytes bytes)) out ↔ out = bitSignals (Bits.ofBytes (P.ripemd160 bytes))

/-- The signals of `CompressAndHash160(64, 4)`. -/
structure KeyHash where
  x : List Scalar
  y : List Scalar
  yBits : List Scalar
  xBits : List (List Scalar)
  sha : List Scalar
  rmd : List Scalar
  out : Scalar

/-- The constraints of `CompressAndHash160(64, 4)`. -/
structure KeyHash.Satisfies {P : Primitives} (C : Components P) (s : KeyHash) : Prop where
  yBits : C.Num2Bits 64 (s.y.headD 0) s.yBits
  xBits : List.Forall₂ (C.Num2Bits 64) s.x s.xBits
  -- the prefix byte, and x from its highest bit down
  sha : C.Sha256 ([0, 0, 0, 0, 0, 0, 1, s.yBits.headD 0] ++ s.xBits.flatten.reverse) s.sha
  rmd : C.Ripemd160 s.sha s.rmd
  out : C.Bits2Num s.rmd.reverse s.out

/-- The signals of `MnoRegistration(16, 64, 4)`. -/
structure Signals where
  privkey : List Scalar
  secret : Scalar
  root : Scalar
  season : Scalar
  contextHash : Scalar
  commitment : Scalar
  regNullifier : Scalar
  lh : KeyHash
  incl : MerklePath.Inclusion

/-- The constraints of `MnoRegistration(16, 64, 4)`. -/
structure Signals.Satisfies {P : Primitives} (C : Components P) (poseidon : Poseidon) (s : Signals) : Prop where
  p2p : C.ECDSAPrivToPub s.privkey s.lh.x s.lh.y
  lh : s.lh.Satisfies C
  leaf : s.incl.leaf = s.lh.out
  incl : s.incl.Satisfies (fun l r => poseidon [l, r]) TREE_DEPTH
  root : s.incl.root = s.root
  commitment : s.commitment = poseidon [s.secret]
  dlt : C.BigLessThan s.privkey C.order 1
  kz : C.IsZero s.privkey.sum 0
  regNullifier : s.regNullifier = poseidon [TAG_SEASONAL_REGISTRATION, poseidon s.privkey, s.season, s.contextHash]

/-- The public signals: the outputs, then the public inputs. -/
def Signals.publicSignals (s : Signals) : Json :=
  .arr ([s.commitment, s.regNullifier, s.root, s.season, s.contextHash].map fun v => .str (natText v.val))

/-! ## The decoders -/

structure Claims where
  commitment : String
  regNullifier : String
  root : String
  season : String
  contextHash : String
deriving DecidableEq

/-- `decodePlonkRegistrationClaims` -/
def decodePlonkRegistrationClaims (publicSignals : Json) : Except String Claims :=
  if !Verifier.signalsAreCanonical publicSignals 5 then .error "non-canonical-signal"
  else match publicSignals with
    | .arr [.str commitment, .str regNullifier, .str root, .str season, .str contextHash] =>
      .ok ⟨commitment, regNullifier, root, season, contextHash⟩
    | _ => .error "non-canonical-signal"

def REG_JOURNAL_BYTES : Nat := 136

/-- `bytes.subarray(off, off + n)` -/
def subarray (bytes : List UInt8) (off n : Nat) : List UInt8 := (bytes.drop off).take n

/-- `decodeZkvmRegistrationClaims` of a byte array. -/
def decodeZkvmRegistrationClaims (journal : List UInt8) : Except String Claims :=
  if journal.length ≠ REG_JOURNAL_BYTES then .error "bad-journal-length"
  else
    let field := fun off => natText (bigEndian (subarray journal off 32))
    let claims : Claims := {
      commitment := field 0
      regNullifier := field 32
      root := String.ofList (hexOf (subarray journal 64 32))
      season := natText (bigEndian (subarray journal 96 8))
      contextHash := field 104 }
    if !([claims.commitment, claims.regNullifier, claims.contextHash].all fun c => Field.isCanonical c.toList) then
      .error "non-canonical-signal"
    else .ok claims

/-! ## One member, both engines -/

/-- A member, with a list of leaves and the index of the leaf of the voting key. -/
structure Member (P : Primitives) where
  d : Nat
  secret : Nat
  season : UInt64
  contextHash : Nat
  leaves : List Nat
  index : Nat
  d_pos : 0 < d
  d_lt : d < ORDER
  secret_lt : secret < FIELD_PRIME
  contextHash_lt : contextHash < FIELD_PRIME
  /-- A leaf is twenty bytes, and the tree has room for all of them. -/
  leaf_lt : ∀ leaf ∈ leaves, leaf < 256 ^ 20
  leaves_le : leaves.length ≤ 2 ^ TREE_DEPTH
  holds : leaves[index]? = some (OracleLeaves.leafFromPubkey P.hash160 (compressed (P.point d)))

namespace Member

variable {P : Primitives} (x : Member P)

def leafTexts : List (List Char) := OracleLeaves.leafTexts x.leaves

/-- The guest, run on the member's data with some path under the SHA-256 root of the leaves, commits to the journal. -/
def Commits (poseidon : Poseidon) (journal : List UInt8) : Prop :=
  ∃ pathSiblings pathBits root, (∀ sib ∈ pathSiblings, sib.length = 32) ∧
    Snapshot.shaRootFromLeaves P.sha256 TREE_DEPTH x.leafTexts = .ok (hexOf root) ∧
    guest P poseidon (toBE 32 x.d) (toBE 32 x.secret) pathSiblings pathBits root x.season (toBE 32 x.contextHash) =
      .ok journal

/-- The circuit admits the signals, with the member's data and the Poseidon root of the leaves for inputs. -/
structure Proves (C : Components P) (poseidon : Poseidon) (s : Signals) : Prop where
  satisfies : s.Satisfies C poseidon
  privkey : s.privkey = signals (privToLimbs x.d)
  secret : s.secret = (x.secret : Scalar)
  root : Snapshot.dmlRootFromLeaves (MerklePath.onNat fun l r => poseidon [l, r]) TREE_DEPTH x.leafTexts =
    .ok (Nat.toDigits 10 s.root.val)
  season : s.season = (x.season.toNat : Scalar)
  contextHash : s.contextHash = (x.contextHash : Scalar)

end Member

/-- The claims of the two engines agree in all but the root. -/
def Claims.Agree (zkvm plonk : Claims) : Prop :=
  zkvm.commitment = plonk.commitment ∧ zkvm.regNullifier = plonk.regNullifier ∧ zkvm.season = plonk.season ∧
    zkvm.contextHash = plonk.contextHash

/-- What the engines make of a member agrees, whatever path and assignment they are given. -/
def EnginesAgree {P : Primitives} (C : Components P) (poseidon : Poseidon) (x : Member P) : Prop :=
  ∀ journal s zkvm plonk, x.Commits poseidon journal → x.Proves C poseidon s →
    decodeZkvmRegistrationClaims journal = .ok zkvm → decodePlonkRegistrationClaims s.publicSignals = .ok plonk →
    zkvm.Agree plonk

end RegistrationEngines
