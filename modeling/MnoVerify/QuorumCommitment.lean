import MnoVerify.Assoc
import MnoVerify.DmlCommitment

/-!
# The on-chain commitment to the quorum set

`oracle/quorum_commitment.js`: the serialization of a quorum commitment, the root over
the commitments sorted by their hashes, and the key map of an accepted set. The size
table is a property lookup; SHA-256d is a parameter.
-/

namespace QuorumCommitment

open Bytes
open Snapshot (require natText textOf jsonText)

def BASIC_NON_INDEXED : Nat := 3
def BASIC_INDEXED : Nat := 4

/-- The member counts of the types seen on a regtest network. -/
def REGTEST_LLMQ_SIZES (llmqType : String) : Option Nat :=
  if llmqType = "100" ∨ llmqType = "102" ∨ llmqType = "104" ∨ llmqType = "106" then some 3 else none

/-! ## Fields -/

structure StrictHex where
  buf : List UInt8
  hex : List Char

/-- `strictHex` -/
def strictHex (value : Option Json) (bytes : Nat) (name : String) : Except String StrictHex :=
  let message := name ++ " must be exactly " ++ natText bytes ++ " bytes of hex, got " ++ jsonText value
  match value with
  | some (.str s) =>
    if isHex bytes s.toList then .ok ⟨fromHex (s.toList.map Char.toLower), s.toList.map Char.toLower⟩ else .error message
  | _ => .error message

/-- An integer between two bounds. -/
def intBetween (lo hi : Int) (value : Option Json) (message : String) : Except String Int :=
  match value with
  | some (.num d) => if d.isInteger && decide (lo ≤ d.toInt) && decide (d.toInt ≤ hi) then .ok d.toInt else .error message
  | _ => .error message

def u8 (value : Option Json) (name : String) : Except String Int :=
  intBetween 0 0xff value (name ++ " must be a uint8, got " ++ jsonText value)

def i16 (value : Option Json) (name : String) : Except String Int :=
  intBetween (-0x8000) 0x7fff value (name ++ " must be an int16, got " ++ jsonText value)

/-- `u16le`, and `i16le` in two's complement. -/
def le16 (n : Int) : List UInt8 := toLE 2 (n % 0x10000).toNat

/-- `compactSize` -/
def compactSize (n : Nat) : Except String (List UInt8) :=
  if n < 0xfd then .ok [UInt8.ofNat n]
  else if n ≤ 0xffff then .ok (0xfd :: toLE 2 n)
  else if n ≤ 0xffffffff then .ok (0xfe :: toLE 4 n)
  else .error ("compactSize too large for this use: " ++ natText n)

/-- `dynbitset` -/
def dynbitset (bitCount : Nat) (packedHex : Option Json) (name : String) : Except String (List UInt8) := do
  let packed ← strictHex packedHex ((bitCount + 7) / 8) (name ++ " (" ++ natText bitCount ++ "-bit bitset)")
  let size ← compactSize bitCount
  return size ++ packed.buf

/-! ## One commitment -/

structure Commitment where
  bytes : List UInt8
  llmqType : Int
  quorumHash : List Char

/-- The version of a commitment that can be serialized. -/
def basicVersion (q : Json) : Except String Nat :=
  if Json.isNum (.ofNat BASIC_NON_INDEXED) (q.field "version") then .ok BASIC_NON_INDEXED
  else if Json.isNum (.ofNat BASIC_INDEXED) (q.field "version") then .ok BASIC_INDEXED
  else .error ("unsupported quorum commitment version " ++ jsonText (q.field "version") ++ " (only basic-scheme 3 and 4 " ++
    "are handled; a legacy pre-v19 commitment must not be mis-serialized)")

/-- The index that only an indexed commitment writes. -/
def indexBytes (version : Nat) (q : Json) : Except String (List UInt8) :=
  if version = BASIC_INDEXED then le16 <$> i16 (q.field "quorumIndex") "quorumIndex" else .ok []

/-- `serializeCommitment`; its `hash` is the SHA-256d of `bytes`. -/
def serializeCommitment (q : Json) (memberCount : Nat) : Except String Commitment := do
  let version ← basicVersion q
  let llmqType ← u8 (q.field "llmqType") "llmqType"
  let quorumHash ← strictHex (q.field "quorumHash") 32 "quorumHash"
  let index ← indexBytes version q
  let signers ← dynbitset memberCount (q.field "signers") "signers"
  let validMembers ← dynbitset memberCount (q.field "validMembers") "validMembers"
  let publicKey ← strictHex (q.field "quorumPublicKey") 48 "quorumPublicKey"
  let vvecHash ← strictHex (q.field "quorumVvecHash") 32 "quorumVvecHash"
  let quorumSig ← strictHex (q.field "quorumSig") 96 "quorumSig"
  let membersSig ← strictHex (q.field "membersSig") 96 "membersSig"
  return {
    bytes := le16 version ++ [UInt8.ofNat llmqType.toNat] ++ quorumHash.buf.reverse ++ index ++ signers ++ validMembers ++
      publicKey.buf ++ vvecHash.buf.reverse ++ quorumSig.buf ++ membersSig.buf
    llmqType
    quorumHash := quorumHash.hex }

/-! ## The set -/

section Sizes

variable (sizes : String → Option Nat)

/-- `serializeCommitment` with the member count of its type. -/
def sizedCommitment (q : Json) : Except String Commitment :=
  match q with
  | .null => .error "Cannot read properties of null (reading 'llmqType')"
  | q =>
    match sizes (textOf (q.field "llmqType")) with
    | none => .error ("no member-count parameter for llmq type " ++ jsonText (q.field "llmqType") ++
        "; refusing to guess the bitset length")
    | some size => serializeCommitment q size

/-- `${llmqType}:${quorumHash}` -/
def identity (c : Commitment) : String := String.ofList (Nat.toDigits 10 c.llmqType.toNat ++ ':' :: c.quorumHash)

/-- The public keys by identity. -/
abbrev Keys := List (String × List Char)

/-- The loop of `quorumsMerkleRoot`: the key map, and the strings whose hashes are the leaves. -/
def collect : List Json → Keys → List (List UInt8) → Except String (Keys × List (List UInt8))
  | [], keys, leaves => .ok (keys, leaves)
  | q :: newQuorums, keys, leaves => do
    let c ← sizedCommitment sizes q
    let id := identity c
    require (keys.lookup id).isNone ("duplicate quorum " ++ id ++ " in the set")
    let key ← strictHex (q.field "quorumPublicKey") 48 "quorumPublicKey"
    collect newQuorums (Assoc.set keys id key.hex) (leaves ++ [c.bytes])

end Sizes

section Sha256d

variable (sha256d : List UInt8 → Digest) (sizes : String → Option Nat)

def DigestLe (a b : Digest) : Prop := Bytes.Le a.bytes b.bytes

instance : DecidableRel DigestLe := fun a b => inferInstanceAs (Decidable (Bytes.Le a.bytes b.bytes))

/-- `quorumsMerkleRoot` -/
def quorumsMerkleRoot (newQuorums : Option Json) : Except String (Digest × Keys) :=
  match newQuorums with
  | some (.arr newQuorums) => do
    let (keys, leaves) ← collect sizes newQuorums [] []
    return (DmlCommitment.merkleRootFromLeaves sha256d ((leaves.map sha256d).insertionSort DigestLe), keys)
  | _ => .error "newQuorums must be an array"

/-- `verifyQuorumsCommitment` -/
def verifyQuorumsCommitment (newQuorums merkleRootQuorums : Option Json) : Except String Keys :=
  let message := "merkleRootQuorums must be a 64-hex string, got " ++ jsonText merkleRootQuorums
  match merkleRootQuorums with
  | some (.str s) => do
    require (isHex 32 s.toList) message
    let (root, keys) ← quorumsMerkleRoot sha256d sizes newQuorums
    let recomputed := DmlCommitment.displayText root
    require (decide (recomputed = s.toList.map Char.toLower)) ("quorum set does not match the coinbase commitment: recomputed " ++
      String.ofList recomputed ++ ", coinbase commits " ++ String.ofList (s.toList.map Char.toLower))
    return keys
  | _ => .error message

end Sha256d

end QuorumCommitment
