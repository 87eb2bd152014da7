import MnoVerify.Base64
import MnoVerify.Refresh

/-!
# Signing an oracle snapshot

The signer's side of `common/oracle_sig.js` (the key helpers, `verifySnapshotSig` and `addSignature`) and the parsing of
the trusted keys in `core/config.js`. Ed25519 is an abstract scheme. A snapshot goes from signer to signer; between two
signatures the labels of its entries may be spelled anew.
-/

/-- Ed25519: raw keys, and bytes signed and verified. -/
structure Ed25519 where
  Secret : Type
  publicKey : Secret → List UInt8
  sign : Secret → List UInt8 → List UInt8
  /-- Of the message, the signature and the public key. -/
  verify : List UInt8 → List UInt8 → List UInt8 → Bool
  publicKey_length : ∀ sk, (publicKey sk).length = 32
  verify_sign : ∀ sk msg, verify msg (sign sk msg) (publicKey sk) = true

/-- Assignment to a property of an object. -/
def Json.set : Json → String → Json → Json
  | .obj m, k, v => .obj (m.filter (fun p => decide (p.1 ≠ k)) ++ [(k, v)])
  | o, _, _ => o

namespace OracleSig

open Snapshot (natText snapshotMessage)

/-! ## Keys -/

/-- `Buffer.from(s, "base64")` -/
def bytesOf (s : String) : List UInt8 := Base64.decode s.toList

/-- `toString("base64")` -/
def base64 (bytes : List UInt8) : String := String.ofList (Base64.encode bytes)

/-- A public key object is its 32 bytes. -/
def publicKeyFromRaw (encoded : String) : Except String (List UInt8) :=
  let raw := Base64.decode (Js.trim encoded.toList)
  if raw.length = 32 then .ok raw
  else .error ("Ed25519 public key must be 32 bytes, got " ++ natText raw.length)

def rawPublicB64 (key : List UInt8) : String := base64 key

/-- `rawPublicB64(publicKeyFromRaw(label))`; `none` when it throws. -/
def canonicalKey (label : String) : Option String := (publicKeyFromRaw label).toOption.map rawPublicB64

/-- The loop of `oraclePubkeys`, over the entries of the setting. -/
def pin : List (List Char) → List String → Except String (List String)
  | [], out => .ok out
  | entry :: entries, out => do
    let key ← publicKeyFromRaw (String.ofList entry)
    pin entries (if rawPublicB64 key ∈ out then out else out ++ [rawPublicB64 key])

/-- `oraclePubkeys(env, name)`: the keys that the setting names, each once. -/
def oraclePubkeys (raw : String) : Except String (List String) :=
  pin (((raw.toList.splitOn ',').map Js.trim).filter fun s => decide (s ≠ [])) []

/-- What `buildConfig` grants of the two settings; a quorum below 1 is refused. -/
structure Configured (cfg : Refresh.Config) : Prop where
  keys : ∃ raw, oraclePubkeys raw = .ok cfg.oraclePubkeys
  quorum_pos : 1 ≤ cfg.oracleQuorum

section

variable (E : Ed25519)

/-- `verifySnapshotSig`, with the pinned key in base64. -/
def verifySnapshotSig (msg : List UInt8) (sig key : String) : Bool := E.verify msg (bytesOf sig) (bytesOf key)

/-- What `refreshRoots` calls. -/
def crypto (poseidon : Nat → Nat → Nat) (sha256 : List UInt8 → List UInt8) : Refresh.Crypto where
  poseidon := poseidon
  sha256 := sha256
  canonicalKey := canonicalKey
  verify := verifySnapshotSig E

/-! ## Adding a signature -/

def signSnapshot (msg : List UInt8) (sk : E.Secret) : String := base64 (E.sign sk msg)

/-- The entry is labelled with the key. -/
def labelled (key : String) (entry : Json) : Bool :=
  match entry.field "key" with
  | some (.str label) => decide (canonicalKey label = some key)
  | _ => false

/-- `snapshot.sigs ?? []`, of which `filter` is called. -/
def sigsOf (o : Json) : Except String (List Json) :=
  match o.field "sigs" with
  | none => .ok []
  | some .null => .ok []
  | some (.arr l) => .ok l
  | some _ => .error "(snapshot.sigs ?? []).filter is not a function"

def entryOf (msg : List UInt8) (sk : E.Secret) : Json :=
  .obj [("key", .str (rawPublicB64 (E.publicKey sk))), ("sig", .str (signSnapshot E msg sk))]

/-- `addSignature(snapshot, privateKey)` -/
def addSignature (o : Json) (sk : E.Secret) : Except String (List Json) := do
  let msg ← snapshotMessage o
  let sigs ← sigsOf o
  return sigs.filter (fun s => !labelled (rawPublicB64 (E.publicKey sk)) s) ++ [entryOf E msg sk]

/-- The entry under another spelling of its label. -/
def respelled (label : String) (entry : Json) : Json :=
  match entry.field "key" with
  | some (.str key) =>
    if (canonicalKey key).isSome ∧ canonicalKey label = canonicalKey key then entry.set "key" (.str label) else entry
  | _ => entry

/-- What happens to the snapshot on its way. -/
inductive Act
  | sign (sk : E.Secret)
  /-- The entry at a place, and the new spelling of its key. -/
  | respell (i : Nat) (label : String)

/-- `snapshot.sigs = addSignature(snapshot, privateKey)`, or a new spelling. -/
def step (o : Json) : Act E → Except String Json
  | .sign sk => do
    let sigs ← addSignature E o sk
    return o.set "sigs" (.arr sigs)
  | .respell i label => .ok (match o.field "sigs" with
    | some (.arr l) => o.set "sigs" (.arr (l.modify i (respelled label)))
    | _ => o)

def run (o : Json) (acts : List (Act E)) : Except String Json := acts.foldlM (step E) o

/-- Not signed yet: no `sigs`, or an empty array. -/
def Unsigned (o : Json) : Prop := sigsOf o = .ok []

end

/-- Without padding, in the URL alphabet and with white space, it is the same key. -/
example : canonicalKey ((String.ofList (List.replicate 42 '_')) ++ "8 ") =
    some (String.ofList (List.replicate 42 '/' ++ ['8', '='])) := by decide

end OracleSig
