import MnoVerify.Coerce
import MnoVerify.Field
import MnoVerify.PaddedTree
import MnoVerify.Utf8
import Mathlib.Data.Char
import Mathlib.Data.List.Lex

/-!
# Oracle snapshots

`validateSnapshot` and the root recompute of `core/gateway.js`, the two root
builders (`common/dml_root.js`, `common/dml_sha_root.js`), the signed message
(`common/oracle_sig.js`) and `leafSetCommitment` (`core/stores.js`). A snapshot is
the JSON value that was fetched. Poseidon, on field elements, and SHA-256 are
parameters.
-/

namespace Snapshot

/-- Go on only under a condition; the message of the error otherwise. -/
def require (cond : Bool) (message : String) : Except String Unit :=
  if cond then .ok () else .error message

/-- `v != null` of a property. -/
def present : Option Json → Bool
  | none => false
  | some .null => false
  | some _ => true

def natText (n : Nat) : String := String.ofList (Nat.toDigits 10 n)

def textOf (v : Option Json) : String := String.ofList (Json.textOf v)

/-- `JSON.stringify` of a property. -/
def jsonText : Option Json → String
  | none => "undefined"
  | some v => String.ofList v.stringify

/-! ## The signed message -/

/-- `snapshotVersion` -/
def snapshotVersion (o : Json) : Except String Nat :=
  let v := o.field "version"
  if !present v || Json.isNum (.ofNat 1) v then .ok 1
  else if Json.isNum (.ofNat 2) v then .ok 2
  else if Json.isNum (.ofNat 3) v then .ok 3
  else .error ("unsupported oracle snapshot version: " ++ jsonText v)

/-- `frameSafe`: a field of the message holds no newline. -/
def frameSafe (value : Json) (field : String) : Except String (List Char) :=
  let s := value.toStr
  if '\n' ∈ s then
    .error ("snapshot " ++ field ++ " contains a newline, which would move a field boundary in the signed message")
  else .ok s

/-- `frameInt`: a safe integer, as a number. -/
def frameInt (value : Option Json) (field : String) : Except String (List Char) :=
  match value with
  | some (.num d) =>
    if d.isInteger && decide (d.toInt.natAbs ≤ 2 ^ 53 - 1) then .ok d.toText
    else .error ("snapshot " ++ field ++ " must be a safe integer to be signed, got " ++ jsonText value)
  | v => .error ("snapshot " ++ field ++ " must be a safe integer to be signed, got " ++ jsonText v)

/-- `typeof v === "string"` -/
def isStr : Option Json → Bool
  | some (.str _) => true
  | _ => false

def isNonemptyStr : Option Json → Bool
  | some (.str s) => decide (s ≠ "")
  | _ => false

/-- `v === true` -/
def isTrue : Option Json → Bool
  | some (.bool true) => true
  | _ => false

/-- A property as `frameSafe` is given it. -/
def framed (v : Option Json) : Json :=
  match v with
  | some v => v
  | none => .str "undefined"

/-- The fields that `snapshotMessage` joins. -/
def messageFields (o : Json) : Except String (List (List Char)) := do
  let version ← snapshotVersion o
  let height := frameInt (o.field "height") "height"
  let blockHash := frameSafe (Json.orElse (.str "") (o.field "blockHash")) "blockHash"
  let depth := frameInt (o.field "depth") "depth"
  let root := frameSafe (framed (o.field "root")) "root"
  let shaRoot := frameSafe (framed (o.field "shaRoot")) "shaRoot"
  let ts := frameInt (o.field "ts") "ts"
  if version = 3 then
    require (isStr (o.field "shaRoot")) "v3 snapshot message requires a string shaRoot"
    require (isNonemptyStr (o.field "order")) "v3 snapshot message requires a non-empty string order"
    require (isTrue (o.field "chainlocked")) "v3 snapshot message requires chainlocked to be boolean true"
    let order := frameSafe (framed (o.field "order")) "order"
    return ["mno-oracle-snapshot-v3".toList, "3".toList, ← height, ← blockHash, ← depth, ← root, ← shaRoot, ← order,
      "1".toList, ← ts]
  else if version = 2 then
    require (isStr (o.field "shaRoot")) "v2 snapshot message requires a string shaRoot"
    return ["mno-oracle-snapshot-v2".toList, "2".toList, ← height, ← blockHash, ← depth, ← root, ← shaRoot, ← ts]
  else
    return ["mno-oracle-snapshot-v1".toList, ← height, ← blockHash, ← depth, ← root, ← ts]

/-- `snapshotMessage`: the bytes that an oracle key signs. -/
def snapshotMessage (o : Json) : Except String (List UInt8) := do
  let fields ← messageFields o
  return Utf8.encode (['\n'].intercalate fields)

/-! ## Validation -/

structure Config where
  treeDepth : Nat
  oracleMaxAgeSeconds : Nat
  oracleFutureSkewSeconds : Int

/-- `/^[0-9a-f]{64}$/` on a string. -/
def isHash : Option Json → Bool
  | some (.str s) => decide (s.toList.length = 64) && s.toList.all fun c => c.isDigit || (decide ('a' ≤ c) && decide (c ≤ 'f'))
  | _ => false

def isHeight : Option Json → Bool
  | some (.num d) => d.isInteger && decide (0 ≤ d.toInt)
  | _ => false

def isOrder : Option Json → Bool
  | some (.str s) => decide (s = "proRegTxHash")
  | _ => false

/-- The versions whose schema carries a SHA-256 root. -/
def DUAL_ROOT_VERSIONS : List Nat := [2, 3]

/-- The published leaves. -/
def leaves (o : Json) : List Json :=
  match o.field "leaves" with
  | some (.arr l) => l
  | _ => []

def isArray : Option Json → Bool
  | some (.arr _) => true
  | _ => false

/-- The leaf order and the ChainLock claim: a version 3 snapshot carries them, no other one does. -/
def validateOrder (o : Json) (version : Nat) : Except String Unit :=
  if version ≠ 3 then do
    require (!present (o.field "order")) ("a v" ++ natText version ++ " snapshot must not carry a leaf order")
    require (!present (o.field "chainlocked")) ("a v" ++ natText version ++ " snapshot must not carry a chainlock claim")
  else do
    require (present (o.field "shaRoot")) "v3 snapshot is missing its shaRoot"
    require (isNonemptyStr (o.field "order")) "v3 snapshot is missing its leaf order"
    require (isOrder (o.field "order")) ("v3 snapshot has an unknown leaf order: " ++ textOf (o.field "order"))
    require (isTrue (o.field "chainlocked"))
      "v3 snapshot does not claim a ChainLocked block (chainlocked must be boolean true)"
    require (isHash (o.field "blockHash")) "v3 snapshot blockHash is not a 64 lowercase hex string"

/-- The bound on the oracle's own timestamp; the clock is read twice. -/
def validateTimestamp (cfg : Config) (now₁ now₂ : Int) (o : Json) : Except String Unit :=
  if 0 < cfg.oracleMaxAgeSeconds then
    match Json.numberOf (o.field "ts") with
    | .dec ts => do
      require (!decide ((cfg.oracleMaxAgeSeconds : ℚ) < now₁ - ts.toRat)) "snapshot is too old"
      require (!decide ((cfg.oracleFutureSkewSeconds : ℚ) < ts.toRat - now₂)) "snapshot timestamp too far in the future"
    | _ => .error "snapshot timestamp invalid"
  else .ok ()

/-- `validateSnapshot` -/
def validateSnapshot (cfg : Config) (now₁ now₂ : Int) (o : Json) (requiresSha : Bool) : Except String Unit := do
  require o.isObject "snapshot is not an object"
  require (isHeight (o.field "height")) "snapshot height invalid"
  let depth := Json.orElse (.num (.ofNat cfg.treeDepth)) (o.field "depth")
  require (Json.isNum (.ofNat cfg.treeDepth) (some depth))
    ("snapshot depth " ++ textOf (some depth) ++ " != expected " ++ natText cfg.treeDepth)
  require (Field.isCanonicalField (framed (o.field "root"))) "snapshot root is not a canonical field element"
  require (isArray (o.field "leaves")) "snapshot leaves missing"
  require (decide ((leaves o).length ≤ 2 ^ cfg.treeDepth)) "snapshot leaves exceed tree capacity"
  require ((leaves o).all Field.isCanonicalField) "snapshot leaf is not a canonical field element"
  let version ← snapshotVersion o
  require (!present (o.field "shaRoot") || isHash (o.field "shaRoot")) "snapshot shaRoot is not a 64 lowercase hex string"
  require (!present (o.field "blockHash") || isHash (o.field "blockHash"))
    "snapshot blockHash is not a 64 lowercase hex string"
  require (!decide (version = 2) || present (o.field "shaRoot")) "v2 snapshot is missing its shaRoot"
  require (!decide (version = 1) || !present (o.field "shaRoot")) "v1 snapshot must not carry a shaRoot"
  validateOrder o version
  require (!requiresSha || (DUAL_ROOT_VERSIONS.contains version && present (o.field "shaRoot")))
    ("zkVM deployment requires a snapshot carrying a shaRoot (v2 or v3), got v" ++ natText version ++ " (downgrade refused)")
  validateTimestamp cfg now₁ now₂ o

/-! ## The two roots -/

section Roots

variable (poseidon : Nat → Nat → Nat) (sha256 : List UInt8 → List UInt8)

/-- `F.e(BigInt(x))` of a decimal string. -/
def fieldOf (leaf : List Char) : Nat := Field.value leaf % Field.FIELD_PRIME

/-- The level-by-level build of both hashers. -/
def buildRoot {α : Type*} (hash : α → α → α) (empty : α) (depth : Nat) (xs : List α) : Except String α :=
  if 2 ^ depth < xs.length then
    .error ("leaf count " ++ natText xs.length ++ " exceeds tree capacity " ++ natText (2 ^ depth))
  else .ok ((PaddedTree.levelUp hash empty 0 depth xs).headD (PaddedTree.zero hash empty depth))

/-- `makeDmlRootHasher(depth)` -/
def dmlRootFromLeaves (depth : Nat) (leaves : List (List Char)) : Except String (List Char) := do
  let root ← buildRoot poseidon 0 depth (leaves.map fieldOf)
  return Nat.toDigits 10 root

def hexOf (bytes : List UInt8) : List Char :=
  bytes.flatMap fun b => [Nat.digitChar (b.toNat / 16), Nat.digitChar (b.toNat % 16)]

def leafHash (keyId : List UInt8) : List UInt8 := sha256 (0 :: keyId)

def nodeHash (left right : List UInt8) : List UInt8 := sha256 (1 :: (left ++ right))

/-- `leafToKeyId`: the 20 bytes of the leaf, high byte first. -/
def leafToKeyId (leaf : List Char) : Except String (List UInt8) :=
  let n := Field.value leaf
  if n < 256 ^ 20 then .ok ((List.range 20).map fun i => UInt8.ofNat (n / 256 ^ (19 - i)))
  else .error ("leaf exceeds 20 bytes: " ++ String.ofList leaf)

/-- `shaRootFromLeaves` -/
def shaRootFromLeaves (depth : Nat) (leaves : List (List Char)) : Except String (List Char) := do
  let keyIds ← leaves.mapM leafToKeyId
  let root ← buildRoot (nodeHash sha256) (leafHash sha256 (List.replicate 20 0)) depth (keyIds.map (leafHash sha256))
  return hexOf root

/-- The leaves as the strings the builders take. -/
def leafTexts (o : Json) : List (List Char) := (leaves o).map Json.toStr

/-- What `refreshRoots` asks of a snapshot before it looks at its window: it is valid, and
both roots are the gateway's own recompute. -/
def Recomputed (cfg : Config) (o : Json) : Prop :=
  (∃ now₁ now₂ requiresSha, validateSnapshot cfg now₁ now₂ o requiresSha = .ok ()) ∧
  dmlRootFromLeaves poseidon cfg.treeDepth (leafTexts o) = .ok (Json.textOf (o.field "root")) ∧
  (present (o.field "shaRoot") = true →
    shaRootFromLeaves sha256 cfg.treeDepth (leafTexts o) = .ok (Json.textOf (o.field "shaRoot")))

/-- The order of `leafSetCommitment`: by length, then as strings. -/
def leafLe (a b : List Char) : Bool := decide (a.length < b.length) || (decide (a.length = b.length) && decide (a ≤ b))

/-- `leafSetCommitment` -/
def leafSetCommitment (leaves : List (List Char)) : List Char :=
  hexOf (sha256 (Utf8.encode (['\n'].intercalate (leaves.mergeSort leafLe))))

end Roots

end Snapshot
