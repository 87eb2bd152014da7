import MnoVerify.Assoc
import MnoVerify.Bytes
import MnoVerify.Snapshot

/-!
# The leaf lists of the two reads

`leavesFromMasternodeList` of `oracle/snapshot.js` and the leaf list of `buildDiffSnapshot` of
`oracle/diff_snapshot.js`, with `votingAddressToLeaf` of `common/dml.js`. What the node answers is data. The base58check
decoder and the hash of a public key are parameters, and so is the commitment check between the two halves of the
second read, which throws or passes.
-/

namespace OracleLeaves

open Snapshot (require jsonText textOf natText isStr)

/-! ## Leaves -/

def bigEndian (bytes : List UInt8) : Nat := Bytes.ofLE bytes.reverse

section
variable (hash160 : List UInt8 → List UInt8) (bs58check : List Char → Except String (List UInt8))

def leafFromPubkey (compressedPubkey : List UInt8) : Nat := bigEndian (hash160 compressedPubkey)

def KEY_ZERO_LEAF : Nat := leafFromPubkey hash160 (2 :: List.replicate 32 0)

def votingAddressToLeaf (address : String) : Except String Nat := do
  let decoded ← bs58check address.toList
  match decoded.drop 1 with
  | [] => .error "Cannot convert 0x to a BigInt"
  | keyId => return bigEndian keyId

/-- The loop over the masternodes that count, each with its name; `source` begins the message. -/
def realLeaves (source : String) : List (String × String) → Except String (List Nat)
  | [] => .ok []
  | (name, address) :: nodes => do
    let leaf ← votingAddressToLeaf bs58check address
    require (decide (leaf ≠ 0)) (source ++ ": voting address for " ++ name ++ " decodes to the empty-leaf value")
    let leaves ← realLeaves source nodes
    return if leaf = KEY_ZERO_LEAF hash160 then leaves else leaf :: leaves

/-- `sort` by name, in the order of strings. -/
def byName (nodes : List (String × String)) : List (String × String) := nodes.mergeSort fun a b => decide (a.1 ≤ b.1)

/-! ## The list by outpoint -/

def KNOWN_STATUSES : List String := ["ENABLED", "POSE_BANNED"]

/-- `Object.entries`: a repeated name keeps its first place and takes its last value. -/
def entries (m : List (String × Json)) : List (String × Json) := m.foldl (fun es p => Assoc.set es p.1 p.2) []

def isLowerHex (c : Char) : Bool := c.isDigit || (decide ('a' ≤ c) && decide (c ≤ 'f'))

/-- `/^[0-9a-f]{64}-\d+$/` -/
def isOutpoint (key : List Char) : Bool :=
  (key.take 64).all isLowerHex && decide (key[64]? = some '-') && !(key.drop 65).isEmpty && (key.drop 65).all Char.isDigit

/-- It is one of the strings. -/
def isOneOf (known : List String) : Option Json → Bool
  | some (.str s) => known.contains s
  | _ => false

def isEnabled (m : Json) : Bool := isOneOf ["ENABLED"] (m.field "status")

/-- Neither `null` nor an array nor a value without properties. -/
def isRecord : Json → Bool
  | .obj _ => true
  | _ => false

/-- The checks of one entry. -/
def checkListed (e : String × Json) : Except String Unit := do
  require (isOutpoint e.1.toList)
    ("masternode list: masternodelist key " ++ jsonText (some (.str e.1)) ++ " is not a txid-index outpoint")
  require (isRecord e.2) ("masternode list: masternodelist entry " ++ e.1 ++ " is " ++ jsonText (some e.2) ++ ", not an object")
  require (isOneOf KNOWN_STATUSES (e.2.field "status"))
    ("masternode list: masternodelist entry " ++ e.1 ++ " has status " ++ jsonText (e.2.field "status") ++ ", which this build " ++
      "does not know (expected one of " ++ ", ".intercalate KNOWN_STATUSES ++ "). Treating an unknown " ++
      "status as not-ENABLED would silently drop a member from the tree.")
  require (!isEnabled e.2 || isStr (e.2.field "votingaddress"))
    ("masternode list: masternodelist entry " ++ e.1 ++ " is ENABLED with a non-string votingaddress")

/-- The checks of one entry after another. -/
def checkAll {α : Type} (check : α → Except String Unit) : List α → Except String Unit
  | [] => .ok ()
  | a :: l => do
    check a
    checkAll check l

def leavesFromMasternodeList (list : Json) : Except String (List Nat) :=
  match list with
  | .obj m => do
    checkAll checkListed (entries m)
    realLeaves hash160 bs58check "masternode list"
      (byName (((entries m).filter fun e => isEnabled e.2).map fun e => (e.1, textOf (e.2.field "votingaddress"))))
  | _ => .error ("masternode list: masternodelist json returned " ++
      (match list with | .arr _ => "an array" | _ => jsonText (some list)) ++
      ", not an object keyed by collateral outpoint. The key is what the canonical order sorts by.")

/-! ## The list by registration -/

def REQUIRED_ENTRY_FIELDS : List String := ["proRegTxHash", "votingAddress", "isValid"]

def isBoolean : Option Json → Bool
  | some (.bool _) => true
  | _ => false

/-- The name that an entry goes by. -/
def hashOf (m : Json) : String := textOf (m.field "proRegTxHash")

/-- The checks of one entry, but for the repetition. -/
def checkDiffed (m : Json) : Except String Unit := do
  require (match m with | .null => true | _ => m.isObject)
    ("oracle: a protx diff entry is " ++ jsonText (some m) ++ ", not an object")
  checkAll (fun f => require (m.field f).isSome
    ("oracle: a protx diff entry is missing " ++ f ++ ". This build needs it, and guessing at a partial " ++
      "entry is how a leaf set silently loses or gains a member.")) REQUIRED_ENTRY_FIELDS
  require (Snapshot.isHash (m.field "proRegTxHash"))
    ("oracle: a protx diff entry has a malformed proRegTxHash: " ++ jsonText (m.field "proRegTxHash") ++ ". " ++
      "It must be 64 lowercase hex, the transaction id the canonical order sorts by.")
  require (isStr (m.field "votingAddress")) ("oracle: entry " ++ hashOf m ++ " has a non-string votingAddress")
  require (isBoolean (m.field "isValid"))
    ("oracle: entry " ++ hashOf m ++ " has isValid " ++ jsonText (m.field "isValid") ++ ", not a boolean. " ++
      "Coercing would silently drop a valid member or admit a banned one.")

/-- The entries are checked in turn, after the hashes in `seenHashes`. -/
def checkMnList : List Json → List String → Except String Unit
  | [], _ => .ok ()
  | m :: mnList, seenHashes => do
    checkDiffed m
    require (!seenHashes.contains (hashOf m)) ("oracle: protx diff lists proRegTxHash " ++ hashOf m ++ " twice")
    checkMnList mnList (hashOf m :: seenHashes)

/-- The leaves of the entries that are valid. -/
def validLeaves (mnList : List Json) : Except String (List Nat) :=
  realLeaves hash160 bs58check "oracle"
    (byName ((mnList.filter fun m => Snapshot.isTrue (m.field "isValid")).map fun m =>
      (hashOf m, textOf (m.field "votingAddress"))))

/-- `typeof`, and `null` by its name. -/
def typeText : Option Json → String
  | none => "undefined"
  | some .null => "null"
  | some (.bool _) => "boolean"
  | some (.num _) => "number"
  | some (.str _) => "string"
  | some _ => "object"

def isInteger : Option Json → Bool
  | some (.num d) => d.isInteger
  | _ => false

/-- The checks of the best ChainLock. -/
def checkLock (lock : Json) : Except String Unit := do
  require (isStr (lock.field "blockhash") && isInteger (lock.field "height"))
    ("oracle: getbestchainlock did not return a block hash and height. A ChainLock is what makes this " ++
      "read safe from reorgs, so there is no degraded mode here.")
  require (match lock.field "known_block" with | some (.bool false) => false | _ => true)
    ("oracle: the node reports a ChainLock at " ++ textOf (lock.field "height") ++ " for a block it does not have. It is " ++
      "still syncing, so its masternode list cannot be trusted to describe that block.")
  require (Snapshot.isTrue (lock.field "known_block"))
    ("oracle: getbestchainlock returned known_block " ++ jsonText (lock.field "known_block") ++ ". Only boolean " ++
      "true says the node has verified the locked block, so anything else refuses.")
  require (Snapshot.isHash (lock.field "blockhash"))
    ("oracle: getbestchainlock returned a malformed block hash: " ++ jsonText (lock.field "blockhash"))

/-- The list of a response that is bound to the locked block. -/
def boundList (lock diff : Json) : Except String (List Json) := do
  require (isStr (diff.field "blockHash"))
    ("oracle: protx diff blockHash is " ++ typeText (diff.field "blockHash") ++ ", " ++
      "not a string. A response that cannot state its block plainly is not a block-bound answer.")
  require (decide (textOf (diff.field "blockHash") = textOf (lock.field "blockhash")))
    ("oracle: protx diff described block " ++ textOf (diff.field "blockHash") ++ " but the ChainLock names " ++
      textOf (lock.field "blockhash") ++ ". Refusing rather than publishing a list that may belong to another branch.")
  match diff.field "mnList" with
  | some (.arr mnList) => .ok mnList
  | _ => .error "oracle: protx diff returned no mnList array"

/-- `realLeaves` of `buildDiffSnapshot`; `commitment` is the check of the list against the block. -/
def diffLeaves (commitment : List Json → Except String Unit) (lock diff : Json) : Except String (List Nat) := do
  checkLock lock
  let mnList ← boundList lock diff
  checkMnList mnList []
  commitment mnList
  validLeaves hash160 bs58check mnList

end

/-- `realLeaves.map((x) => x.toString())` -/
def leafTexts (leaves : List Nat) : List (List Char) := leaves.map (Nat.toDigits 10)

end OracleLeaves
