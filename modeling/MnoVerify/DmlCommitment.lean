import MnoVerify.Bytes
import MnoVerify.HashTree
import MnoVerify.Snapshot

/-!
# The on-chain commitment to the masternode list

`oracle/dml_commitment.js`: the bytes of a list entry and the root of the list, the
coinbase transaction that commits to that root, and the partial merkle tree that ties
the coinbase to a block header. SHA-256d and the base58check decoder are parameters;
an entry is the JSON value the node sent.
-/

namespace DmlCommitment

open Bytes
open Snapshot (require natText textOf jsonText)

/-! ## Entries -/

/-- The host, the port text and whether the host stood in brackets. -/
def splitService (s : List Char) (quoted : String) : Except String (List Char × List Char × Bool) :=
  match s with
  | '[' :: s =>
    match s.span (· != ']') with
    | (host, ']' :: ':' :: portStr) =>
      if host.contains ':' then .ok (host, portStr, true)
      else .error ("bracketed host is not IPv6 in " ++ quoted)
    | _ => .error ("malformed IPv6 service " ++ quoted ++ ", expected \"[host]:port\"")
  | s =>
    match s.reverse.span (· != ':') with
    | (portRev, ':' :: hostRev) =>
      if hostRev.contains ':' then .error ("IPv6 service must be bracketed as \"[host]:port\" in " ++ quoted)
      else .ok (hostRev.reverse, portRev.reverse, false)
    | _ => .error ("service " ++ quoted ++ " has no port")

/-- `/^\d{lo,hi}$/` -/
def isDigits (lo hi : Nat) (s : List Char) : Bool :=
  decide (lo ≤ s.length) && decide (s.length ≤ hi) && s.all Char.isDigit

/-- `Number(s)` of a string of decimal digits. -/
def decimal (s : List Char) : Nat := Nat.ofDigitChars 10 s 0

/-- `host.split("::")` -/
def splitDoubleColon : List Char → List (List Char)
  | ':' :: ':' :: s => [] :: splitDoubleColon s
  | c :: s =>
    match splitDoubleColon s with
    | p :: ps => (c :: p) :: ps
    | [] => [[c]]
  | [] => [[]]

/-- `/^[0-9a-fA-F]{1,4}$/` -/
def isGroup (g : List Char) : Bool := decide (1 ≤ g.length) && decide (g.length ≤ 4) && g.all isHexDigit

/-- `parseInt(g, 16)` of hexadecimal digits. -/
def groupValue (g : List Char) : Nat := g.foldl (fun n c => 16 * n + (Json.hexVal c).getD 0) 0

def groupsOf (side : List Char) (quoted : String) : Except String (List (List Char)) :=
  if side = [] then .ok []
  else (side.splitOn ':').mapM fun g =>
    if isGroup g then .ok g
    else .error ("malformed IPv6 group " ++ jsonText (some (.str (String.ofList g))) ++ " in " ++ quoted)

/-- The 16 bytes of an IPv6 host. -/
def ipv6Bytes (host : List Char) (quoted : String) : Except String (List UInt8) := do
  let parts := splitDoubleColon host
  require (decide (parts.length ≤ 2)) ("malformed IPv6 host in " ++ quoted ++ ", more than one \"::\"")
  let compressed := decide (parts.length = 2)
  let h ← groupsOf (parts.getD 0 []) quoted
  let t ← if compressed then groupsOf (parts.getD 1 []) quoted else .ok []
  require (compressed || decide (h.length = 8))
    ("malformed IPv6 host in " ++ quoted ++ ", needs exactly eight groups without \"::\"")
  require (!compressed || decide (h.length + t.length ≤ 7))
    ("malformed IPv6 host in " ++ quoted ++ ", \"::\" must replace at least one group")
  let groups := if compressed then h ++ List.replicate (8 - h.length - t.length) ['0'] ++ t else h
  return groups.flatMap fun g => u16BE (groupValue g)

/-- `/^(0|[1-9]\d{0,2})$/`, and at most 255. -/
def isOctet (o : List Char) : Bool :=
  (decide (o = ['0']) || (isDigits 1 3 o && decide (o.head? ≠ some '0'))) && decide (decimal o ≤ 255)

/-- The 16 bytes of an IPv4 host, in the mapped range. -/
def ipv4Bytes (host : List Char) (quoted : String) : Except String (List UInt8) := do
  let octets := host.splitOn '.'
  require (decide (octets.length = 4)) ("malformed IPv4 host in " ++ quoted)
  let bytes ← octets.mapM fun o =>
    if isOctet o then .ok (UInt8.ofNat (decimal o))
    else .error ("malformed IPv4 octet " ++ jsonText (some (.str (String.ofList o))) ++ " in " ++ quoted)
  return List.replicate 10 0 ++ [0xff, 0xff] ++ bytes

/-- `serviceBytes` -/
def serviceBytes (service : Option Json) : Except String (List UInt8) := do
  let quoted := jsonText service
  let (host, portStr, isV6) ← splitService (Json.textOf service) quoted
  require (isDigits 1 5 portStr) ("service port is not a plain decimal in " ++ quoted)
  let port := decimal portStr
  require (decide (port ≤ 0xffff)) ("service port out of range in " ++ quoted)
  let address ← if isV6 then ipv6Bytes host quoted else ipv4Bytes host quoted
  return address ++ u16BE port

/-- `fixedHex` -/
def fixedHex (value : Option Json) (bytes : Nat) (what : String) : Except String (List UInt8) :=
  let message := what ++ " must be " ++ natText (bytes * 2) ++ " hex characters, got " ++ jsonText value
  match value with
  | some (.str s) => if isHex bytes s.toList then .ok (fromHex s.toList) else .error message
  | _ => .error message

/-- `u16Exact` -/
def u16Exact (value : Option Json) (what : String) : Except String (List UInt8) :=
  let message := what ++ " must be an integer in 0..65535, got " ++ jsonText value
  match value with
  | some (.num d) =>
    if d.isInteger && decide (0 ≤ d.toInt) && decide (d.toInt ≤ 0xffff) then .ok (toLE 2 d.toInt.toNat) else .error message
  | _ => .error message

section Bs58check

variable (bs58check : List Char → Except String (List UInt8))

/-- `votingKeyId` -/
def votingKeyId (address : Option Json) : Except String (List UInt8) := do
  let decoded ← bs58check (Json.textOf address)
  require (decide (decoded.length = 21))
    ("voting address " ++ jsonText address ++ " does not decode to a 20-byte key id")
  return decoded.drop 1

def KNOWN_ENTRY_VERSIONS : List Nat := [1, 2]
def KNOWN_ENTRY_TYPES : List Nat := [0, 1]

/-- The member of a set of numbers that a property is. -/
def knownNumber (known : List Nat) (value : Option Json) : Option Nat := known.find? fun n => Json.isNum (.ofNat n) value

def isBoolean : Option Json → Bool
  | some (.bool _) => true
  | _ => false

/-- `smlEntryBytes` -/
def smlEntryBytes (e : Json) : Except String (List UInt8) := do
  let entry := "entry " ++ textOf (e.field "proRegTxHash")
  let some version := knownNumber KNOWN_ENTRY_VERSIONS (e.field "nVersion")
    | .error (entry ++ " has nVersion " ++ jsonText (e.field "nVersion") ++ ". This build serializes versions 1 and 2 " ++
        "only, and guessing a layout it does not know would produce a root that silently fails to match.")
  let operator ← fixedHex (e.field "pubKeyOperator") 48 (entry ++ " operator public key")
  require (isBoolean (e.field "isValid"))
    (entry ++ " has isValid " ++ jsonText (e.field "isValid") ++ ", not a boolean")
  let proRegTxHash ← fixedHex (e.field "proRegTxHash") 32 (entry ++ " proRegTxHash")
  let confirmedHash ← fixedHex (e.field "confirmedHash") 32 (entry ++ " confirmedHash")
  let service ← serviceBytes (e.field "service")
  let keyId ← votingKeyId bs58check (e.field "votingAddress")
  let parts := proRegTxHash.reverse ++ confirmedHash.reverse ++ service ++ operator ++ keyId ++
    [if Snapshot.isTrue (e.field "isValid") then 1 else 0]
  if 2 ≤ version then
    let some nType := knownNumber KNOWN_ENTRY_TYPES (e.field "nType")
      | .error (entry ++ " has nType " ++ jsonText (e.field "nType") ++ ". This build serializes types 0 and 1 only, " ++
          "and a type it does not know may carry fields it would omit.")
    let typeBytes ← u16Exact (e.field "nType") (entry ++ " nType")
    if nType = 1 then
      let port ← u16Exact (e.field "platformHTTPPort") (entry ++ " platformHTTPPort")
      let nodeID ← fixedHex (e.field "platformNodeID") 20 (entry ++ " platformNodeID")
      return parts ++ typeBytes ++ port ++ nodeID.reverse
    else return parts ++ typeBytes
  else return parts

/-! ## The root of the list -/

/-- `merkleRootFromLeaves` -/
def merkleRootFromLeaves (sha256d : List UInt8 → Digest) (leaves : List Digest) : Digest := HashTree.root sha256d leaves

/-- `internalOrder` of an entry's `proRegTxHash`. -/
def internalOrder : Json → Except String (List UInt8)
  | .null => .error "Cannot read properties of null (reading 'proRegTxHash')"
  | e =>
    match e.field "proRegTxHash" with
    | some (.str s) => .ok (fromHex s.toList).reverse
    -- `Buffer.from` takes some arrays and objects too; `fixedHex` refuses their entry
    | _ => .error "The first argument must be of type string or an instance of Buffer, ArrayBuffer, or Array or an Array-like Object."

structure Keyed where
  e : Json
  key : List UInt8

def Keyed.Le (a b : Keyed) : Prop := Bytes.Le a.key b.key

instance : DecidableRel Keyed.Le := fun a b => inferInstanceAs (Decidable (Bytes.Le a.key b.key))

/-- The refusal of two neighbours with one key. -/
def refuseRepeated : List Keyed → Except String Unit
  | a :: b :: keyed => do
    require (decide (b.key ≠ a.key))
      ("masternode list contains proRegTxHash " ++ textOf (b.e.field "proRegTxHash") ++ " twice")
    refuseRepeated (b :: keyed)
  | _ => .ok ()

def MAX_MN_LIST_ENTRIES : Nat := 50000

/-- The serialized entries in the order of their keys. -/
def sortedEntries (mnList : List Json) : Except String (List (List UInt8)) := do
  require (decide (mnList.length ≤ MAX_MN_LIST_ENTRIES))
    ("masternode list has " ++ natText mnList.length ++ " entries, past the " ++ natText MAX_MN_LIST_ENTRIES ++ " bound")
  let keyed ← mnList.mapM fun e => do return Keyed.mk e (← internalOrder e)
  let sorted := keyed.insertionSort Keyed.Le
  refuseRepeated sorted
  sorted.mapM fun k => smlEntryBytes bs58check k.e

/-- `smlMerkleRoot` -/
def smlMerkleRoot (sha256d : List UInt8 → Digest) (mnList : List Json) : Except String Digest := do
  let entries ← sortedEntries bs58check mnList
  return merkleRootFromLeaves sha256d (entries.map sha256d)

end Bs58check

/-! ## The reader -/

/-- A reader goes over the bytes that are left. -/
abbrev Reader := StateT (List UInt8) (Except String)

namespace Reader

def ask (cond : Bool) (message : String) : Reader Unit := StateT.lift (require cond message)

def take (n : Nat) : Reader (List UInt8) := fun rest =>
  if n ≤ rest.length then .ok (rest.take n, rest.drop n) else .error "truncated while reading"

def take32 : Reader Digest := fun rest =>
  if h : 32 ≤ rest.length then .ok (⟨rest.take 32, by simp [h]⟩, rest.drop 32) else .error "truncated while reading"

def u16 : Reader Nat := do return ofLE (← take 2)

def u32 : Reader Nat := do return ofLE (← take 4)

/-- The value of a wider form, which has to be above what the next shorter one can hold. -/
def wide (width least : Nat) : Reader Nat := do
  let v := ofLE (← take width)
  ask (decide (least ≤ v)) ("varint " ++ natText v ++ " is written in a wider form than its shortest one")
  return v

def varint : Reader Nat := do
  let first := ofLE (← take 1)
  if first < 0xfd then return first
  else if first = 0xfd then wide 2 0xfd
  else if first = 0xfe then wide 4 0x10000
  else do
    let v ← wide 8 0x100000000
    ask (decide (v ≤ 2 ^ 53 - 1)) "varint too large"
    return v

/-- `for (let i = 0; i < n; i++)` -/
def times {α : Type} (body : Reader α) : Nat → Reader (List α)
  | 0 => pure []
  | n + 1 => do
    let a ← body
    return a :: (← times body n)

end Reader

open Reader

/-! ## The coinbase -/

structure CbTxCommitment where
  payloadVersion : Nat
  height : Nat
  merkleRootMNList : List Char
  merkleRootQuorums : Option (List Char)
  deriving DecidableEq

def txInput : Reader Unit := do
  let _ ← take 32
  let _ ← u32
  let _ ← take (← varint)
  let _ ← u32

def txOutput : Reader Unit := do
  let _ ← take 8
  let _ ← take (← varint)

/-- The payload of a coinbase special transaction. -/
def cbTxPayload : Reader (List UInt8) := do
  let nVersion ← u16
  let nType ← u16
  ask (decide (nType = 5)) ("expected a coinbase special transaction (type 5), got type " ++ natText nType ++
    " version " ++ natText nVersion)
  let _ ← times txInput (← varint)
  let _ ← times txOutput (← varint)
  let _ ← u32
  take (← varint)

/-- A root as it is displayed. -/
def displayed : Reader (List Char) := do return toHex (← take 32).reverse

/-- The fields that are read of the payload; what follows them is not read. -/
def cbTxFields : Reader CbTxCommitment := do
  let payloadVersion ← u16
  let height ← u32
  let merkleRootMNList ← displayed
  let merkleRootQuorums ← if 2 ≤ payloadVersion then some <$> displayed else pure none
  return { payloadVersion, height, merkleRootMNList, merkleRootQuorums }

/-- `cbTxCommitment` on the decoded bytes. -/
def cbTxOfBytes (tx : List UInt8) : Except String CbTxCommitment := do
  let (payload, rest) ← cbTxPayload.run tx
  require (decide (rest = [])) ("coinbase transaction has " ++ natText rest.length ++
    " trailing byte(s) after its payload; the parser must consume the whole transaction")
  let (fields, _) ← cbTxFields.run payload
  return fields

/-- `cbTxCommitment` -/
def cbTxCommitment (cbTxHex : String) : Except String CbTxCommitment := cbTxOfBytes (fromHex cbTxHex.toList)

/-! ## The partial merkle tree -/

structure Matched where
  hash : Digest
  index : Nat
  deriving DecidableEq

def MAX_TREE_TRANSACTIONS : Nat := 2 ^ 24

/-- The serialized tree, before the traversal. -/
structure PartialBytes where
  nTransactions : Nat
  hashes : List Digest
  flagBytes : List UInt8

/-- `Math.ceil((2 * nTransactions + 64) / 8)` -/
def maxFlagBytes (nTransactions : Nat) : Nat := (2 * nTransactions + 64 + 7) / 8

def partialBytes : Reader PartialBytes := do
  let nTransactions ← u32
  ask (decide (nTransactions ≠ 0)) "partial merkle tree covers no transactions"
  ask (decide (nTransactions ≤ MAX_TREE_TRANSACTIONS)) ("partial merkle tree claims " ++ natText nTransactions ++
    " transactions, past the " ++ natText MAX_TREE_TRANSACTIONS ++ " bound")
  let hashes ← times take32 (← varint)
  let declaredFlagBytes ← varint
  ask (decide (declaredFlagBytes ≤ maxFlagBytes nTransactions)) ("partial merkle tree declares " ++
    natText declaredFlagBytes ++ " flag bytes for " ++ natText nTransactions ++ " transactions, past the " ++
    natText (maxFlagBytes nTransactions) ++ " the traversal could read")
  let flagBytes ← take declaredFlagBytes
  return { nTransactions, hashes, flagBytes }

/-- `while (1 << height < nTransactions) height++`, for at most `fuel` turns. -/
def heightFrom (nTransactions : Nat) : Nat → Nat → Nat
  | 0, height => height
  | fuel + 1, height => if 2 ^ height < nTransactions then heightFrom nTransactions fuel (height + 1) else height

/-- The height of the tree; no count below the bound takes more than 24 turns. -/
def treeHeight (nTransactions : Nat) : Nat := heightFrom nTransactions 24 0

def widthAt (nTransactions h : Nat) : Nat := (nTransactions + 2 ^ h - 1) / 2 ^ h

def bitAt (flagBytes : List UInt8) (i : Nat) : Bool := (flagBytes.getD (i / 8) 0).toNat.testBit (i % 8)

/-- The counters of a traversal and what it found. No branch reads the last field, the strings
hashed so far. -/
structure Walk where
  bitsUsed : Nat
  hashesUsed : Nat
  matched : List Matched
  hashed : List (List UInt8)

abbrev Walker := StateT Walk (Except String)

def nextBit (p : PartialBytes) : Walker Bool := fun w =>
  if w.bitsUsed < p.flagBytes.length * 8 then
    .ok (bitAt p.flagBytes w.bitsUsed, { w with bitsUsed := w.bitsUsed + 1 })
  else .error "partial merkle tree ran out of flag bits"

def nextHash (p : PartialBytes) : Walker Digest := fun w =>
  match p.hashes[w.hashesUsed]? with
  | some hash => .ok (hash, { w with hashesUsed := w.hashesUsed + 1 })
  | none => .error "partial merkle tree ran out of hashes"

def markMatched (hash : Digest) (pos : Nat) : Walker Unit := fun w =>
  .ok ((), { w with matched := w.matched ++ [⟨hash, pos⟩] })

section Sha256d

variable (sha256d : List UInt8 → Digest)

/-- `sha256d(Buffer.concat([left, right]))` -/
def hashNode (left right : Digest) : Walker Digest := fun w =>
  .ok (sha256d (left.bytes ++ right.bytes), { w with hashed := w.hashed ++ [left.bytes ++ right.bytes] })

/-- `walk` -/
def walk (p : PartialBytes) : Nat → Nat → Walker Digest
  | 0, pos => do
    let descend ← nextBit p
    let hash ← nextHash p
    if descend then markMatched hash pos
    return hash
  | h + 1, pos => do
    let descend ← nextBit p
    if descend then
      let left ← walk p h (pos * 2)
      let right ← if pos * 2 + 1 < widthAt p.nTransactions h then walk p h (pos * 2 + 1) else pure left
      hashNode sha256d left right
    else nextHash p

structure PartialTree where
  root : Digest
  matched : List Matched
  nTransactions : Nat
  /-- What the traversal hashed. -/
  hashed : List (List UInt8)
  deriving DecidableEq

/-- `partialMerkleTree` on the decoded bytes. -/
def partialTreeOfBytes (bytes : List UInt8) : Except String PartialTree := do
  let (p, rest) ← partialBytes.run bytes
  let (root, w) ← (walk sha256d p (treeHeight p.nTransactions) 0).run ⟨0, 0, [], []⟩
  require (decide (w.hashesUsed = p.hashes.length)) "partial merkle tree left hashes unused"
  require (decide ((w.bitsUsed + 7) / 8 = p.flagBytes.length)) "partial merkle tree left flag bytes unused"
  require ((List.range' w.bitsUsed (p.flagBytes.length * 8 - w.bitsUsed)).all fun i => !bitAt p.flagBytes i)
    "partial merkle tree has non-zero padding in its flag bits"
  require (decide (rest = [])) ("partial merkle tree has " ++ natText rest.length ++ " trailing bytes")
  return { root, matched := w.matched, nTransactions := p.nTransactions, hashed := w.hashed }

/-- `partialMerkleTree` -/
def partialMerkleTree (hex : String) : Except String PartialTree := partialTreeOfBytes sha256d (fromHex hex.toList)

/-! ## The three checks -/

/-- `headerMerkleRoot` on the decoded bytes. -/
def headerRootOfBytes (header : List UInt8) : Except String Digest :=
  if h : header.length = 80 then .ok ⟨(header.drop 36).take 32, by simp [h]⟩
  else .error ("block header must be 80 bytes, got " ++ natText header.length)

/-- `headerMerkleRoot` -/
def headerMerkleRoot (headerHex : String) : Except String Digest := headerRootOfBytes (fromHex headerHex.toList)

structure DiffResponse where
  mnList : List Json
  cbTx : String
  cbTxMerkleTree : String
  blockHeader : String

structure Verified where
  merkleRootMNList : List Char
  height : Nat
  payloadVersion : Nat
  entries : Nat
  transactionsInBlock : Nat
  headerIdentityVerified : Bool
  deriving DecidableEq

def displayText (d : Digest) : List Char := toHex d.bytes.reverse

/-- `verifyDmlCommitment` on the decoded bytes. -/
def verifyDmlBytes (bs58check : List Char → Except String (List UInt8)) (mnList : List Json)
    (cbTx cbTxMerkleTree blockHeader : List UInt8) : Except String Verified := do
  let commitment ← cbTxOfBytes cbTx
  let recomputed := displayText (← smlMerkleRoot bs58check sha256d mnList)
  require (decide (recomputed = commitment.merkleRootMNList))
    ("masternode list does not match the coinbase commitment: list hashes to " ++ String.ofList recomputed ++
      ", coinbase commits to " ++ String.ofList commitment.merkleRootMNList)
  let cbTxid := sha256d cbTx
  let tree ← partialTreeOfBytes sha256d cbTxMerkleTree
  let some coinbase := tree.matched.find? fun m => decide (m.hash = cbTxid)
    | .error "the merkle branch does not mark the supplied coinbase as its matched transaction"
  require (decide (coinbase.index = 0)) ("the merkle branch places the supplied transaction at index " ++
    natText coinbase.index ++ ", and a coinbase is index 0")
  let inHeader ← headerRootOfBytes blockHeader
  require (decide (tree.root = inHeader)) ("the merkle branch reproduces " ++ String.ofList (displayText tree.root) ++
    ", but the header commits to " ++ String.ofList (displayText inHeader))
  return {
    merkleRootMNList := commitment.merkleRootMNList
    height := commitment.height
    payloadVersion := commitment.payloadVersion
    entries := mnList.length
    transactionsInBlock := tree.nTransactions
    headerIdentityVerified := false }

/-- `verifyDmlCommitment` -/
def verifyDmlCommitment (bs58check : List Char → Except String (List UInt8)) (r : DiffResponse) : Except String Verified :=
  verifyDmlBytes sha256d bs58check r.mnList (fromHex r.cbTx.toList) (fromHex r.cbTxMerkleTree.toList)
    (fromHex r.blockHeader.toList)

end Sha256d

end DmlCommitment
