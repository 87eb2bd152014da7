import MnoVerify.DmlBindingSound
import MnoVerify.OracleLeavesSound
import MnoVerify.ProofOfWork

/-!
# The two leaf builders

`buildDiffSnapshot` of `oracle/diff_snapshot.js` with its commitment check, beside `leavesFromMasternodeList`. `leaf_builders`:
the order in which a node lists its masternodes does not matter, and the leaves are those of the entries that count, in the
order of their names.
-/

namespace DiffSnapshot

open Bytes (hexText isHexDigit)
open DmlCommitment (verifyDmlCommitment verifyDmlBytes)
open OracleLeaves
open ProofOfWork (HeaderInput headerBytes meetsProofOfWork)
open Snapshot (require require_eq_ok textOf isTrue)

/-- What the code computes with. -/
structure Functions where
  hash160 : List UInt8 → List UInt8
  bs58check : List Char → Except String (List UInt8)
  sha256d : List UInt8 → Digest
  sha256 : List UInt8 → List UInt8
  poseidon : Nat → Nat → Nat
  x11 : Vector UInt8 80 → Vector UInt8 32

/-! ## The commitment check -/

/-- `typeof` -/
def typeOf : Option Json → String
  | some .null => "object"
  | v => typeText v

/-- `/^[0-9a-f]+$/i` on a string. -/
def isHexString : Option Json → Bool
  | some (.str s) => decide (s ≠ "") && s.toList.all isHexDigit
  | _ => false

/-- A string of an even length. -/
def isEven : Option Json → Bool
  | some (.str s) => decide (s.toList.length % 2 = 0)
  | _ => false

def isUndefined : Option Json → Bool
  | none => true
  | some _ => false

def headerKind : Option Json → String
  | some (.str _) => "a non-hex string"
  | v => typeOf v

def blockHashFromHeader (x11 : Vector UInt8 80 → Vector UInt8 32) (headerHex : HeaderInput) : Except String String := do
  let header ← headerBytes headerHex
  return hexText (x11 header).toList.reverse

/-- The shape of `cbTx` and of `cbTxMerkleTree`. -/
def checkArtefact (diff : Json) (name : String) : Except String Unit :=
  require (isHexString (diff.field name) && isEven (diff.field name))
    ("oracle: protx diff returned a " ++ (if isUndefined (diff.field name) then "missing" else "malformed") ++ " " ++ name ++
      ", and the commitment cannot be checked without it.")

section
variable (F : Functions) (header : Option Json) (lock diff : Json)

/-- The block under `if (verifyCommitment)`. -/
def checkCommitment (mnList : List Json) : Except String Unit := do
  require (isHexString header)
    ("oracle: getblockheader returned " ++ headerKind header ++ ", " ++
      "and the commitment cannot be checked without the header the list is supposed to belong to.")
  checkAll (checkArtefact diff) ["cbTx", "cbTxMerkleTree"]
  let named ← blockHashFromHeader F.x11 (.text (textOf header).toList)
  require (decide (named = textOf (lock.field "blockhash")))
    ("oracle: the header the node returned for " ++ textOf (lock.field "blockhash") ++ " hashes to " ++ named ++ ". A block is " ++
      "named by the X11 hash of its header, so this is not that block, whatever the node called it.")
  let worked ← meetsProofOfWork F.x11 (.text (textOf header).toList) none
  require worked
    ("oracle: the header for " ++ textOf (lock.field "blockhash") ++ " does not meet the proof of work its own target declares. " ++
      "A real block cannot fail this, so the node is serving something that was never mined.")
  let proof ← verifyDmlCommitment F.sha256d F.bs58check
    ⟨mnList, textOf (diff.field "cbTx"), textOf (diff.field "cbTxMerkleTree"), textOf header⟩
  require (Json.isNum (.ofNat proof.height) (lock.field "height"))
    ("oracle: the coinbase commits to height " ++ Snapshot.natText proof.height ++ " but the ChainLock names " ++
      textOf (lock.field "height") ++ ". Refusing rather than publishing a list from a different block.")

end

/-! ## The snapshot -/

structure Built where
  version : Nat
  height : Option Json
  blockHash : Option Json
  depth : Nat
  ts : Int
  root : List Char
  shaRoot : List Char
  leaves : List (List Char)
  order : String
  chainlocked : Bool

/-- `buildDiffSnapshot`, over the three answers of the node. -/
def buildDiffSnapshot (F : Functions) (depth : Nat) (now : Int) (verifyCommitment : Bool) (header : Option Json)
    (lock diff : Json) : Except String Built := do
  let realLeaves ← diffLeaves F.hash160 F.bs58check
    (fun mnList => if verifyCommitment then checkCommitment F header lock diff mnList else .ok ()) lock diff
  let leaves := leafTexts realLeaves
  let root ← Snapshot.dmlRootFromLeaves F.poseidon depth leaves
  let shaRoot ← Snapshot.shaRootFromLeaves F.sha256 depth leaves
  return {
    version := 3
    height := lock.field "height"
    blockHash := lock.field "blockhash"
    depth := depth
    ts := now
    root := root
    shaRoot := shaRoot
    leaves := leaves
    order := "proRegTxHash"
    chainlocked := true }

/-! ## Checks over a list -/

theorem checkAll_eq_ok {α : Type} {check : α → Except String Unit} {l : List α} {u : Unit} :
    checkAll check l = .ok u ↔ ∀ a ∈ l, check a = .ok () := by
  induction l with
  | nil => exact ⟨fun _ => nofun, fun _ => rfl⟩
  | cons a l ih =>
    rw [checkAll, Js.bind_eq_ok, List.forall_mem_cons]
    exact ⟨fun ⟨_, ha, hl⟩ => ⟨ha, ih.1 hl⟩, fun ⟨ha, hl⟩ => ⟨(), ha, ih.2 hl⟩⟩

/-- The entries pass one by one, and no name comes twice. -/
theorem checkMnList_eq_ok {mnList : List Json} : ∀ {seen : List String} {u : Unit}, checkMnList mnList seen = .ok u ↔
    (∀ m ∈ mnList, checkDiffed m = .ok ()) ∧ (mnList.map hashOf).Nodup ∧ ∀ m ∈ mnList, hashOf m ∉ seen := by
  induction mnList with
  | nil => exact ⟨fun _ => ⟨nofun, List.nodup_nil, nofun⟩, fun _ => rfl⟩
  | cons m mnList ih =>
    intro seen u
    simp only [checkMnList, Js.bind_eq_ok, require_eq_ok, Bool.not_eq_true', List.contains_eq_mem, decide_eq_false_iff_not, ih,
      forall_eq_or_imp, List.map_cons, List.nodup_cons, List.mem_cons, not_or, List.mem_map, not_exists, not_and]
    constructor
    · rintro ⟨_, hm, _, hs, hl, hn, hout⟩
      exact ⟨⟨hm, hl⟩, ⟨fun x hx he => (hout x hx).1 he, hn⟩, hs, fun x hx => (hout x hx).2⟩
    · rintro ⟨⟨hm, hl⟩, ⟨hne, hn⟩, hs, hout⟩
      exact ⟨(), hm, (), hs, hl, hn, fun x hx => ⟨fun he => hne x hx he, hout x hx⟩⟩

/-! ## Order by name -/

section
variable {α : Type} (name : α → String)

/-- Elements in the order of their names. -/
def sorted (l : List α) : List α := l.mergeSort fun a b => decide (name a ≤ name b)

theorem sorted_perm (l : List α) : (sorted name l).Perm l := List.mergeSort_perm ..

theorem sorted_pairwise (l : List α) : (sorted name l).Pairwise fun a b => name a ≤ name b := by
  refine (List.pairwise_mergeSort (fun a b c hab hbc => ?_) (fun a b => ?_) l).imp fun h => of_decide_eq_true h
  · exact decide_eq_true (String.le_trans (of_decide_eq_true hab) (of_decide_eq_true hbc))
  · rw [Bool.or_eq_true, decide_eq_true_eq, decide_eq_true_eq]
    exact String.le_total (name a) (name b)

/-- Of distinct names, one stands before the next. -/
theorem sorted_strict {l : List α} (hn : (l.map name).Nodup) :
    (sorted name l).Pairwise fun a b => name a ≤ name b ∧ name a ≠ name b :=
  (sorted_pairwise name l).and (List.pairwise_map.1 (((sorted_perm name l).map name).nodup_iff.2 hn))

/-- Of distinct names, the order of the input does not matter. -/
theorem sorted_eq_of_perm {l l' : List α} (h : l.Perm l') (hn : (l.map name).Nodup) : sorted name l = sorted name l' := by
  refine List.Perm.eq_of_pairwise (fun a b ha hb hab hba => ?_) (sorted_pairwise name l) (sorted_pairwise name l')
    ((sorted_perm name l).trans (h.trans (sorted_perm name l').symm))
  exact List.inj_on_of_nodup_map hn ((sorted_perm name l).mem_iff.1 ha) (h.mem_iff.2 ((sorted_perm name l').mem_iff.1 hb))
    (String.le_antisymm hab hba)

theorem byName_map (address : α → String) (l : List α) :
    byName (l.map fun a => (name a, address a)) = (sorted name l).map fun a => (name a, address a) :=
  (@List.map_mergeSort α (String × String) (fun a b => decide (name a ≤ name b)) (fun p q => decide (p.1 ≤ q.1))
    (fun a => (name a, address a)) l fun _ _ _ _ => rfl).symm

end

/-! ## Where the leaves come from -/

/-- The leaves are those of the elements of the list other than the key-0 leaf, each of its own address, in the order of the names. -/
def Placed {α : Type} (F : Functions) (name address : α → String) (l : List α) (leaves : List Nat) : Prop :=
  ∃ nodes : List α, nodes.Perm (l.filter fun a => decide (leafOf F.bs58check (address a) ≠ KEY_ZERO_LEAF F.hash160)) ∧
    nodes.Pairwise (fun a b => name a ≤ name b ∧ name a ≠ name b) ∧
    List.Forall₂ (fun a leaf => votingAddressToLeaf F.bs58check (address a) = .ok leaf) nodes leaves

section
variable (F : Functions) {α : Type} {name address : α → String}

theorem leafOf_ok {a : String} {leaf : Nat} (h : votingAddressToLeaf F.bs58check a = .ok leaf) : leafOf F.bs58check a = leaf := by
  rw [leafOf, h]

theorem forall₂_leaves {l : List α} (h : ∀ a ∈ l, Decodes F.bs58check (address a)) :
    List.Forall₂ (fun a leaf => votingAddressToLeaf F.bs58check (address a) = .ok leaf) l
      (l.map fun a => leafOf F.bs58check (address a)) := by
  rw [List.forall₂_map_right_iff, List.forall₂_same]
  intro a ha
  obtain ⟨leaf, hleaf, -⟩ := h a ha
  rw [leafOf_ok F hleaf, hleaf]

/-- The loop over the sorted names. -/
theorem placed {source : String} {l : List α} {leaves : List Nat} (hn : (l.map name).Nodup)
    (h : realLeaves F.hash160 F.bs58check source (byName (l.map fun a => (name a, address a))) = .ok leaves) :
    Placed F name address l leaves ∧ ∀ a ∈ l, Decodes F.bs58check (address a) := by
  rw [byName_map] at h
  obtain ⟨hall, rfl⟩ := realLeaves_ok.1 h
  have hdec : ∀ a ∈ sorted name l, Decodes F.bs58check (address a) := fun a ha =>
    hall _ (List.mem_map.2 ⟨_, List.mem_map_of_mem ha, rfl⟩)
  refine ⟨⟨(sorted name l).filter fun a => decide (leafOf F.bs58check (address a) ≠ KEY_ZERO_LEAF F.hash160),
    (sorted_perm name l).filter _, (sorted_strict name hn).filter _, ?_⟩, fun a ha => hdec a ((sorted_perm name l).mem_iff.2 ha)⟩
  have hleaves := forall₂_leaves F (l := (sorted name l).filter fun a =>
    decide (leafOf F.bs58check (address a) ≠ KEY_ZERO_LEAF F.hash160)) fun a ha => hdec a (List.mem_of_mem_filter ha)
  rw [counted, List.map_map, List.map_map, List.filter_map]
  exact hleaves

end

/-! ## Permuted answers -/

theorem toOption_eq {α : Type} {x y : Except String α} (h : ∀ a, x = .ok a ↔ y = .ok a) : x.toOption = y.toOption := by
  cases hx : x with
  | ok a => rw [(h a).1 hx]
  | error e =>
    cases hy : y with
    | ok b => rw [(h b).2 hy] at hx; cases hx
    | error e' => rfl

/-- The two answers are the same but for the order of the list. -/
def SameAnswers (diff diff' : Json) : Prop :=
  (∃ l l', diff.field "mnList" = some (.arr l) ∧ diff'.field "mnList" = some (.arr l') ∧ l.Perm l') ∧
    ∀ f, f ≠ "mnList" → diff.field f = diff'.field f

theorem SameAnswers.symm {diff diff' : Json} (h : SameAnswers diff diff') : SameAnswers diff' diff := by
  obtain ⟨⟨l, l', hl, hl', hperm⟩, hfields⟩ := h
  exact ⟨⟨l', l, hl', hl, hperm.symm⟩, fun f hf => (hfields f hf).symm⟩

section
variable (F : Functions)

/-- The commitment reads the list through its root and its length. -/
theorem verifyDmlCommitment_perm {l l' : List Json} (h : l.Perm l') {cbTx tree header : String} {v : DmlCommitment.Verified}
    (hok : verifyDmlCommitment F.sha256d F.bs58check ⟨l, cbTx, tree, header⟩ = .ok v) :
    verifyDmlCommitment F.sha256d F.bs58check ⟨l', cbTx, tree, header⟩ = .ok v := by
  have hroot : ∀ {root}, DmlCommitment.smlMerkleRoot F.bs58check F.sha256d l = .ok root →
      DmlCommitment.smlMerkleRoot F.bs58check F.sha256d l' = .ok root := fun hr => by
    obtain ⟨entries, he, hd⟩ := DmlCommitment.smlMerkleRoot_eq_ok.1 hr
    exact DmlCommitment.smlMerkleRoot_eq_ok.2 ⟨entries, DmlCommitment.sortedEntries_perm h he, hd⟩
  rw [verifyDmlCommitment, verifyDmlBytes, Js.bind_eq_ok] at hok ⊢
  obtain ⟨commitment, hc, hok⟩ := hok
  rw [Js.bind_eq_ok] at hok
  obtain ⟨root, hr, hok⟩ := hok
  refine ⟨commitment, hc, ?_⟩
  rw [Js.bind_eq_ok]
  refine ⟨root, hroot hr, ?_⟩
  rw [← h.length_eq]
  exact hok

theorem checkCommitment_perm {header : Option Json} {lock diff diff' : Json} (h : SameAnswers diff diff') {l l' : List Json}
    (hperm : l.Perm l') (hok : checkCommitment F header lock diff l = .ok ()) :
    checkCommitment F header lock diff' l' = .ok () := by
  have htx : diff.field "cbTx" = diff'.field "cbTx" := h.2 _ (by decide)
  have htree : diff.field "cbTxMerkleTree" = diff'.field "cbTxMerkleTree" := h.2 _ (by decide)
  simp only [checkCommitment, Js.bind_eq_ok, checkAll, checkArtefact, htx, htree] at hok ⊢
  obtain ⟨u, hhex, v, hart, named, hnamed, w, heq, worked, hworked, x, hwork, proof, hproof, hheight⟩ := hok
  exact ⟨u, hhex, v, hart, named, hnamed, w, heq, worked, hworked, x, hwork, proof, verifyDmlCommitment_perm F hperm hproof, hheight⟩

theorem validLeaves_perm {l l' : List Json} (hperm : l.Perm l') (hn : (l.map hashOf).Nodup) :
    validLeaves F.hash160 F.bs58check l = validLeaves F.hash160 F.bs58check l' := by
  rw [validLeaves, validLeaves, byName_map, byName_map,
    sorted_eq_of_perm hashOf (hperm.filter _) (hn.sublist (List.filter_sublist.map _))]

theorem boundList_perm {lock diff diff' : Json} (h : SameAnswers diff diff') {l : List Json} (hok : boundList lock diff = .ok l) :
    ∃ l', boundList lock diff' = .ok l' ∧ l.Perm l' := by
  obtain ⟨⟨k, k', hk, hk', hperm⟩, hfields⟩ := h
  have hblock : diff.field "blockHash" = diff'.field "blockHash" := hfields _ (by decide)
  simp only [boundList, Js.bind_eq_ok, hk, hk', hblock] at hok ⊢
  obtain ⟨u, hs, v, heq, hl⟩ := hok
  cases hl
  exact ⟨k', ⟨u, hs, v, heq, rfl⟩, hperm⟩

theorem diffLeaves_perm {commitment commitment' : List Json → Except String Unit} {lock diff diff' : Json} (h : SameAnswers diff diff')
    (hcommitment : ∀ {l l'}, l.Perm l' → commitment l = .ok () → commitment' l' = .ok ()) {leaves : List Nat}
    (hok : diffLeaves F.hash160 F.bs58check commitment lock diff = .ok leaves) :
    diffLeaves F.hash160 F.bs58check commitment' lock diff' = .ok leaves := by
  simp only [diffLeaves, Js.bind_eq_ok] at hok ⊢
  obtain ⟨u, hlock, l, hl, v, hlist, w, hc, hleaves⟩ := hok
  obtain ⟨l', hl', hperm⟩ := boundList_perm h hl
  obtain ⟨hall, hn, -⟩ := checkMnList_eq_ok.1 hlist
  have hlist' : checkMnList l' [] = .ok v := checkMnList_eq_ok.2
    ⟨fun m hm => hall m (hperm.mem_iff.2 hm), (hperm.map hashOf).nodup_iff.1 hn, fun _ _ => List.not_mem_nil⟩
  exact ⟨u, hlock, l', hl', v, hlist', w, hcommitment hperm hc, (validLeaves_perm F hperm hn) ▸ hleaves⟩

theorem build_perm {depth : Nat} {now : Int} {verifyCommitment : Bool} {header : Option Json} {lock diff diff' : Json}
    (h : SameAnswers diff diff') {built : Built}
    (hok : buildDiffSnapshot F depth now verifyCommitment header lock diff = .ok built) :
    buildDiffSnapshot F depth now verifyCommitment header lock diff' = .ok built := by
  rw [buildDiffSnapshot, Js.bind_eq_ok] at hok ⊢
  obtain ⟨leaves, hleaves, hrest⟩ := hok
  refine ⟨leaves, diffLeaves_perm F h (fun hperm hc => ?_) hleaves, hrest⟩
  cases verifyCommitment with
  | true => exact checkCommitment_perm F h hperm hc
  | false => rfl

/-- Whatever the order of the list, the same snapshot or none. -/
theorem build_toOption {diff diff' : Json} (h : SameAnswers diff diff') (depth : Nat) (now : Int) (verifyCommitment : Bool)
    (header : Option Json) (lock : Json) : (buildDiffSnapshot F depth now verifyCommitment header lock diff).toOption =
      (buildDiffSnapshot F depth now verifyCommitment header lock diff').toOption :=
  toOption_eq fun _ => ⟨build_perm F h, build_perm F h.symm⟩

end

/-! ## The list by outpoint -/

def listedAddress (e : String × Json) : String := textOf (e.2.field "votingaddress")

def diffedAddress (m : Json) : String := textOf (m.field "votingAddress")

def isListed (e : String × Json) : Bool := isEnabled e.2

def isDiffed (m : Json) : Bool := isTrue (m.field "isValid")

/-- An object does not repeat a key. -/
theorem nodup_entries (m : List (String × Json)) : ((entries m).map Prod.fst).Nodup := by
  have hfold : ∀ es : List (String × Json), (es.map Prod.fst).Nodup →
      ((m.foldl (fun es p => Assoc.set es p.1 p.2) es).map Prod.fst).Nodup := by
    induction m with
    | nil => exact fun _ h => h
    | cons p m ih => exact fun es h => ih _ (Assoc.nodup_set h p.1 p.2)
  exact hfold [] List.nodup_nil

theorem listed_eq_ok {F : Functions} {m : List (String × Json)} {leaves : List Nat} :
    leavesFromMasternodeList F.hash160 F.bs58check (.obj m) = .ok leaves ↔ (∀ e ∈ entries m, checkListed e = .ok ()) ∧
      realLeaves F.hash160 F.bs58check "masternode list"
        (byName (((entries m).filter isListed).map fun e => (e.1, listedAddress e))) = .ok leaves := by
  rw [leavesFromMasternodeList, Js.bind_eq_ok]
  constructor
  · intro h
    obtain ⟨_, h, hr⟩ := h
    exact ⟨checkAll_eq_ok.1 h, hr⟩
  · intro h
    exact ⟨(), checkAll_eq_ok.2 h.1, h.2⟩

theorem listed_leaves_perm {F : Functions} {m m' : List (String × Json)} (h : (entries m).Perm (entries m')) {leaves : List Nat}
    (hok : leavesFromMasternodeList F.hash160 F.bs58check (.obj m) = .ok leaves) :
    leavesFromMasternodeList F.hash160 F.bs58check (.obj m') = .ok leaves := by
  rw [listed_eq_ok] at hok ⊢
  obtain ⟨hall, hr⟩ := hok
  refine ⟨fun e he => hall e (h.mem_iff.2 he), ?_⟩
  rw [byName_map, ← sorted_eq_of_perm Prod.fst (h.filter isListed) ((nodup_entries m).sublist (List.filter_sublist.map _)),
    ← byName_map]
  exact hr

theorem listed_placed {F : Functions} {m : List (String × Json)} {leaves : List Nat}
    (hok : leavesFromMasternodeList F.hash160 F.bs58check (.obj m) = .ok leaves) :
    Placed F Prod.fst listedAddress ((entries m).filter isListed) leaves ∧
      ∀ e ∈ (entries m).filter isListed, Decodes F.bs58check (listedAddress e) :=
  placed F ((nodup_entries m).sublist (List.filter_sublist.map _)) (listed_eq_ok.1 hok).2

/-! ## The list by registration -/

theorem build_eq_ok {F : Functions} {depth : Nat} {now : Int} {verifyCommitment : Bool} {header : Option Json} {lock diff : Json}
    {built : Built} (hok : buildDiffSnapshot F depth now verifyCommitment header lock diff = .ok built) :
    ∃ l leaves, diff.field "mnList" = some (.arr l) ∧ checkMnList l [] = .ok () ∧
      validLeaves F.hash160 F.bs58check l = .ok leaves ∧ built.leaves = leafTexts leaves := by
  simp only [buildDiffSnapshot, Js.bind_eq_ok] at hok
  obtain ⟨leaves, hleaves, root, -, shaRoot, -, hbuilt⟩ := hok
  simp only [diffLeaves, Js.bind_eq_ok] at hleaves
  obtain ⟨_, -, l, hl, _, hlist, _, -, hvalid⟩ := hleaves
  simp only [boundList, Js.bind_eq_ok] at hl
  obtain ⟨-, -, -, -, hl⟩ := hl
  refine ⟨l, leaves, ?_, hlist, hvalid, ?_⟩
  · split at hl
    · rename_i k hk
      cases hl
      exact hk
    · cases hl
  · rw [← Except.ok.inj hbuilt]

theorem build_placed {F : Functions} {l : List Json} {leaves : List Nat} (hlist : checkMnList l [] = .ok ())
    (hok : validLeaves F.hash160 F.bs58check l = .ok leaves) :
    Placed F hashOf diffedAddress (l.filter isDiffed) leaves ∧ ∀ m ∈ l.filter isDiffed, Decodes F.bs58check (diffedAddress m) :=
  placed F ((checkMnList_eq_ok.1 hlist).2.1.sublist (List.filter_sublist.map _)) hok

/-! ## Refusals -/

/-- The shape of an entry under its outpoint. -/
structure ShapedListed (e : String × Json) : Prop where
  key : isOutpoint e.1.toList = true
  record : isRecord e.2 = true
  status : isOneOf KNOWN_STATUSES (e.2.field "status") = true
  address : isEnabled e.2 = true → Snapshot.isStr (e.2.field "votingaddress") = true

/-- The shape of an entry of the diff. -/
structure ShapedDiffed (m : Json) : Prop where
  hash : Snapshot.isHash (m.field "proRegTxHash") = true
  address : Snapshot.isStr (m.field "votingAddress") = true
  isValid : isBoolean (m.field "isValid") = true

theorem checkListed_eq_ok {e : String × Json} : checkListed e = .ok () ↔ ShapedListed e := by
  simp only [checkListed, Js.bind_eq_ok, require_eq_ok, Bool.or_eq_true, Bool.not_eq_true', exists_const]
  constructor
  · rintro ⟨hk, hr, hs, ha⟩
    exact ⟨hk, hr, hs, fun he => ha.resolve_left fun hf => Bool.false_ne_true (hf.symm.trans he)⟩
  · rintro ⟨hk, hr, hs, ha⟩
    refine ⟨hk, hr, hs, ?_⟩
    cases he : isEnabled e.2 with
    | true => exact Or.inr (ha he)
    | false => exact Or.inl rfl

theorem shaped_of_checkDiffed {m : Json} (h : checkDiffed m = .ok ()) : ShapedDiffed m := by
  simp only [checkDiffed, Js.bind_eq_ok, require_eq_ok] at h
  obtain ⟨-, -, -, -, -, hh, -, ha, hv⟩ := h
  exact ⟨hh, ha, hv⟩

/-- What is not an answer is a refusal. -/
theorem error_of_not_ok {α : Type} {x : Except String α} (h : ∀ a, x ≠ .ok a) : ∃ e, x = .error e := by
  cases x with
  | ok a => exact absurd rfl (h a)
  | error e => exact ⟨e, rfl⟩

theorem not_decodes_zero {bs58check : List Char → Except String (List UInt8)} {a : String}
    (h : votingAddressToLeaf bs58check a = .ok 0) : ¬ Decodes bs58check a := fun ⟨leaf, hl, hne⟩ => by
  rw [h, Except.ok.injEq] at hl
  exact hne hl.symm

/-! ## The two builders -/

theorem leaf_builders (F : Functions) :
    (∀ diff diff', SameAnswers diff diff' → ∀ (depth : Nat) (now : Int) (verifyCommitment : Bool) (header : Option Json)
        (lock : Json), (buildDiffSnapshot F depth now verifyCommitment header lock diff).toOption =
          (buildDiffSnapshot F depth now verifyCommitment header lock diff').toOption) ∧
      (∀ m m' : List (String × Json), (entries m).Perm (entries m') →
        (leavesFromMasternodeList F.hash160 F.bs58check (.obj m)).toOption =
          (leavesFromMasternodeList F.hash160 F.bs58check (.obj m')).toOption) ∧
      (∀ (depth : Nat) (now : Int) (verifyCommitment : Bool) (header : Option Json) (lock diff : Json) (built : Built),
        buildDiffSnapshot F depth now verifyCommitment header lock diff = .ok built →
          ∃ l leaves, diff.field "mnList" = some (.arr l) ∧ built.leaves = leafTexts leaves ∧
            Placed F hashOf diffedAddress (l.filter isDiffed) leaves) ∧
      (∀ (m : List (String × Json)) (leaves : List Nat), leavesFromMasternodeList F.hash160 F.bs58check (.obj m) = .ok leaves →
        Placed F Prod.fst listedAddress ((entries m).filter isListed) leaves) ∧
      (∀ (l : List Json), (∃ m ∈ l, ¬ ShapedDiffed m) ∨ ¬ (l.map hashOf).Nodup ∨
          (∃ m ∈ l, isDiffed m = true ∧ votingAddressToLeaf F.bs58check (diffedAddress m) = .ok 0) →
        ∀ (depth : Nat) (now : Int) (verifyCommitment : Bool) (header : Option Json) (lock diff : Json),
          diff.field "mnList" = some (.arr l) → ∃ e, buildDiffSnapshot F depth now verifyCommitment header lock diff = .error e) ∧
      ∀ (m : List (String × Json)), (∃ e ∈ entries m, ¬ ShapedListed e) ∨
          (∃ e ∈ entries m, isListed e = true ∧ votingAddressToLeaf F.bs58check (listedAddress e) = .ok 0) →
        ∃ e, leavesFromMasternodeList F.hash160 F.bs58check (.obj m) = .error e := by
  refine ⟨fun diff diff' => build_toOption F, fun m m' h => toOption_eq fun _ => ⟨listed_leaves_perm h, listed_leaves_perm h.symm⟩,
    ?_, fun m leaves h => (listed_placed h).1, ?_, ?_⟩
  · intro depth now verifyCommitment header lock diff built h
    obtain ⟨l, leaves, hl, hlist, hvalid, hbuilt⟩ := build_eq_ok h
    exact ⟨l, leaves, hl, hbuilt, (build_placed hlist hvalid).1⟩
  · intro l hbad depth now verifyCommitment header lock diff hl
    refine error_of_not_ok fun built h => ?_
    obtain ⟨k, leaves, hk, hlist, hvalid, -⟩ := build_eq_ok h
    rw [hl] at hk
    cases hk
    obtain ⟨hall, hn, -⟩ := checkMnList_eq_ok.1 hlist
    rcases hbad with ⟨m, hm, hs⟩ | hdup | ⟨m, hm, hv, hz⟩
    · exact hs (shaped_of_checkDiffed (hall m hm))
    · exact hdup hn
    · exact not_decodes_zero hz ((build_placed hlist hvalid).2 m (List.mem_filter.2 ⟨hm, hv⟩))
  · intro m hbad
    refine error_of_not_ok fun leaves h => ?_
    rcases hbad with ⟨e, he, hs⟩ | ⟨e, he, hv, hz⟩
    · exact hs (checkListed_eq_ok.1 ((listed_eq_ok.1 h).1 e he))
    · exact not_decodes_zero hz ((listed_placed h).2 e (List.mem_filter.2 ⟨he, hv⟩))

/-- Functions under which an address stands for its bytes. -/
def toyFunctions : Functions where
  hash160 := id
  bs58check := toy58
  sha256d := fun _ => Digest.zero
  sha256 := id
  poseidon := fun _ _ => 0
  x11 := fun _ => .replicate 32 0

theorem leaf_builders_one : Placed toyFunctions Prod.fst listedAddress ((entries oneListed).filter isListed) [65] :=
  (leaf_builders toyFunctions).2.2.2.1 oneListed [65] oneNode_v2

end DiffSnapshot
