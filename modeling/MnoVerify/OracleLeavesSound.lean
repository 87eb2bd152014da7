import MnoVerify.OracleLeaves
import MnoVerify.RefreshSound

/-!
# The changeover between the two reads

`changeover`: the commitment to a leaf list says the list up to its order; the two reads of one masternode set give
leaf lists that differ in their order only; so either may join the other at its height, and no other set may.
-/

namespace OracleLeaves

open Snapshot (leafSetCommitment leafLe)
open RootWindow (Record mayCoexist)

/-! ## The commitment -/

theorem leafLe_iff {a b : List Char} : leafLe a b = true ↔ a.length < b.length ∨ a.length = b.length ∧ a ≤ b := by
  simp [leafLe]

theorem leafLe_trans (a b c : List Char) (hab : leafLe a b = true) (hbc : leafLe b c = true) : leafLe a c = true := by
  rw [leafLe_iff] at *
  rcases hab with hab | ⟨hl, hab⟩
  · rcases hbc with hbc | ⟨hl', -⟩
    · exact .inl (by omega)
    · exact .inl (by omega)
  · rcases hbc with hbc | ⟨hl', hbc⟩
    · exact .inl (by omega)
    · exact .inr ⟨hl.trans hl', le_trans hab hbc⟩

theorem leafLe_total (a b : List Char) : (leafLe a b || leafLe b a) = true := by
  rw [Bool.or_eq_true, leafLe_iff, leafLe_iff]
  rcases Nat.lt_trichotomy a.length b.length with h | h | h
  · exact .inl (.inl h)
  · rcases le_total a b with hab | hba
    · exact .inl (.inr ⟨h, hab⟩)
    · exact .inr (.inr ⟨h.symm, hba⟩)
  · exact .inr (.inl h)

theorem leafLe_antisymm {a b : List Char} (hab : leafLe a b = true) (hba : leafLe b a = true) : a = b := by
  rw [leafLe_iff] at hab hba
  rcases hab with hab | ⟨hl, hab⟩
  · rcases hba with hba | ⟨hl, -⟩ <;> omega
  · rcases hba with hba | ⟨-, hba⟩
    · omega
    · exact le_antisymm hab hba

/-- A multiset has one sorted list. -/
theorem mergeSort_eq_of_perm {xs ys : List (List Char)} (h : xs.Perm ys) : xs.mergeSort leafLe = ys.mergeSort leafLe := by
  apply List.Perm.eq_of_pairwise (fun a b _ _ => leafLe_antisymm)
  · exact List.pairwise_mergeSort leafLe_trans leafLe_total xs
  · exact List.pairwise_mergeSort leafLe_trans leafLe_total ys
  · exact ((List.mergeSort_perm xs _).trans h).trans (List.mergeSort_perm ys _).symm

theorem commitment_eq_of_perm (sha256 : List UInt8 → List UInt8) {xs ys : List (List Char)} (h : xs.Perm ys) :
    leafSetCommitment sha256 xs = leafSetCommitment sha256 ys := by
  rw [leafSetCommitment, leafSetCommitment, mergeSort_eq_of_perm h]

def Canonical (leaves : List (List Char)) : Prop := ∀ l ∈ leaves, Field.isCanonical l = true

/-- SHA-256 does not collide on the two sets. -/
def NoCollision (sha256 : List UInt8 → List UInt8) (xs ys : List (List Char)) : Prop :=
  sha256 (Refresh.setBytes xs) = sha256 (Refresh.setBytes ys) → Refresh.setBytes xs = Refresh.setBytes ys

theorem commitment_eq_iff {sha256 : List UInt8 → List UInt8} {xs ys : List (List Char)} (hx : Canonical xs)
    (hy : Canonical ys) (hc : NoCollision sha256 xs ys) :
    leafSetCommitment sha256 xs = leafSetCommitment sha256 ys ↔ xs.Perm ys := by
  constructor
  · intro h
    rw [leafSetCommitment, leafSetCommitment, Refresh.hexOf_eq_toHex, Refresh.hexOf_eq_toHex] at h
    exact Refresh.perm_of_setBytes_eq hx hy (hc (Bytes.toHex_inj h))
  · exact commitment_eq_of_perm sha256

/-! ## The leaves of a list of addresses -/

section
variable {hash160 : List UInt8 → List UInt8} {bs58check : List Char → Except String (List UInt8)}

/-- The leaf of an address that decodes. -/
def leafOf (bs58check : List Char → Except String (List UInt8)) (address : String) : Nat :=
  match votingAddressToLeaf bs58check address with
  | .ok leaf => leaf
  | .error _ => 0

def Decodes (bs58check : List Char → Except String (List UInt8)) (address : String) : Prop :=
  ∃ leaf, votingAddressToLeaf bs58check address = .ok leaf ∧ leaf ≠ 0

/-- What the loop counts of the addresses. -/
def counted (hash160 : List UInt8 → List UInt8) (bs58check : List Char → Except String (List UInt8))
    (addresses : List String) : List Nat :=
  (addresses.map (leafOf bs58check)).filter fun leaf => decide (leaf ≠ KEY_ZERO_LEAF hash160)

theorem realLeaves_ok {source : String} : ∀ {nodes : List (String × String)} {leaves : List Nat},
    realLeaves hash160 bs58check source nodes = .ok leaves ↔
      (∀ a ∈ nodes.map Prod.snd, Decodes bs58check a) ∧ leaves = counted hash160 bs58check (nodes.map Prod.snd) := by
  intro nodes
  induction nodes with
  | nil =>
    intro leaves
    rw [realLeaves]
    constructor
    · intro h
      cases h
      exact ⟨nofun, rfl⟩
    · rintro ⟨-, rfl⟩
      rfl
  | cons node nodes ih =>
    obtain ⟨name, address⟩ := node
    intro leaves
    simp only [realLeaves, Js.bind_eq_ok, Snapshot.require_eq_ok, decide_eq_true_eq, ih, List.map_cons, List.mem_cons,
      forall_eq_or_imp]
    constructor
    · rintro ⟨leaf, hleaf, -, hne, rest, ⟨hall, rfl⟩, h⟩
      cases h
      refine ⟨⟨⟨leaf, hleaf, hne⟩, hall⟩, ?_⟩
      by_cases hk : leaf = KEY_ZERO_LEAF hash160 <;> simp [counted, leafOf, hleaf, hk]
    · rintro ⟨⟨⟨leaf, hleaf, hne⟩, hall⟩, rfl⟩
      refine ⟨leaf, hleaf, (), hne, _, ⟨hall, rfl⟩, ?_⟩
      by_cases hk : leaf = KEY_ZERO_LEAF hash160
      · simp [counted, leafOf, hleaf, hk]
        rfl
      · simp [counted, leafOf, hleaf, hk]
        rfl

theorem byName_perm (nodes : List (String × String)) : (byName nodes).Perm nodes := List.mergeSort_perm ..

/-- The loop depends on the addresses as a multiset. -/
theorem realLeaves_byName {source : String} {nodes : List (String × String)} {addresses : List String} {leaves : List Nat}
    (h : (nodes.map Prod.snd).Perm addresses) (hok : realLeaves hash160 bs58check source (byName nodes) = .ok leaves) :
    (∀ a ∈ addresses, Decodes bs58check a) ∧ leaves.Perm (counted hash160 bs58check addresses) := by
  obtain ⟨hall, rfl⟩ := realLeaves_ok.1 hok
  have hperm := ((byName_perm nodes).map Prod.snd).trans h
  exact ⟨fun a ha => hall a (hperm.mem_iff.2 ha), (hperm.map _).filter _⟩

theorem realLeaves_exists {source : String} {nodes : List (String × String)} {addresses : List String}
    (h : (nodes.map Prod.snd).Perm addresses) (hall : ∀ a ∈ addresses, Decodes bs58check a) :
    ∃ leaves, realLeaves hash160 bs58check source (byName nodes) = .ok leaves := by
  have hperm := ((byName_perm nodes).map Prod.snd).trans h
  exact ⟨_, realLeaves_ok.2 ⟨fun a ha => hall a (hperm.mem_iff.1 ha), rfl⟩⟩

end

/-! ## One masternode set, given twice -/

structure Masternode where
  outpoint : String
  proRegTxHash : String
  votingAddress : String
  isValid : Bool

/-- The entry of a masternode in the list by outpoint: `ENABLED` exactly if it is valid, and then with its address. -/
structure Listed (mn : Masternode) (e : String × Json) : Prop where
  key : e.1 = mn.outpoint
  status : isEnabled e.2 = true ↔ mn.isValid = true
  address : mn.isValid = true → e.2.field "votingaddress" = some (.str mn.votingAddress)

/-- Its entry in the list by registration. -/
structure Diffed (mn : Masternode) (m : Json) : Prop where
  hash : m.field "proRegTxHash" = some (.str mn.proRegTxHash)
  isValid : m.field "isValid" = some (.bool mn.isValid)
  address : mn.isValid = true → m.field "votingAddress" = some (.str mn.votingAddress)

/-- Both lists are of the masternodes, each in an order of its own. -/
def SameSet (mns : List Masternode) (m : List (String × Json)) (mnList : List Json) : Prop :=
  (∃ es, es.Perm (entries m) ∧ List.Forall₂ Listed mns es) ∧ ∃ ds, ds.Perm mnList ∧ List.Forall₂ Diffed mns ds

/-- The addresses that count. -/
def addressesOf (mns : List Masternode) : List String := (mns.filter fun mn => mn.isValid).map fun mn => mn.votingAddress

theorem addresses_listed {mns : List Masternode} {es : List (String × Json)} (h : List.Forall₂ Listed mns es) :
    ((es.filter fun e => isEnabled e.2).map fun e => Snapshot.textOf (e.2.field "votingaddress")) = addressesOf mns := by
  induction h with
  | nil => rfl
  | @cons mn e mns es he _ ih =>
    unfold addressesOf at ih ⊢
    by_cases hv : mn.isValid = true
    · rw [List.filter_cons, List.filter_cons, if_pos (he.status.2 hv), if_pos hv, List.map_cons, List.map_cons, ih,
        he.address hv]
      simp [Snapshot.textOf, Json.textOf, Json.toStr]
    · rw [List.filter_cons, List.filter_cons, if_neg (fun h => hv (he.status.1 h)), if_neg hv, ih]

theorem addresses_diffed {mns : List Masternode} {ds : List Json} (h : List.Forall₂ Diffed mns ds) :
    ((ds.filter fun m => Snapshot.isTrue (m.field "isValid")).map fun m => Snapshot.textOf (m.field "votingAddress")) =
      addressesOf mns := by
  induction h with
  | nil => rfl
  | @cons mn m mns ds hm _ ih =>
    unfold addressesOf at ih ⊢
    have hvalid : Snapshot.isTrue (m.field "isValid") = mn.isValid := by
      rw [hm.isValid]
      cases mn.isValid <;> rfl
    by_cases hv : mn.isValid = true
    · rw [List.filter_cons, List.filter_cons, if_pos (hvalid.trans hv), if_pos hv, List.map_cons, List.map_cons, ih,
        hm.address hv]
      simp [Snapshot.textOf, Json.textOf, Json.toStr]
    · rw [List.filter_cons, List.filter_cons, if_neg (by rw [hvalid]; exact hv), if_neg hv, ih]

/-! ## The two lists of leaves -/

section
variable {hash160 : List UInt8 → List UInt8} {bs58check : List Char → Except String (List UInt8)}

theorem listed_perm {mns : List Masternode} {m : List (String × Json)} {es : List (String × Json)}
    (hperm : es.Perm (entries m)) (h : List.Forall₂ Listed mns es) :
    ((((entries m).filter fun e => isEnabled e.2).map fun e => (e.1, Snapshot.textOf (e.2.field "votingaddress"))).map
      Prod.snd).Perm (addressesOf mns) := by
  rw [List.map_map, ← addresses_listed h]
  exact ((hperm.filter _).map _).symm

theorem diffed_perm {mns : List Masternode} {mnList ds : List Json} (hperm : ds.Perm mnList)
    (h : List.Forall₂ Diffed mns ds) :
    (((mnList.filter fun m => Snapshot.isTrue (m.field "isValid")).map fun m =>
      (hashOf m, Snapshot.textOf (m.field "votingAddress"))).map Prod.snd).Perm (addressesOf mns) := by
  rw [List.map_map, ← addresses_diffed h]
  exact ((hperm.filter _).map _).symm

/-- What the first read counts. -/
theorem v2_leaves {mns : List Masternode} {m : List (String × Json)} {mnList : List Json} (h : SameSet mns m mnList)
    {v2 : List Nat} (hok : leavesFromMasternodeList hash160 bs58check (.obj m) = .ok v2) :
    (∀ a ∈ addressesOf mns, Decodes bs58check a) ∧ v2.Perm (counted hash160 bs58check (addressesOf mns)) := by
  obtain ⟨⟨es, hperm, hes⟩, -⟩ := h
  simp only [leavesFromMasternodeList, Js.bind_eq_ok] at hok
  obtain ⟨-, -, hok⟩ := hok
  exact realLeaves_byName (listed_perm hperm hes) hok

/-- What the second read counts. -/
theorem v3_leaves {mns : List Masternode} {m : List (String × Json)} {mnList : List Json} (h : SameSet mns m mnList)
    {v3 : List Nat} (hok : validLeaves hash160 bs58check mnList = .ok v3) :
    (∀ a ∈ addressesOf mns, Decodes bs58check a) ∧ v3.Perm (counted hash160 bs58check (addressesOf mns)) := by
  obtain ⟨-, ds, hperm, hds⟩ := h
  exact realLeaves_byName (diffed_perm hperm hds) hok

theorem diffLeaves_ok {commitment : List Json → Except String Unit} {lock diff : Json} {mnList : List Json} {v3 : List Nat}
    (hlist : diff.field "mnList" = some (.arr mnList))
    (hok : diffLeaves hash160 bs58check commitment lock diff = .ok v3) :
    validLeaves hash160 bs58check mnList = .ok v3 := by
  simp only [diffLeaves, boundList, Js.bind_eq_ok] at hok
  obtain ⟨-, -, mnList', ⟨-, -, -, -, hmn⟩, -, -, -, -, hok⟩ := hok
  rw [hlist] at hmn
  cases hmn
  exact hok

/-- Of one set whose entries pass the checks, the two reads give leaves or refuse together. -/
theorem reads_agree {mns : List Masternode} {m : List (String × Json)} {mnList : List Json} (h : SameSet mns m mnList)
    (hchecks : checkAll checkListed (entries m) = .ok ()) :
    (∃ v2, leavesFromMasternodeList hash160 bs58check (.obj m) = .ok v2) ↔
      ∃ v3, validLeaves hash160 bs58check mnList = .ok v3 := by
  constructor
  · rintro ⟨v2, hv2⟩
    have hall := (v2_leaves h hv2).1
    obtain ⟨-, ds, hperm, hds⟩ := h
    exact realLeaves_exists (diffed_perm hperm hds) hall
  · rintro ⟨v3, hv3⟩
    have hall := (v3_leaves h hv3).1
    obtain ⟨⟨es, hperm, hes⟩, -⟩ := h
    obtain ⟨v2, hv2⟩ := @realLeaves_exists hash160 bs58check "masternode list" _ _ (listed_perm hperm hes) hall
    refine ⟨v2, ?_⟩
    simp only [leavesFromMasternodeList, Js.bind_eq_ok]
    exact ⟨(), hchecks, hv2⟩

end

/-! ## The changeover -/

/-- The commitment to a read's leaves. -/
def commit (sha256 : List UInt8 → List UInt8) (leaves : List Nat) : List Char := leafSetCommitment sha256 (leafTexts leaves)

/-- The records at the height name the block, and one of two commitments. -/
def AtHeight (snaps : List Record) (height : Int) (blockHash c c' : List Char) : Prop :=
  ∀ s ∈ snaps, s.height = height → s.blockHash = some blockHash ∧ (s.setCommitment = some c ∨ s.setCommitment = some c')

theorem mayCoexist_of_eq {snaps : List Record} {height : Int} {blockHash c c' : List Char} (heq : c = c')
    (h : AtHeight snaps height blockHash c c') :
    mayCoexist snaps height (some blockHash) (some c) = true ∧ mayCoexist snaps height (some blockHash) (some c') = true := by
  subst heq
  have hco : mayCoexist snaps height (some blockHash) (some c) = true := by
    rw [RootWindow.mayCoexist_iff]
    intro s hs hh
    obtain ⟨hb, hc⟩ := h s hs hh
    rw [or_self] at hc
    rw [hb, hc]
    exact ⟨⟨rfl, rfl⟩, rfl, rfl⟩
  exact ⟨hco, hco⟩

/-- The commitment tells multisets apart, the two reads of one set may stand beside one another, and no other set may. -/
theorem changeover (hash160 : List UInt8 → List UInt8) (bs58check : List Char → Except String (List UInt8))
    (sha256 : List UInt8 → List UInt8) :
    (∀ xs ys, Canonical xs → Canonical ys → NoCollision sha256 xs ys →
      (leafSetCommitment sha256 xs = leafSetCommitment sha256 ys ↔ xs.Perm ys)) ∧
    (∀ mns m mnList commitment lock diff v2 v3, SameSet mns m mnList → diff.field "mnList" = some (.arr mnList) →
      leavesFromMasternodeList hash160 bs58check (.obj m) = .ok v2 →
      diffLeaves hash160 bs58check commitment lock diff = .ok v3 →
      v2.Perm v3 ∧ ∀ snaps height blockHash, AtHeight snaps height blockHash (commit sha256 v2) (commit sha256 v3) →
        mayCoexist snaps height (some blockHash) (some (commit sha256 v2)) = true ∧
          mayCoexist snaps height (some blockHash) (some (commit sha256 v3)) = true) ∧
    ∀ snaps height blockHash xs ys, Canonical xs → Canonical ys → NoCollision sha256 xs ys → ¬ xs.Perm ys →
      (∃ s ∈ snaps, s.height = height ∧ s.setCommitment = some (leafSetCommitment sha256 xs)) →
        mayCoexist snaps height blockHash (some (leafSetCommitment sha256 ys)) = false := by
  refine ⟨fun xs ys hx hy hc => commitment_eq_iff hx hy hc, ?_, ?_⟩
  · intro mns m mnList commitment lock diff v2 v3 hset hlist hv2 hv3
    have hperm : v2.Perm v3 := (v2_leaves hset hv2).2.trans (v3_leaves hset (diffLeaves_ok hlist hv3)).2.symm
    refine ⟨hperm, fun snaps height blockHash hat => ?_⟩
    exact mayCoexist_of_eq (commitment_eq_of_perm sha256 (hperm.map _)) hat
  · rintro snaps height blockHash xs ys hx hy hc hne ⟨s, hs, hh, hset⟩
    rw [← Bool.not_eq_true, RootWindow.mayCoexist_iff]
    intro h
    obtain ⟨-, -, heq⟩ := h s hs hh
    rw [hset, Option.some.injEq, commitment_eq_iff hx hy hc] at heq
    exact hne heq

/-! ## One masternode -/

def zeroHash : String := String.ofList (List.replicate 64 '0')

def oneNode : Masternode := ⟨String.ofList (List.replicate 64 '0' ++ ['-', '1']), zeroHash, "A", true⟩

def oneListed : List (String × Json) :=
  [(oneNode.outpoint, .obj [("status", .str "ENABLED"), ("votingaddress", .str "A")])]

def oneDiffed : List Json := [.obj [("proRegTxHash", .str zeroHash), ("votingAddress", .str "A"), ("isValid", .bool true)]]

def oneLock : Json := .obj [("blockhash", .str zeroHash), ("height", .num (.ofNat 5)), ("known_block", .bool true)]

def oneDiff : Json := .obj [("blockHash", .str zeroHash), ("mnList", .arr oneDiffed)]

/-- A decoder to evaluate with: a version byte, and the character's code. -/
def toy58 (s : List Char) : Except String (List UInt8) := .ok (0 :: s.map fun c => UInt8.ofNat c.toNat)

theorem oneNode_sameSet : SameSet [oneNode] oneListed oneDiffed := by
  refine ⟨⟨oneListed, .refl _, .cons ⟨rfl, ?_, fun _ => rfl⟩ .nil⟩, oneDiffed, .refl _, .cons ⟨rfl, rfl, fun _ => rfl⟩ .nil⟩
  decide

theorem byName_singleton (node : String × String) : byName [node] = [node] := List.mergeSort_singleton _

theorem oneNode_v2 : leavesFromMasternodeList id toy58 (.obj oneListed) = .ok [65] := by
  have hnodes : ((entries oneListed).filter fun e => isEnabled e.2).map (fun e =>
      (e.1, Snapshot.textOf (e.2.field "votingaddress"))) = [(oneNode.outpoint, "A")] := by decide +kernel
  have hchecks : checkAll checkListed (entries oneListed) = .ok () := by decide +kernel
  simp only [leavesFromMasternodeList, Js.bind_eq_ok]
  refine ⟨(), hchecks, ?_⟩
  rw [hnodes, byName_singleton]
  decide +kernel

theorem oneNode_v3 : diffLeaves id toy58 (fun _ => .ok ()) oneLock oneDiff = .ok [65] := by
  have hnodes : (oneDiffed.filter fun m => Snapshot.isTrue (m.field "isValid")).map (fun m =>
      (hashOf m, Snapshot.textOf (m.field "votingAddress"))) = [(zeroHash, "A")] := by decide +kernel
  have hlock : checkLock oneLock = .ok () := by decide +kernel
  have hlist : checkMnList oneDiffed [] = .ok () := by decide +kernel
  simp only [diffLeaves, Js.bind_eq_ok]
  refine ⟨(), hlock, oneDiffed, ?_, (), hlist, (), trivial, ?_⟩
  · rw [boundList]
    rfl
  · rw [validLeaves, hnodes, byName_singleton]
    decide +kernel

/-- A record at height 5 of the one leaf. -/
def oneRecord : Record where
  height := 5
  root := []
  shaRoot := none
  ts := .nan
  order := none
  blockHash := some zeroHash.toList
  setCommitment := some (commit id [65])
  snapshot := none

theorem changeover_one : ([65] : List Nat).Perm [65] ∧
    mayCoexist [oneRecord] 5 (some zeroHash.toList) (some (commit id [65])) = true ∧
    mayCoexist [oneRecord] 5 (some zeroHash.toList) (some (commit id [66])) = false ∧
    (leafSetCommitment id [['6', '5']] = leafSetCommitment id [['6', '5']] ↔ [['6', '5']].Perm [['6', '5']]) := by
  obtain ⟨hset, hreads, hrefuse⟩ := changeover id toy58 id
  obtain ⟨hperm, hco⟩ := hreads [oneNode] oneListed oneDiffed (fun _ => .ok ()) oneLock oneDiff [65] [65] oneNode_sameSet rfl
    oneNode_v2 oneNode_v3
  have hcanon : Canonical (leafTexts [65]) := fun l hl => by rw [List.mem_singleton.1 hl]; decide
  have hcanon' : Canonical (leafTexts [66]) := fun l hl => by rw [List.mem_singleton.1 hl]; decide
  have hne : ¬ (leafTexts [65]).Perm (leafTexts [66]) := by decide
  have hat : AtHeight [oneRecord] 5 zeroHash.toList (commit id [65]) (commit id [65]) := by
    intro s hs _
    rw [List.mem_singleton.1 hs]
    exact ⟨rfl, .inl rfl⟩
  exact ⟨hperm, (hco [oneRecord] 5 zeroHash.toList hat).1,
    hrefuse [oneRecord] 5 _ _ _ hcanon hcanon' (fun h => h) hne ⟨oneRecord, List.mem_singleton_self _, rfl, rfl⟩,
    hset _ _ hcanon hcanon fun h => h⟩

end OracleLeaves
