import MnoVerify.PartialTreeSound

/-!
# The list and the block

What `verifyDmlCommitment` accepts under one header. The coinbase hangs at the end of the
left spine of the branch, so branches of one height put one transaction there. A branch
may be shorter than another only if its coinbase reads as an inner node.
-/

namespace DmlCommitment

open Bytes Js
open Snapshot (require require_eq_ok)

variable {sha256d : List UInt8 → Digest}

/-! ## The left spine -/

namespace Visit

variable {n n' h pos : Nat} (sha256d)

/-- The branch goes left at a node whose leftmost leaf is matched. -/
theorem left_of_matched {t : Visit n (h + 1) pos} {m : Matched} (hm : m ∈ t.matched) (hi : m.index = pos * 2 ^ (h + 1)) :
    ∃ (l : Visit n h (pos * 2)) (right : Digest), t.digest sha256d = sha256d ((l.digest sha256d).bytes ++ right.bytes) ∧
      (l.digest sha256d).bytes ++ right.bytes ∈ t.inputs sha256d ∧ (∀ a ∈ l.inputs sha256d, a ∈ t.inputs sha256d) ∧
      m ∈ l.matched ∧ m.index = pos * 2 * 2 ^ h := by
  have hmid := middle h pos
  cases t with
  | stop _ _ hash => cases hm
  | twin _ _ edge l =>
    exact ⟨l, l.digest sha256d, rfl, by simp [inputs], fun a ha => by simp [inputs, ha], hm, by omega⟩
  | fork _ _ inside l r =>
    refine ⟨l, r.digest sha256d, rfl, by simp [inputs], fun a ha => by simp [inputs, ha], ?_, by omega⟩
    rcases List.mem_append.1 hm with hm | hm
    · exact hm
    · have := (r.index_bounds m hm).1
      omega

theorem digest_of_matched {t : Visit n 0 pos} {m : Matched} (hm : m ∈ t.matched) : t.digest sha256d = m.hash := by
  cases t with
  | leaf _ matched hash =>
    cases matched with
    | true => rw [List.mem_singleton.1 hm]; rfl
    | false => cases hm

variable {sha256d} {S : Set (List UInt8)} {m m' : Matched}

/-- Branches of one height and one root have one leftmost leaf. -/
theorem hash_eq_of_root_eq (hS : Set.InjOn sha256d S) : ∀ {h k pos pos' : Nat} {t : Visit n h pos} {u : Visit n' k pos'},
    h = k → (∀ a ∈ t.inputs sha256d, a ∈ S) → (∀ a ∈ u.inputs sha256d, a ∈ S) → t.digest sha256d = u.digest sha256d →
    m ∈ t.matched → m.index = pos * 2 ^ h → m' ∈ u.matched → m'.index = pos' * 2 ^ k → m.hash = m'.hash := by
  intro h
  induction h with
  | zero =>
    rintro _ pos pos' t u rfl _ _ hd hm _ hm' _
    rw [← digest_of_matched sha256d hm, hd, digest_of_matched sha256d hm']
  | succ h ih =>
    rintro _ pos pos' t u rfl it iu hd hm hi hm' hi'
    obtain ⟨l, right, h1, h2, h3, h4, h5⟩ := left_of_matched sha256d hm hi
    obtain ⟨l', right', h1', h2', h3', h4', h5'⟩ := left_of_matched sha256d hm' hi'
    have hin := hS (it _ h2) (iu _ h2') (by rw [← h1, hd, h1'])
    exact ih rfl (fun a ha => it a (h3 a ha)) (fun a ha => iu a (h3' a ha)) (Digest.append_inj hin).1 h4 h5 h4' h5'

/-- The leftmost leaf of the shorter one of two branches with one root is hashed from 64 bytes. -/
theorem length_of_root_eq (hS : Set.InjOn sha256d S) : ∀ {h k pos pos' : Nat} {t : Visit n h pos} {u : Visit n' k pos'},
    h < k → (∀ a ∈ t.inputs sha256d, a ∈ S) → (∀ a ∈ u.inputs sha256d, a ∈ S) → t.digest sha256d = u.digest sha256d →
    m ∈ t.matched → m.index = pos * 2 ^ h → m' ∈ u.matched → m'.index = pos' * 2 ^ k →
    ∀ a ∈ S, sha256d a = m.hash → a.length = 64 := by
  intro h
  induction h with
  | zero =>
    intro k pos pos' t u hk _ iu hd hm _ hm' hi' a ha hma
    obtain ⟨k, rfl⟩ := Nat.exists_eq_succ_of_ne_zero (Nat.pos_iff_ne_zero.1 hk)
    obtain ⟨l', right', h1', h2', _⟩ := left_of_matched sha256d hm' hi'
    have hin := hS ha (iu _ h2') (by rw [hma, ← h1', ← hd, digest_of_matched sha256d hm])
    rw [hin, Digest.length_append]
  | succ h ih =>
    intro k pos pos' t u hk it iu hd hm hi hm' hi'
    obtain ⟨k, rfl⟩ := Nat.exists_eq_succ_of_ne_zero (show k ≠ 0 by omega)
    obtain ⟨l, right, h1, h2, h3, h4, h5⟩ := left_of_matched sha256d hm hi
    obtain ⟨l', right', h1', h2', h3', h4', h5'⟩ := left_of_matched sha256d hm' hi'
    have hin := hS (it _ h2) (iu _ h2') (by rw [← h1, hd, h1'])
    exact ih (Nat.lt_of_succ_lt_succ hk) (fun a ha => it a (h3 a ha)) (fun a ha => iu a (h3' a ha))
      (Digest.append_inj hin).1 h4 h5 h4' h5'

end Visit

/-! ## One header -/

variable {bs58check : List Char → Except String (List UInt8)}

/-- What holds of a response that is accepted. -/
structure Accepts (sha256d : List UInt8 → Digest) (bs58check : List Char → Except String (List UInt8)) (r : DiffResponse)
    (v : Verified) (c : CbTxCommitment) (sml : Digest) (tree : PartialTree) : Prop where
  commitment : cbTxOfBytes (fromHex r.cbTx.toList) = .ok c
  list : smlMerkleRoot bs58check sha256d r.mnList = .ok sml
  committed : displayText sml = c.merkleRootMNList
  branch : partialTreeOfBytes sha256d (fromHex r.cbTxMerkleTree.toList) = .ok tree
  coinbase : ⟨sha256d (fromHex r.cbTx.toList), 0⟩ ∈ tree.matched
  header : headerRootOfBytes (fromHex r.blockHeader.toList) = .ok tree.root
  height : v.height = c.height
  transactions : v.transactionsInBlock = tree.nTransactions

theorem verifyDmlCommitment_ok {r : DiffResponse} {v : Verified} (h : verifyDmlCommitment sha256d bs58check r = .ok v) :
    ∃ c sml tree, Accepts sha256d bs58check r v c sml tree := by
  unfold verifyDmlCommitment verifyDmlBytes at h
  obtain ⟨c, h1, h⟩ := bind_eq_ok.1 h
  obtain ⟨sml, h2, h⟩ := bind_eq_ok.1 h
  obtain ⟨_, h3, h⟩ := bind_eq_ok.1 h
  obtain ⟨tree, h4, h⟩ := bind_eq_ok.1 h
  split at h
  · next m hfind =>
    obtain ⟨_, h5, h⟩ := bind_eq_ok.1 h
    obtain ⟨inHeader, h6, h⟩ := bind_eq_ok.1 h
    obtain ⟨_, h7, h⟩ := bind_eq_ok.1 h
    cases h
    simp only [require_eq_ok, decide_eq_true_eq] at h3 h5 h7
    have hm : m = ⟨sha256d (fromHex r.cbTx.toList), 0⟩ := by
      have hmh := List.find?_some hfind
      cases m
      simp_all
    exact ⟨c, sml, tree, h1, h2, h3, h4, hm ▸ List.mem_of_find?_eq_some hfind, h7 ▸ h6, rfl, rfl⟩
  · cases h

/-- What the partial tree of a response hashes. -/
def treeHashed (sha256d : List UInt8 → Digest) (hex : String) : List (List UInt8) :=
  match partialMerkleTree sha256d hex with
  | .ok tree => tree.hashed
  | .error _ => []

/-- What `verifyDmlCommitment` hashes for a response it accepts. -/
def dmlHashed (sha256d : List UInt8 → Digest) (bs58check : List Char → Except String (List UInt8)) (r : DiffResponse) :
    List (List UInt8) :=
  fromHex r.cbTx.toList :: (smlHashed bs58check sha256d r.mnList ++ treeHashed sha256d r.cbTxMerkleTree)

/-- The coinbase could be an inner node of the deeper branch that the other response carries. -/
def ReadsAsNode (r : DiffResponse) (v v' : Verified) : Prop :=
  treeHeight v.transactionsInBlock < treeHeight v'.transactionsInBlock ∧ (fromHex r.cbTx.toList).length = 64

theorem displayText_inj {a b : Digest} (h : displayText a = displayText b) : a = b := by
  have := List.reverse_injective (toHex_inj h)
  cases a; cases b; simpa using this

/-- Under one header, one list and one height, unless hashes collide or the coinbase of the shorter branch has the
length of an inner node. -/
theorem verifyDmlCommitment_binds {r r' : DiffResponse} {v v' : Verified}
    (hb : fromHex r.blockHeader.toList = fromHex r'.blockHeader.toList)
    (h : verifyDmlCommitment sha256d bs58check r = .ok v) (h' : verifyDmlCommitment sha256d bs58check r' = .ok v') :
    (SameEntries bs58check r.mnList r'.mnList ∧ v.height = v'.height) ∨
    HashTree.Collides sha256d (dmlHashed sha256d bs58check r ++ dmlHashed sha256d bs58check r') ∨
    (∃ a ∈ dmlHashed sha256d bs58check r ++ dmlHashed sha256d bs58check r', sha256d a = Digest.zero) ∨
    ReadsAsNode r v v' ∨ ReadsAsNode r' v' v := by
  by_cases hc : HashTree.Collides sha256d (dmlHashed sha256d bs58check r ++ dmlHashed sha256d bs58check r')
  · exact Or.inr (Or.inl hc)
  by_cases h0 : ∃ a ∈ dmlHashed sha256d bs58check r ++ dmlHashed sha256d bs58check r', sha256d a = Digest.zero
  · exact Or.inr (Or.inr (Or.inl h0))
  have hS := HashTree.injOn_of_not_collides sha256d hc
  obtain ⟨c, sml, tree, ha⟩ := verifyDmlCommitment_ok h
  obtain ⟨c', sml', tree', ha'⟩ := verifyDmlCommitment_ok h'
  obtain ⟨p, t, hp⟩ := partialTreeOfBytes_ok ha.branch
  obtain ⟨p', t', hp'⟩ := partialTreeOfBytes_ok ha'.branch
  have hroot : tree.root = tree'.root := by
    have := ha.header
    rw [hb, ha'.header] at this
    exact (Except.ok.inj this).symm
  have hm := ha.coinbase
  have hm' := ha'.coinbase
  have hth : treeHashed sha256d r.cbTxMerkleTree = t.inputs sha256d := by
    rw [treeHashed, partialMerkleTree, ha.branch, hp.result]
  have hth' : treeHashed sha256d r'.cbTxMerkleTree = t'.inputs sha256d := by
    rw [treeHashed, partialMerkleTree, ha'.branch, hp'.result]
  have it : ∀ a ∈ t.inputs sha256d, a ∈ {a | a ∈ dmlHashed sha256d bs58check r ++ dmlHashed sha256d bs58check r'} := by
    intro a ha
    simp [dmlHashed, hth, ha]
  have it' : ∀ a ∈ t'.inputs sha256d, a ∈ {a | a ∈ dmlHashed sha256d bs58check r ++ dmlHashed sha256d bs58check r'} := by
    intro a ha
    simp [dmlHashed, hth', ha]
  have hv : v.transactionsInBlock = p.nTransactions := by rw [ha.transactions, hp.result]
  have hv' : v'.transactionsInBlock = p'.nTransactions := by rw [ha'.transactions, hp'.result]
  have hcb : fromHex r.cbTx.toList ∈ {a | a ∈ dmlHashed sha256d bs58check r ++ dmlHashed sha256d bs58check r'} := by
    simp [dmlHashed]
  have hcb' : fromHex r'.cbTx.toList ∈ {a | a ∈ dmlHashed sha256d bs58check r ++ dmlHashed sha256d bs58check r'} := by
    simp [dmlHashed]
  rw [hp.result] at hm hroot
  rw [hp'.result] at hm' hroot
  simp only at hm hm' hroot
  rcases Nat.lt_trichotomy (treeHeight p.nTransactions) (treeHeight p'.nTransactions) with hlt | heq | hlt
  · refine Or.inr (Or.inr (Or.inr (Or.inl ⟨by rw [hv, hv']; exact hlt, ?_⟩)))
    exact Visit.length_of_root_eq hS hlt it it' hroot hm (by simp) hm' (by simp) _ hcb rfl
  · -- one height: the two coinbases are one transaction
    have hid : sha256d (fromHex r.cbTx.toList) = sha256d (fromHex r'.cbTx.toList) :=
      Visit.hash_eq_of_root_eq hS heq it it' hroot hm (by simp) hm' (by simp)
    have hcc : c = c' := by
      have := ha.commitment
      rw [hS hcb hcb' hid, ha'.commitment] at this
      exact (Except.ok.inj this).symm
    have hsml : sml = sml' := displayText_inj (by rw [ha.committed, ha'.committed, hcc])
    refine Or.inl ⟨sameEntries_of_root_eq hS (fun a ha ha0 => h0 ⟨a, ha, ha0⟩) ?_ ?_ ha.list (hsml ▸ ha'.list),
      by rw [ha.height, ha'.height, hcc]⟩
    · intro a ha
      simp [dmlHashed, ha]
    · intro a ha
      simp [dmlHashed, ha]
  · refine Or.inr (Or.inr (Or.inr (Or.inr ⟨by rw [hv, hv']; exact hlt, ?_⟩)))
    exact Visit.length_of_root_eq hS hlt it' it hroot.symm hm' (by simp) hm (by simp) _ hcb' rfl

/-! ## A coinbase that is an inner node -/

/-- The 64 bytes that one response has as its coinbase and the other hashes as an inner node: a coinbase at height 1
without inputs and outputs, whose payload goes on after the fields that are read. -/
def nodeTx : List UInt8 := [3, 0, 5, 0, 0, 0, 0, 0, 0, 0, 53, 1, 0, 1, 0, 0, 0] ++ List.replicate 47 0

/-- A coinbase at height 2. -/
def shortTx : List UInt8 := [3, 0, 5, 0, 0, 0, 0, 0, 0, 0, 38, 1, 0, 2, 0, 0, 0] ++ List.replicate 32 0

/-- A hash under which the id of `shortTx` is the first half of `nodeTx`. -/
def nodeHash (bytes : List UInt8) : Digest :=
  if bytes = shortTx then ⟨nodeTx.take 32, rfl⟩ else ⟨List.replicate 32 0xaa, rfl⟩

def nodeHeader : List UInt8 := List.replicate 36 0 ++ List.replicate 32 0xaa ++ List.replicate 12 0

/-- One transaction, matched. -/
def shallow : DiffResponse :=
  ⟨[], hexText nodeTx, hexText ([1, 0, 0, 0, 1] ++ List.replicate 32 0xaa ++ [1, 1]), hexText nodeHeader⟩

/-- Two transactions, the first one matched. -/
def deep : DiffResponse :=
  ⟨[], hexText shortTx, hexText ([2, 0, 0, 0, 2] ++ nodeTx ++ [1, 3]), hexText nodeHeader⟩

def noAddress (_ : List Char) : Except String (List UInt8) := .error "Non-base58 character"

def emptyRoot : List Char := List.replicate 64 '0'

theorem verify_shallow : verifyDmlCommitment nodeHash noAddress shallow = .ok ⟨emptyRoot, 1, 1, 0, 1, false⟩ := by
  rw [verifyDmlCommitment, shallow]
  simp only [fromHex_hexText]
  decide +kernel

theorem verify_deep : verifyDmlCommitment nodeHash noAddress deep = .ok ⟨emptyRoot, 2, 1, 0, 2, false⟩ := by
  rw [verifyDmlCommitment, deep]
  simp only [fromHex_hexText]
  decide +kernel

theorem dmlHashed_hexText (tx tree header : List UInt8) : dmlHashed sha256d bs58check ⟨[], hexText tx, hexText tree, hexText header⟩ =
    tx :: (smlHashed bs58check sha256d [] ++
      match partialTreeOfBytes sha256d tree with
      | .ok tree => tree.hashed
      | .error _ => []) := by
  simp only [dmlHashed, treeHashed, partialMerkleTree, fromHex_hexText]

theorem dmlHashed_nodes : dmlHashed nodeHash noAddress shallow ++ dmlHashed nodeHash noAddress deep =
    [nodeTx, shortTx, nodeTx] := by
  have hshallow : dmlHashed nodeHash noAddress shallow = [nodeTx] := by
    refine (dmlHashed_hexText _ _ _).trans ?_
    decide +kernel
  have hdeep : dmlHashed nodeHash noAddress deep = [shortTx, nodeTx] := by
    refine (dmlHashed_hexText _ _ _).trans ?_
    decide +kernel
  rw [hshallow, hdeep]
  rfl

theorem one_header_two_heights : ∃ v v', verifyDmlCommitment nodeHash noAddress shallow = .ok v ∧
    verifyDmlCommitment nodeHash noAddress deep = .ok v' ∧ shallow.blockHeader = deep.blockHeader ∧ v.height ≠ v'.height ∧
    ¬ HashTree.Collides nodeHash (dmlHashed nodeHash noAddress shallow ++ dmlHashed nodeHash noAddress deep) ∧
    ¬ ∃ a ∈ dmlHashed nodeHash noAddress shallow ++ dmlHashed nodeHash noAddress deep, nodeHash a = Digest.zero := by
  rw [dmlHashed_nodes]
  refine ⟨_, _, verify_shallow, verify_deep, rfl, by decide, ?_, ?_⟩
  · have hne : nodeHash nodeTx ≠ nodeHash shortTx := by decide +kernel
    rintro ⟨a, ha, b, hb, hab, h⟩
    simp only [List.mem_cons, List.not_mem_nil, or_false] at ha hb
    rcases ha with rfl | rfl | rfl <;> rcases hb with rfl | rfl | rfl
    all_goals first | exact hab rfl | exact hne h | exact hne h.symm
  · have hz : ∀ a ∈ [nodeTx, shortTx, nodeTx], nodeHash a ≠ Digest.zero := by decide +kernel
    rintro ⟨a, ha, h⟩
    exact hz a ha h

theorem verifyDmlCommitment_binds_node :
    (SameEntries noAddress shallow.mnList deep.mnList ∧ (1 : Nat) = 2) ∨
    HashTree.Collides nodeHash (dmlHashed nodeHash noAddress shallow ++ dmlHashed nodeHash noAddress deep) ∨
    (∃ a ∈ dmlHashed nodeHash noAddress shallow ++ dmlHashed nodeHash noAddress deep, nodeHash a = Digest.zero) ∨
    ReadsAsNode shallow ⟨emptyRoot, 1, 1, 0, 1, false⟩ ⟨emptyRoot, 2, 1, 0, 2, false⟩ ∨
    ReadsAsNode deep ⟨emptyRoot, 2, 1, 0, 2, false⟩ ⟨emptyRoot, 1, 1, 0, 1, false⟩ :=
  verifyDmlCommitment_binds (by rw [shallow, deep]) verify_shallow verify_deep

end DmlCommitment
