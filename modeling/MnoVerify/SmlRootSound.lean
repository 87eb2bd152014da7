import MnoVerify.DmlCommitment
import MnoVerify.SnapshotSound
import Mathlib.Data.List.Chain
import Mathlib.Data.List.Perm.Basic

/-!
# The root of the masternode list

The root does not depend on the order of the list, and it determines the set of
serialized entries up to a collision. The odd levels repeat a node, which changes the
tree and not its set of leaves; no entry has the 64 bytes of an inner node.
-/

namespace DmlCommitment

open Bytes Js
open Snapshot (require require_eq_ok)

/-! ## Entries -/

theorem fixedHex_length {v : Option Json} {n : Nat} {what : String} {b : List UInt8} (h : fixedHex v n what = .ok b) :
    b.length = n := by
  unfold fixedHex at h
  split at h
  · split at h
    · next hx => cases h; exact length_fromHex hx
    · cases h
  · cases h

variable {bs58check : List Char → Except String (List UInt8)}

/-- Two hashes and a public key stand in every entry, which is more than an inner node has. -/
theorem smlEntryBytes_length {e : Json} {b : List UInt8} (h : smlEntryBytes bs58check e = .ok b) : 112 ≤ b.length := by
  unfold smlEntryBytes at h
  split at h
  · simp only [bind_eq_ok] at h
    obtain ⟨operator, h1, _, _, proRegTxHash, h2, confirmedHash, h3, service, _, keyId, _, h⟩ := h
    have hl : 112 ≤ (proRegTxHash.reverse ++ confirmedHash.reverse ++ service ++ operator ++ keyId).length := by
      simp only [List.length_append, List.length_reverse, fixedHex_length h1, fixedHex_length h2, fixedHex_length h3]
      omega
    split at h
    · split at h
      · simp only [bind_eq_ok] at h
        obtain ⟨typeBytes, _, h⟩ := h
        split at h
        · simp only [bind_eq_ok] at h
          obtain ⟨port, _, nodeID, _, h⟩ := h
          cases h
          simp only [List.length_append] at hl ⊢; omega
        · cases h
          simp only [List.length_append] at hl ⊢; omega
      · cases h
    · cases h
      simp only [List.length_append] at hl ⊢; omega
  · cases h

/-! ## The order of the keys -/

theorem refuseRepeated_eq_ok {keyed : List Keyed} {u : Unit} :
    refuseRepeated keyed = .ok u ↔ keyed.IsChain fun a b => a.key ≠ b.key := by
  induction keyed with
  | nil => simp [refuseRepeated]
  | cons a keyed ih =>
    cases keyed with
    | nil => simp [refuseRepeated]
    | cons b keyed =>
      simp only [refuseRepeated, bind_eq_ok, require_eq_ok, decide_eq_true_eq, ih, List.isChain_cons_cons]
      exact ⟨fun ⟨_, h1, h2⟩ => ⟨h1.symm, h2⟩, fun ⟨h1, h2⟩ => ⟨(), h1.symm, h2⟩⟩

instance : IsTrans Keyed Keyed.Le := ⟨fun _ _ _ h h' => IsTrans.trans (r := Bytes.Le) _ _ _ h h'⟩

instance : Std.Total Keyed.Le := ⟨fun a b => Std.Total.total (r := Bytes.Le) a.key b.key⟩

/-- A sorted list that passes the refusal of equal neighbours has no two equal keys. -/
theorem nodup_key {keyed : List Keyed} (hs : keyed.Pairwise Keyed.Le) (hr : refuseRepeated keyed = .ok ()) :
    (keyed.map Keyed.key).Nodup := by
  rw [refuseRepeated_eq_ok] at hr
  induction keyed with
  | nil => exact List.nodup_nil
  | cons a keyed ih =>
    obtain ⟨ha, hs⟩ := List.pairwise_cons.1 hs
    refine List.nodup_cons.2 ⟨fun hmem => ?_, ih hs hr.tail⟩
    obtain ⟨c, hc, hca⟩ := List.mem_map.1 hmem
    cases keyed with
    | nil => cases hc
    | cons b keyed =>
      obtain ⟨hab, _⟩ := List.isChain_cons_cons.1 hr
      -- the neighbour lies between two elements with one key
      have hbc : Bytes.Le b.key a.key := by
        rcases List.mem_cons.1 hc with rfl | hc
        · exact absurd hca.symm hab
        · exact hca ▸ (List.pairwise_cons.1 hs).1 c hc
      exact hab (Std.Antisymm.antisymm (r := Bytes.Le) _ _ (ha b (List.mem_cons_self ..)) hbc)

/-- A key names one element. -/
theorem eq_of_key_eq {keyed : List Keyed} (hs : keyed.Pairwise Keyed.Le) (hr : refuseRepeated keyed = .ok ()) {a b : Keyed}
    (ha : a ∈ keyed) (hb : b ∈ keyed) (h : a.key = b.key) : a = b :=
  List.inj_on_of_nodup_map (nodup_key hs hr) ha hb h

/-! ## The list -/

/-- What the checks of the list leave behind. -/
theorem sortedEntries_eq_ok {mnList : List Json} {entries : List (List UInt8)} :
    sortedEntries bs58check mnList = .ok entries ↔ mnList.length ≤ MAX_MN_LIST_ENTRIES ∧ ∃ keyed : List Keyed,
      List.Forall₂ (fun e k => k.e = e ∧ internalOrder e = .ok k.key) mnList keyed ∧
      refuseRepeated (keyed.insertionSort Keyed.Le) = .ok () ∧
      List.Forall₂ (fun k b => smlEntryBytes bs58check k.e = .ok b) (keyed.insertionSort Keyed.Le) entries := by
  have hk : ∀ (e : Json) (k : Keyed), (do return Keyed.mk e (← internalOrder e) : Except String Keyed) = .ok k ↔
      k.e = e ∧ internalOrder e = .ok k.key := by
    intro e k
    rw [bind_eq_ok]
    constructor
    · rintro ⟨key, h1, h2⟩
      cases h2
      exact ⟨rfl, h1⟩
    · rintro ⟨rfl, h⟩
      exact ⟨k.key, h, rfl⟩
  unfold sortedEntries
  simp only [bind_eq_ok, require_eq_ok, decide_eq_true_eq, mapM_eq_ok, hk]
  constructor
  · rintro ⟨_, h1, keyed, h2, _, h3, h4⟩
    exact ⟨h1, keyed, h2, h3, h4⟩
  · rintro ⟨h1, keyed, h2, h3, h4⟩
    exact ⟨(), h1, keyed, h2, (), h3, h4⟩

/-- A permutation of an accepted list is sorted to the same entries. -/
theorem sortedEntries_perm {l l' : List Json} (hp : l.Perm l') {entries : List (List UInt8)}
    (h : sortedEntries bs58check l = .ok entries) : sortedEntries bs58check l' = .ok entries := by
  obtain ⟨h1, keyed, h2, h3, h4⟩ := sortedEntries_eq_ok.1 h
  obtain ⟨keyed', h5, h6⟩ := List.perm_comp_forall₂ hp.symm h2
  have hsort : keyed'.insertionSort Keyed.Le = keyed.insertionSort Keyed.Le := by
    have hs := List.pairwise_insertionSort Keyed.Le keyed
    have hp' := ((List.perm_insertionSort Keyed.Le keyed').trans h6).trans (List.perm_insertionSort Keyed.Le keyed).symm
    refine List.Perm.eq_of_pairwise (fun a b ha hb hab hba => ?_) (List.pairwise_insertionSort Keyed.Le keyed') hs hp'
    exact eq_of_key_eq hs h3 (hp'.mem_iff.1 ha) hb (Std.Antisymm.antisymm (r := Bytes.Le) _ _ hab hba)
  rw [sortedEntries_eq_ok, ← hp.length_eq]
  exact ⟨h1, keyed', h5, hsort.symm ▸ h3, hsort.symm ▸ h4⟩

/-- The entries of an accepted list are the serializations of its members. -/
theorem mem_sortedEntries {l : List Json} {entries : List (List UInt8)} (h : sortedEntries bs58check l = .ok entries)
    (bytes : List UInt8) : bytes ∈ entries ↔ ∃ e ∈ l, smlEntryBytes bs58check e = .ok bytes := by
  obtain ⟨_, keyed, h2, _, h4⟩ := sortedEntries_eq_ok.1 h
  have hk : ∀ e, e ∈ l ↔ ∃ k ∈ keyed.insertionSort Keyed.Le, k.e = e := by
    intro e
    simp only [List.mem_insertionSort]
    constructor
    · intro he
      obtain ⟨k, hk, h5⟩ := exists_of_mem_left h2 he
      exact ⟨k, hk, h5.1⟩
    · rintro ⟨k, hk, rfl⟩
      obtain ⟨e, he, h5⟩ := exists_of_mem_right h2 hk
      rwa [h5.1]
  constructor
  · intro hb
    obtain ⟨k, hkm, hkb⟩ := exists_of_mem_right h4 hb
    exact ⟨k.e, (hk _).2 ⟨k, hkm, rfl⟩, hkb⟩
  · rintro ⟨e, he, hb⟩
    obtain ⟨k, hkm, rfl⟩ := (hk e).1 he
    obtain ⟨b, hbm, hkb⟩ := exists_of_mem_left h4 hkm
    rw [hkb] at hb; cases hb
    exact hbm

variable (bs58check) (sha256d : List UInt8 → Digest)

/-- What `smlMerkleRoot` hashes for a list it accepts. -/
def smlHashed (mnList : List Json) : List (List UInt8) :=
  match sortedEntries bs58check mnList with
  | .ok entries => HashTree.inputs sha256d entries
  | .error _ => []

/-- The two lists have the same serialized entries. -/
def SameEntries (l l' : List Json) : Prop :=
  ∀ bytes, (∃ e ∈ l, smlEntryBytes bs58check e = .ok bytes) ↔ ∃ e ∈ l', smlEntryBytes bs58check e = .ok bytes

variable {bs58check sha256d}

theorem smlMerkleRoot_eq_ok {l : List Json} {root : Digest} : smlMerkleRoot bs58check sha256d l = .ok root ↔
    ∃ entries, sortedEntries bs58check l = .ok entries ∧ HashTree.root sha256d (entries.map sha256d) = root := by
  unfold smlMerkleRoot
  rw [bind_eq_ok]
  exact exists_congr fun entries => and_congr_right' ⟨fun h => by cases h; rfl, fun h => by rw [← h]; rfl⟩

/-- Accepted lists with one root have the same entries, if what is hashed does not collide. -/
theorem sameEntries_of_root_eq {S : Set (List UInt8)} (hS : Set.InjOn sha256d S) (h0 : ∀ a ∈ S, sha256d a ≠ Digest.zero)
    {l l' : List Json} (hl : ∀ a ∈ smlHashed bs58check sha256d l, a ∈ S) (hl' : ∀ a ∈ smlHashed bs58check sha256d l', a ∈ S)
    {root : Digest} (h : smlMerkleRoot bs58check sha256d l = .ok root) (h' : smlMerkleRoot bs58check sha256d l' = .ok root) :
    SameEntries bs58check l l' := by
  obtain ⟨entries, h1, h2⟩ := smlMerkleRoot_eq_ok.1 h
  obtain ⟨entries', h1', h2'⟩ := smlMerkleRoot_eq_ok.1 h'
  simp only [smlHashed, h1] at hl
  simp only [smlHashed, h1'] at hl'
  have hlen : ∀ {l : List Json} {es}, sortedEntries bs58check l = .ok es → ∀ b ∈ es, b.length ≠ 64 := by
    intro l es he b hb
    obtain ⟨e, _, heb⟩ := (mem_sortedEntries he b).1 hb
    have := smlEntryBytes_length heb
    omega
  intro bytes
  rw [← mem_sortedEntries h1, ← mem_sortedEntries h1']
  exact HashTree.mem_iff_of_root_eq sha256d hS h0 (hlen h1) (hlen h1') hl hl' (h2.trans h2'.symm) bytes

variable (bs58check sha256d)

/-- The root of the list is free of its order and binds its set of entries. -/
theorem smlMerkleRoot_set :
    (∀ (l l' : List Json) (root : Digest), l.Perm l' → smlMerkleRoot bs58check sha256d l = .ok root →
      smlMerkleRoot bs58check sha256d l' = .ok root) ∧
    (∀ (l l' : List Json) (root : Digest), smlMerkleRoot bs58check sha256d l = .ok root →
      smlMerkleRoot bs58check sha256d l' = .ok root →
      SameEntries bs58check l l' ∨
      HashTree.Collides sha256d (smlHashed bs58check sha256d l ++ smlHashed bs58check sha256d l') ∨
      ∃ a ∈ smlHashed bs58check sha256d l ++ smlHashed bs58check sha256d l', sha256d a = Digest.zero) := by
  constructor
  · intro l l' root hp h
    obtain ⟨entries, h1, h2⟩ := smlMerkleRoot_eq_ok.1 h
    exact smlMerkleRoot_eq_ok.2 ⟨entries, sortedEntries_perm hp h1, h2⟩
  · intro l l' root h h'
    by_cases hc : HashTree.Collides sha256d (smlHashed bs58check sha256d l ++ smlHashed bs58check sha256d l')
    · exact Or.inr (Or.inl hc)
    by_cases h0 : ∃ a ∈ smlHashed bs58check sha256d l ++ smlHashed bs58check sha256d l', sha256d a = Digest.zero
    · exact Or.inr (Or.inr h0)
    refine Or.inl (sameEntries_of_root_eq (HashTree.injOn_of_not_collides sha256d hc) (fun a ha ha0 => h0 ⟨a, ha, ha0⟩)
      (fun a ha => List.mem_append_left _ ha) (fun a ha => List.mem_append_right _ ha) h h')

/-! ## Two entries of mainnet -/

/-- An entry of version 1. -/
def oldEntry : Json := .obj [
  ("nVersion", .num (.ofNat 1)),
  ("proRegTxHash", .str "b2e4d784149c04c5aaca458510c686514f05ed8b804ce4cae95f486c15404800"),
  ("confirmedHash", .str "0000000000000004b542de3c65e662a47b98e91449a485205bca27ef1fdbb241"),
  ("service", .str "168.119.80.4:9999"),
  ("pubKeyOperator", .str "82027b2f0b86356e54ad9f6f9d09cc6b9397b194f01efa72cc9fcc15101014c7b870c7787b082c7ed08aaf3a1a9a4134"),
  ("votingAddress", .str "XxFirfb6c8ManwuYMyodZAZMVXSksr7BwS"),
  ("isValid", .bool true)]

/-- A regular entry of version 2. -/
def newEntry : Json := .obj [
  ("nVersion", .num (.ofNat 2)),
  ("nType", .num 0),
  ("proRegTxHash", .str "a1bbb245cf646267fb5989640b70515d778b4c369b4a5fcf2b7cda8a0d822200"),
  ("confirmedHash", .str "0000000000000003b75692b99a26ff47be8f953a3cd4f00abc7c871fe64c632f"),
  ("service", .str "151.244.85.136:9999"),
  ("pubKeyOperator", .str "91e4e299fc305e580405d886e86f110a39e78c524e947cb620292dfccd88e0adbe9e6f11e60afd1d418c6338388f78ed"),
  ("votingAddress", .str "XiB3VxtQz13BuZQwBUaAH6Rb72rCx57xyb"),
  ("isValid", .bool true)]

/-- What the decoder says about the two addresses. -/
def decodePair (address : List Char) : Except String (List UInt8) :=
  if String.ofList address = "XxFirfb6c8ManwuYMyodZAZMVXSksr7BwS" then
    .ok (fromHex "4cec928b93d0bdde60120a61f4e79944b3e201cc84".toList)
  else if String.ofList address = "XiB3VxtQz13BuZQwBUaAH6Rb72rCx57xyb" then
    .ok (fromHex "4c521e445350584f9afb9a9852840180486b275f2d".toList)
  else .error "Invalid checksum"

/-- A stand-in for SHA-256d. -/
def lastBytes (bytes : List UInt8) : Digest := ⟨(bytes.reverse ++ List.replicate 32 0).take 32, by simp⟩

def pairRoot : Digest := ⟨fromHex "082c7ed08aaf3a1a9a4134ec928b93d0bdde60120a61f4e79944b3e201cc8401".toList, by decide +kernel⟩

theorem smlMerkleRoot_pair : smlMerkleRoot decodePair lastBytes [oldEntry, newEntry] = .ok pairRoot := by decide +kernel

theorem smlMerkleRoot_set_pair : smlMerkleRoot decodePair lastBytes [newEntry, oldEntry] = .ok pairRoot ∧
    (SameEntries decodePair [oldEntry, newEntry] [newEntry, oldEntry] ∨
      HashTree.Collides lastBytes
        (smlHashed decodePair lastBytes [oldEntry, newEntry] ++ smlHashed decodePair lastBytes [newEntry, oldEntry]) ∨
      ∃ a ∈ smlHashed decodePair lastBytes [oldEntry, newEntry] ++ smlHashed decodePair lastBytes [newEntry, oldEntry],
        lastBytes a = Digest.zero) := by
  have hswap := (smlMerkleRoot_set decodePair lastBytes).1 _ _ _ (List.Perm.swap newEntry oldEntry []) smlMerkleRoot_pair
  exact ⟨hswap, (smlMerkleRoot_set decodePair lastBytes).2 _ _ _ smlMerkleRoot_pair hswap⟩

end DmlCommitment
