import MnoVerify.DmlBindingSound
import MnoVerify.QuorumCommitment

/-!
# The quorum set and its root

The leaves are sorted by their hashes, so the root and the key map are those of the set.
The bytes of a commitment determine its identity and its key once the size table is
fixed, and no commitment has the 64 bytes of an inner node.
-/

namespace QuorumCommitment

open Bytes Js
open Snapshot (require require_eq_ok)

/-! ## Fields -/

theorem strictHex_ok {v : Option Json} {n : Nat} {name : String} {x : StrictHex} (h : strictHex v n name = .ok x) :
    toHex x.buf = x.hex ∧ x.buf.length = n := by
  unfold strictHex at h
  split at h
  · split at h
    · next hx =>
      cases h
      exact toHex_fromHex hx
    · cases h
  · cases h

theorem intBetween_ok {lo hi : Int} {v : Option Json} {message : String} {z : Int} (h : intBetween lo hi v message = .ok z) :
    v = some (.num (.ofInt z)) ∧ lo ≤ z ∧ z ≤ hi := by
  unfold intBetween at h
  split at h
  · next d =>
    split at h
    · next hd =>
      cases h
      simp only [Bool.and_eq_true, decide_eq_true_eq] at hd
      exact ⟨by rw [Dec.ofInt_toInt hd.1.1], hd.1.2, hd.2⟩
    · cases h
  · cases h

theorem length_le16 (n : Int) : (le16 n).length = 2 := length_toLE 2 _

/-- Bitsets of one size have one length. -/
theorem length_dynbitset {n : Nat} {v w : Option Json} {name name' : String} {b b' : List UInt8}
    (h : dynbitset n v name = .ok b) (h' : dynbitset n w name' = .ok b') : b.length = b'.length := by
  obtain ⟨x, h1, h⟩ := bind_eq_ok.1 h
  obtain ⟨z, h2, h⟩ := bind_eq_ok.1 h
  obtain ⟨x', h1', h'⟩ := bind_eq_ok.1 h'
  obtain ⟨z', h2', h'⟩ := bind_eq_ok.1 h'
  cases h; cases h'
  have hz : z = z' := Except.ok.inj (h2.symm.trans h2')
  rw [List.length_append, List.length_append, (strictHex_ok h1).2, (strictHex_ok h1').2, hz]

/-! ## One commitment -/

/-- How the bytes of a commitment are put together. -/
structure Layout (q : Json) (size : Nat) (c : Commitment) where
  version : Nat
  hash : List UInt8
  index : List UInt8
  signers : List UInt8
  validMembers : List UInt8
  key : StrictHex
  rest : List UInt8
  version_eq : version = 3 ∨ version = 4
  type_eq : q.field "llmqType" = some (.num (.ofInt c.llmqType)) ∧ 0 ≤ c.llmqType ∧ c.llmqType ≤ 0xff
  hash_eq : toHex hash = c.quorumHash ∧ hash.length = 32
  index_length : index.length = if version = BASIC_INDEXED then 2 else 0
  signers_eq : dynbitset size (q.field "signers") "signers" = .ok signers
  validMembers_eq : dynbitset size (q.field "validMembers") "validMembers" = .ok validMembers
  key_eq : strictHex (q.field "quorumPublicKey") 48 "quorumPublicKey" = .ok key
  bytes_eq : c.bytes = le16 version ++ ([UInt8.ofNat c.llmqType.toNat] ++ (hash.reverse ++ (index ++ (signers ++
    (validMembers ++ (key.buf ++ rest))))))

theorem exists_layout {q : Json} {size : Nat} {c : Commitment} (h : serializeCommitment q size = .ok c) :
    Nonempty (Layout q size c) := by
  unfold serializeCommitment at h
  obtain ⟨version, h1, h⟩ := bind_eq_ok.1 h
  obtain ⟨llmqType, h2, h⟩ := bind_eq_ok.1 h
  obtain ⟨quorumHash, h3, h⟩ := bind_eq_ok.1 h
  obtain ⟨index, h4, h⟩ := bind_eq_ok.1 h
  obtain ⟨signers, h5, h⟩ := bind_eq_ok.1 h
  obtain ⟨validMembers, h6, h⟩ := bind_eq_ok.1 h
  obtain ⟨key, h7, h⟩ := bind_eq_ok.1 h
  obtain ⟨vvecHash, h8, h⟩ := bind_eq_ok.1 h
  obtain ⟨quorumSig, h9, h⟩ := bind_eq_ok.1 h
  obtain ⟨membersSig, h10, h⟩ := bind_eq_ok.1 h
  cases h
  refine ⟨⟨version, quorumHash.buf, index, signers, validMembers, key, vvecHash.buf.reverse ++ (quorumSig.buf ++ membersSig.buf),
    ?_, intBetween_ok h2, strictHex_ok h3, ?_, h5, h6, h7, by simp⟩⟩
  · unfold basicVersion at h1
    split at h1
    · cases h1; exact Or.inl rfl
    · split at h1
      · cases h1; exact Or.inr rfl
      · cases h1
  · unfold indexBytes at h4
    split at h4
    · next hv =>
      cases hi : i16 (q.field "quorumIndex") "quorumIndex" with
      | error m => rw [hi] at h4; cases h4
      | ok z =>
        rw [hi] at h4
        cases h4
        rw [if_pos hv, length_le16]
    · next hv =>
      cases h4
      rw [if_neg hv]; rfl

theorem sizedCommitment_ok {sizes : String → Option Nat} {q : Json} {c : Commitment} (h : sizedCommitment sizes q = .ok c) :
    ∃ size, sizes (Snapshot.textOf (q.field "llmqType")) = some size ∧ serializeCommitment q size = .ok c := by
  unfold sizedCommitment at h
  split at h
  · cases h
  · split at h
    · cases h
    · next size hs => exact ⟨size, hs, h⟩

/-- A hash, a key and more: no commitment is as short as an inner node. -/
theorem length_bytes {sizes : String → Option Nat} {q : Json} {c : Commitment} (h : sizedCommitment sizes q = .ok c) :
    c.bytes.length ≠ 64 := by
  obtain ⟨size, _, hc⟩ := sizedCommitment_ok h
  obtain ⟨t⟩ := exists_layout hc
  rw [t.bytes_eq]
  simp only [List.length_append, length_le16, List.length_reverse, t.hash_eq.2, (strictHex_ok t.key_eq).2, List.length_singleton]
  omega

/-- The bytes of a commitment determine its identity and its key. -/
theorem eq_of_bytes_eq {sizes : String → Option Nat} {q q' : Json} {c c' : Commitment} {x x' : StrictHex}
    (h : sizedCommitment sizes q = .ok c) (h' : sizedCommitment sizes q' = .ok c')
    (hx : strictHex (q.field "quorumPublicKey") 48 "quorumPublicKey" = .ok x)
    (hx' : strictHex (q'.field "quorumPublicKey") 48 "quorumPublicKey" = .ok x') (hb : c.bytes = c'.bytes) :
    c.llmqType = c'.llmqType ∧ c.quorumHash = c'.quorumHash ∧ x.hex = x'.hex := by
  obtain ⟨size, hs, hc⟩ := sizedCommitment_ok h
  obtain ⟨size', hs', hc'⟩ := sizedCommitment_ok h'
  obtain ⟨t⟩ := exists_layout hc
  obtain ⟨t'⟩ := exists_layout hc'
  rw [t.bytes_eq, t'.bytes_eq] at hb
  obtain ⟨hversion, hb⟩ := List.append_inj hb (by rw [length_le16, length_le16])
  obtain ⟨htype, hb⟩ := List.append_inj hb rfl
  obtain ⟨hhash, hb⟩ := List.append_inj hb (by simp [t.hash_eq.2, t'.hash_eq.2])
  have hv : t.version = t'.version := by
    have : ((t.version : Int) % 0x10000).toNat = ((t'.version : Int) % 0x10000).toNat :=
      toLE_inj (k := 2) (by omega) (by omega) hversion
    have h1 := t.version_eq
    have h2 := t'.version_eq
    omega
  have hty : c.llmqType = c'.llmqType := by
    have h1 := congrArg UInt8.toNat (List.cons_eq_cons.1 htype).1
    rw [UInt8.toNat_ofNat', UInt8.toNat_ofNat'] at h1
    have h2 := t.type_eq
    have h3 := t'.type_eq
    omega
  have hsize : size = size' := by
    rw [t.type_eq.1, hty, ← t'.type_eq.1, hs'] at hs
    exact (Option.some.inj hs).symm
  subst hsize
  obtain ⟨_, hb⟩ := List.append_inj hb (by rw [t.index_length, t'.index_length, hv])
  obtain ⟨_, hb⟩ := List.append_inj hb (length_dynbitset t.signers_eq t'.signers_eq)
  obtain ⟨_, hb⟩ := List.append_inj hb (length_dynbitset t.validMembers_eq t'.validMembers_eq)
  have hkey := t.key_eq
  have hkey' := t'.key_eq
  rw [hx] at hkey
  rw [hx'] at hkey'
  obtain ⟨hk, _⟩ := List.append_inj hb (by rw [(strictHex_ok t.key_eq).2, (strictHex_ok t'.key_eq).2])
  refine ⟨hty, ?_, ?_⟩
  · rw [← t.hash_eq.1, ← t'.hash_eq.1, List.reverse_injective hhash]
  · rw [Except.ok.inj hkey, Except.ok.inj hkey', ← (strictHex_ok t.key_eq).1, ← (strictHex_ok t'.key_eq).1, hk]

/-! ## The loop -/

section Sizes

variable {sizes : String → Option Nat}

/-- What the loop takes from one quorum: its identity, its key and the bytes of its leaf. -/
structure Taken where
  id : String
  key : List Char
  bytes : List UInt8

def Takes (sizes : String → Option Nat) (q : Json) (t : Taken) : Prop :=
  ∃ c x, sizedCommitment sizes q = .ok c ∧ strictHex (q.field "quorumPublicKey") 48 "quorumPublicKey" = .ok x ∧
    t = ⟨identity c, x.hex, c.bytes⟩

theorem collect_eq_ok : ∀ {qs : List Json} {keys keys' : Keys} {leaves leaves' : List (List UInt8)},
    collect sizes qs keys leaves = .ok (keys', leaves') ↔ ∃ ts : List Taken, List.Forall₂ (Takes sizes) qs ts ∧
      (∀ t ∈ ts, keys.lookup t.id = none) ∧ (ts.map Taken.id).Nodup ∧
      keys' = keys ++ ts.map (fun t => (t.id, t.key)) ∧ leaves' = leaves ++ ts.map Taken.bytes := by
  intro qs
  induction qs with
  | nil =>
    intro keys keys' leaves leaves'
    constructor
    · intro h
      cases h
      exact ⟨[], List.Forall₂.nil, by simp, List.nodup_nil, by simp, by simp⟩
    · rintro ⟨ts, h1, _, _, rfl, rfl⟩
      cases h1
      simp [collect]
  | cons q qs ih =>
    intro keys keys' leaves leaves'
    simp only [collect, bind_eq_ok, require_eq_ok, ih]
    constructor
    · rintro ⟨c, h1, _, h2, x, h3, ts, h4, h5, h6, rfl, rfl⟩
      rw [Option.isNone_iff_eq_none] at h2
      have hid : ∀ t ∈ ts, t.id ≠ identity c := by
        intro t ht he
        have := h5 t ht
        rw [he, Assoc.lookup_set_self] at this
        cases this
      refine ⟨⟨identity c, x.hex, c.bytes⟩ :: ts, List.Forall₂.cons ⟨c, x, h1, h3, rfl⟩ h4, ?_, ?_, ?_, by simp⟩
      · intro t ht
        rcases List.mem_cons.1 ht with rfl | ht
        · exact h2
        · rw [← Assoc.lookup_set_of_ne (hid t ht) keys x.hex]
          exact h5 t ht
      · refine List.nodup_cons.2 ⟨fun hmem => ?_, h6⟩
        obtain ⟨t, ht, he⟩ := List.mem_map.1 hmem
        exact hid t ht he
      · rw [Assoc.set_of_lookup_none h2]
        simp
    · rintro ⟨ts, h1, h2, h3, rfl, rfl⟩
      cases h1 with
      | @cons _ t _ ts ht hts =>
        obtain ⟨c, x, h4, h5, rfl⟩ := ht
        obtain ⟨hid, h3⟩ := List.nodup_cons.1 h3
        have hnone := h2 _ (List.mem_cons_self ..)
        refine ⟨c, h4, (), by simp [hnone], x, h5, ts, hts, fun t ht => ?_, h3, ?_, by simp⟩
        · rw [Assoc.lookup_set_of_ne fun he => hid (List.mem_map.2 ⟨t, ht, he⟩)]
          exact h2 t (List.mem_cons_of_mem _ ht)
        · rw [Assoc.set_of_lookup_none hnone]
          simp

end Sizes

/-! ## The set -/

/-- The two maps answer alike. -/
def SameKeys (keys keys' : Keys) : Prop := ∀ id, keys.lookup id = keys'.lookup id

/-- Both refuse, or both accept with maps that answer alike. -/
inductive SameAnswer : Except String Keys → Except String Keys → Prop
  | accepted {keys keys' : Keys} (h : SameKeys keys keys') : SameAnswer (.ok keys) (.ok keys')
  | refused (m m' : String) : SameAnswer (.error m) (.error m')

variable {sha256d : List UInt8 → Digest} {sizes : String → Option Nat}

instance : IsTrans Digest DigestLe := ⟨fun _ _ _ h h' => IsTrans.trans (r := Bytes.Le) _ _ _ h h'⟩

instance : Std.Total DigestLe := ⟨fun a b => Std.Total.total (r := Bytes.Le) a.bytes b.bytes⟩

theorem digestLe_antisymm {a b : Digest} (h : DigestLe a b) (h' : DigestLe b a) : a = b := by
  have := Std.Antisymm.antisymm (r := Bytes.Le) _ _ h h'
  cases a; cases b; simpa using this

/-- A set that is accepted, seen as what the loop takes from it. -/
theorem verifyQuorumsCommitment_eq_ok {qs : List Json} {root : Option Json} {keys : Keys} :
    verifyQuorumsCommitment sha256d sizes (some (.arr qs)) root = .ok keys ↔ ∃ (s : String) (ts : List Taken),
      root = some (.str s) ∧ isHex 32 s.toList = true ∧ List.Forall₂ (Takes sizes) qs ts ∧ (ts.map Taken.id).Nodup ∧
      keys = ts.map (fun t => (t.id, t.key)) ∧ DmlCommitment.displayText
        (HashTree.root sha256d (((ts.map Taken.bytes).map sha256d).insertionSort DigestLe)) = s.toList.map Char.toLower := by
  unfold verifyQuorumsCommitment
  cases root with
  | none => simp
  | some root =>
    cases root with
    | str s =>
      simp only [bind_eq_ok, require_eq_ok, decide_eq_true_eq, quorumsMerkleRoot, Prod.exists, collect_eq_ok]
      constructor
      · rintro ⟨_, h1, _, _, ⟨_, _, ⟨ts, h2, _, h3, rfl, rfl⟩, h4⟩, _, h5, h6⟩
        cases h4; cases h6
        exact ⟨s, ts, rfl, h1, h2, h3, by simp, h5⟩
      · rintro ⟨s', ts, he, h1, h2, h3, rfl, h5⟩
        cases he
        exact ⟨(), h1, _, _, ⟨_, _, ⟨ts, h2, by simp, h3, rfl, rfl⟩, rfl⟩, (), h5, rfl⟩
    | _ => simp

/-- A permutation of an accepted set is accepted, with the same map. -/
theorem verifyQuorumsCommitment_perm {qs qs' : List Json} (hp : qs.Perm qs') {root : Option Json} {keys : Keys}
    (h : verifyQuorumsCommitment sha256d sizes (some (.arr qs)) root = .ok keys) :
    ∃ keys', verifyQuorumsCommitment sha256d sizes (some (.arr qs')) root = .ok keys' ∧ SameKeys keys keys' := by
  obtain ⟨s, ts, hr, h1, h2, h3, rfl, h4⟩ := verifyQuorumsCommitment_eq_ok.1 h
  obtain ⟨ts', h5, h6⟩ := List.perm_comp_forall₂ hp.symm h2
  have h3' : (ts'.map Taken.id).Nodup := (h6.map Taken.id).nodup_iff.2 h3
  have hsort : ((ts'.map Taken.bytes).map sha256d).insertionSort DigestLe =
      ((ts.map Taken.bytes).map sha256d).insertionSort DigestLe := by
    refine List.Perm.eq_of_pairwise (fun a b _ _ hab hba => digestLe_antisymm hab hba)
      (List.pairwise_insertionSort DigestLe _) (List.pairwise_insertionSort DigestLe _) ?_
    exact (List.perm_insertionSort DigestLe _).trans
      (((h6.map Taken.bytes).map sha256d).trans (List.perm_insertionSort DigestLe _).symm)
  refine ⟨_, verifyQuorumsCommitment_eq_ok.2 ⟨s, ts', hr, h1, h5, h3', rfl, hsort ▸ h4⟩, ?_⟩
  exact Assoc.lookup_congr (by simpa [Function.comp_def] using h3) (by simpa [Function.comp_def] using h3')
    fun q => ((h6.map fun t => (t.id, t.key)).mem_iff).symm

/-! ## One root -/

/-- Strings in the order of their hashes. -/
def byHash (sha256d : List UInt8 → Digest) (leaves : List (List UInt8)) : List (List UInt8) :=
  leaves.insertionSort fun a b => DigestLe (sha256d a) (sha256d b)

theorem map_byHash (leaves : List (List UInt8)) :
    (byHash sha256d leaves).map sha256d = (leaves.map sha256d).insertionSort DigestLe :=
  List.map_insertionSort _ _ _ leaves fun _ _ _ _ => Iff.rfl

/-- What `quorumsMerkleRoot` hashes for a set it accepts. -/
def quorumsHashed (sha256d : List UInt8 → Digest) (sizes : String → Option Nat) (newQuorums : List Json) : List (List UInt8) :=
  match collect sizes newQuorums [] [] with
  | .ok (_, leaves) => HashTree.inputs sha256d (byHash sha256d leaves)
  | .error _ => []

theorem quorumsHashed_eq {qs : List Json} {ts : List Taken} (h : List.Forall₂ (Takes sizes) qs ts)
    (hn : (ts.map Taken.id).Nodup) :
    quorumsHashed sha256d sizes qs = HashTree.inputs sha256d (byHash sha256d (ts.map Taken.bytes)) := by
  have hc : collect sizes qs [] [] = .ok (ts.map (fun t => (t.id, t.key)), ts.map Taken.bytes) :=
    collect_eq_ok.2 ⟨ts, h, by simp, hn, by simp, by simp⟩
  rw [quorumsHashed, hc]

/-- Leaves with the same bytes stand for one identity and one key. -/
theorem pair_of_bytes_eq {qs qs' : List Json} {ts ts' : List Taken} (h : List.Forall₂ (Takes sizes) qs ts)
    (h' : List.Forall₂ (Takes sizes) qs' ts') (hb : ∀ b, b ∈ ts.map Taken.bytes → b ∈ ts'.map Taken.bytes)
    {q : String × List Char} (hq : q ∈ ts.map fun t => (t.id, t.key)) : q ∈ ts'.map fun t => (t.id, t.key) := by
  obtain ⟨t, ht, rfl⟩ := List.mem_map.1 hq
  obtain ⟨t', ht', hbt⟩ := List.mem_map.1 (hb t.bytes (List.mem_map_of_mem ht))
  obtain ⟨q, _, c, x, hc, hx, rfl⟩ := exists_of_mem_right h ht
  obtain ⟨q', _, c', x', hc', hx', rfl⟩ := exists_of_mem_right h' ht'
  obtain ⟨h1, h2, h3⟩ := eq_of_bytes_eq hc hc' hx hx' hbt.symm
  refine List.mem_map.2 ⟨_, ht', ?_⟩
  simp only [identity, h1, h2, h3]

theorem bytes_ne_64 {qs : List Json} {ts : List Taken} (h : List.Forall₂ (Takes sizes) qs ts) :
    ∀ b ∈ byHash sha256d (ts.map Taken.bytes), b.length ≠ 64 := by
  intro b hb
  obtain ⟨t, ht, rfl⟩ := List.mem_map.1 (List.mem_insertionSort _ |>.1 hb)
  obtain ⟨q, _, c, x, hc, _, rfl⟩ := exists_of_mem_right h ht
  exact length_bytes hc

variable (sha256d sizes)

/-- The answer is free of the order of the quorums, and one root has one key map. -/
theorem verifyQuorumsCommitment_set :
    (∀ (qs qs' : List Json) (root : Option Json), qs.Perm qs' →
      SameAnswer (verifyQuorumsCommitment sha256d sizes (some (.arr qs)) root)
        (verifyQuorumsCommitment sha256d sizes (some (.arr qs')) root)) ∧
    (∀ (qs qs' : List Json) (root : Option Json) (keys keys' : Keys),
      verifyQuorumsCommitment sha256d sizes (some (.arr qs)) root = .ok keys →
      verifyQuorumsCommitment sha256d sizes (some (.arr qs')) root = .ok keys' →
      SameKeys keys keys' ∨
      HashTree.Collides sha256d (quorumsHashed sha256d sizes qs ++ quorumsHashed sha256d sizes qs') ∨
      ∃ a ∈ quorumsHashed sha256d sizes qs ++ quorumsHashed sha256d sizes qs', sha256d a = Digest.zero) := by
  constructor
  · intro qs qs' root hp
    cases h : verifyQuorumsCommitment sha256d sizes (some (.arr qs)) root with
    | ok keys =>
      obtain ⟨keys', h', hk⟩ := verifyQuorumsCommitment_perm hp h
      rw [h']
      exact .accepted hk
    | error m =>
      cases h' : verifyQuorumsCommitment sha256d sizes (some (.arr qs')) root with
      | ok keys' =>
        obtain ⟨keys, h'', _⟩ := verifyQuorumsCommitment_perm hp.symm h'
        rw [h] at h''
        cases h''
      | error m' => exact .refused m m'
  · intro qs qs' root keys keys' h h'
    by_cases hc : HashTree.Collides sha256d (quorumsHashed sha256d sizes qs ++ quorumsHashed sha256d sizes qs')
    · exact Or.inr (Or.inl hc)
    by_cases h0 : ∃ a ∈ quorumsHashed sha256d sizes qs ++ quorumsHashed sha256d sizes qs', sha256d a = Digest.zero
    · exact Or.inr (Or.inr h0)
    obtain ⟨s, ts, rfl, _, h2, h3, rfl, h4⟩ := verifyQuorumsCommitment_eq_ok.1 h
    obtain ⟨s', ts', he, _, h2', h3', rfl, h4'⟩ := verifyQuorumsCommitment_eq_ok.1 h'
    cases he
    rw [← map_byHash] at h4 h4'
    have hroot := DmlCommitment.displayText_inj (h4.trans h4'.symm)
    have hmem := HashTree.mem_iff_of_root_eq sha256d (HashTree.injOn_of_not_collides sha256d hc)
      (fun a ha ha0 => h0 ⟨a, ha, ha0⟩) (bytes_ne_64 h2) (bytes_ne_64 h2')
      (fun a ha => List.mem_append_left _ (by rwa [quorumsHashed_eq h2 h3]))
      (fun a ha => List.mem_append_right _ (by rwa [quorumsHashed_eq h2' h3'])) hroot
    have hbytes : ∀ b, b ∈ ts.map Taken.bytes ↔ b ∈ ts'.map Taken.bytes := by
      intro b
      have := hmem b
      simpa only [byHash, List.mem_insertionSort] using this
    refine Or.inl (Assoc.lookup_congr (by simpa [Function.comp_def] using h3) (by simpa [Function.comp_def] using h3')
      fun q => ⟨fun hq => ?_, fun hq => ?_⟩)
    · exact pair_of_bytes_eq h2 h2' (fun b hb => (hbytes b).1 hb) hq
    · exact pair_of_bytes_eq h2' h2 (fun b hb => (hbytes b).2 hb) hq

/-! ## Two quorums -/

theorem strictHex_hexText (b : List UInt8) (name : String) :
    strictHex (some (.str (hexText b))) b.length name = .ok ⟨b, toHex b⟩ := by
  obtain ⟨h1, h2⟩ := isHex_toHex b
  simp only [strictHex, toList_hexText, h1, if_true, h2, fromHex_toHex]

/-- A commitment of a quorum of three members, as a node lists it. -/
def quorum (llmqType : Nat) (hash key : List UInt8) : Json := .obj [
  ("version", .num (.ofNat 3)),
  ("llmqType", .num (.ofNat llmqType)),
  ("quorumHash", .str (hexText hash)),
  ("quorumIndex", .num 0),
  ("signers", .str (hexText [7])),
  ("validMembers", .str (hexText [7])),
  ("quorumPublicKey", .str (hexText key)),
  ("quorumVvecHash", .str (hexText (List.replicate 32 1))),
  ("quorumSig", .str (hexText (List.replicate 96 2))),
  ("membersSig", .str (hexText (List.replicate 96 3)))]

variable {sizes}

def quorumTaken (llmqType : Nat) (hash key : List UInt8) : Taken where
  id := String.ofList (Nat.toDigits 10 llmqType ++ ':' :: toHex hash)
  key := toHex key
  bytes := le16 3 ++ [UInt8.ofNat llmqType] ++ hash.reverse ++ [] ++ [3, 7] ++ [3, 7] ++ key ++
    (List.replicate 32 1).reverse ++ List.replicate 96 2 ++ List.replicate 96 3

theorem takes_quorum {llmqType : Nat} {hash key : List UInt8} (ht : llmqType ≤ 0xff) (hh : hash.length = 32)
    (hk : key.length = 48) (hs : sizes (Snapshot.textOf (some (.num (.ofNat llmqType)))) = some 3) :
    Takes sizes (quorum llmqType hash key) (quorumTaken llmqType hash key) := by
  have hversion : basicVersion (quorum llmqType hash key) = .ok 3 := rfl
  have htype : u8 ((quorum llmqType hash key).field "llmqType") "llmqType" = .ok (llmqType : Int) := by
    rw [show (quorum llmqType hash key).field "llmqType" = some (.num (.ofNat llmqType)) from rfl, u8, intBetween]
    simp only [Dec.isInteger_ofNat, Dec.toInt_ofNat, Bool.true_and]
    rw [if_pos (by simp; omega)]
  have hhash : strictHex ((quorum llmqType hash key).field "quorumHash") 32 "quorumHash" = .ok ⟨hash, toHex hash⟩ :=
    hh ▸ strictHex_hexText hash _
  have hindex : indexBytes 3 (quorum llmqType hash key) = .ok [] := rfl
  have hbits : ∀ name, dynbitset 3 (some (.str (hexText [7]))) name = .ok [3, 7] := by
    intro name
    rw [dynbitset, show (3 + 7) / 8 = [(7 : UInt8)].length from rfl, strictHex_hexText]
    rfl
  have hkey : strictHex ((quorum llmqType hash key).field "quorumPublicKey") 48 "quorumPublicKey" = .ok ⟨key, toHex key⟩ :=
    hk ▸ strictHex_hexText key _
  refine ⟨⟨(quorumTaken llmqType hash key).bytes, llmqType, toHex hash⟩, ⟨key, toHex key⟩, ?_, hkey, rfl⟩
  have hsize : sizedCommitment sizes (quorum llmqType hash key) = serializeCommitment (quorum llmqType hash key) 3 := by
    rw [quorum, sizedCommitment, show Json.field "llmqType" (.obj _) = some (.num (.ofNat llmqType)) from rfl, hs]
    nofun
  rw [hsize, serializeCommitment]
  refine bind_eq_ok.2 ⟨_, hversion, bind_eq_ok.2 ⟨_, htype, bind_eq_ok.2 ⟨_, hhash, bind_eq_ok.2 ⟨_, hindex, ?_⟩⟩⟩⟩
  refine bind_eq_ok.2 ⟨_, hbits _, bind_eq_ok.2 ⟨_, hbits _, bind_eq_ok.2 ⟨_, hkey, ?_⟩⟩⟩
  refine bind_eq_ok.2 ⟨_, strictHex_hexText (List.replicate 32 1) _, ?_⟩
  refine bind_eq_ok.2 ⟨_, strictHex_hexText (List.replicate 96 2) _, ?_⟩
  exact bind_eq_ok.2 ⟨_, strictHex_hexText (List.replicate 96 3) _, rfl⟩

def quorumA : Json := quorum 100 (List.replicate 32 0xa) (List.replicate 48 0xaa)

def quorumB : Json := quorum 102 (List.replicate 32 0xb) (List.replicate 48 0xbb)

def pairTaken : List Taken :=
  [quorumTaken 100 (List.replicate 32 0xa) (List.replicate 48 0xaa),
    quorumTaken 102 (List.replicate 32 0xb) (List.replicate 48 0xbb)]

/-- What a coinbase commits to that lists the two. -/
def pairRoot : Option Json := some (.str (hexText (HashTree.root DmlCommitment.lastBytes
  (((pairTaken.map Taken.bytes).map DmlCommitment.lastBytes).insertionSort DigestLe)).bytes.reverse))

def pairKeys : Keys := pairTaken.map fun t => (t.id, t.key)

theorem verify_pair : verifyQuorumsCommitment DmlCommitment.lastBytes REGTEST_LLMQ_SIZES (some (.arr [quorumA, quorumB]))
    pairRoot = .ok pairKeys := by
  refine verifyQuorumsCommitment_eq_ok.2 ⟨_, pairTaken, rfl, ?_, ?_, ?_, rfl, ?_⟩
  · rw [toList_hexText]
    convert (isHex_toHex _).1
    rw [List.length_reverse, Digest.length_bytes]
  · exact .cons (takes_quorum (by decide) rfl rfl (by decide +kernel))
      (.cons (takes_quorum (by decide) rfl rfl (by decide +kernel)) .nil)
  · have hne : (quorumTaken 100 (List.replicate 32 0xa) (List.replicate 48 0xaa)).id ≠
        (quorumTaken 102 (List.replicate 32 0xb) (List.replicate 48 0xbb)).id := by
      intro h
      have hl := String.ofList_injective h
      exact absurd hl (by decide +kernel)
    simpa [pairTaken] using hne
  · rw [toList_hexText, (isHex_toHex _).2, DmlCommitment.displayText]

theorem verifyQuorumsCommitment_set_pair :
    SameAnswer (.ok pairKeys) (verifyQuorumsCommitment DmlCommitment.lastBytes REGTEST_LLMQ_SIZES
      (some (.arr [quorumB, quorumA])) pairRoot) ∧
    (SameKeys pairKeys pairKeys ∨
      HashTree.Collides DmlCommitment.lastBytes
        (quorumsHashed DmlCommitment.lastBytes REGTEST_LLMQ_SIZES [quorumA, quorumB] ++
          quorumsHashed DmlCommitment.lastBytes REGTEST_LLMQ_SIZES [quorumA, quorumB]) ∨
      ∃ a ∈ quorumsHashed DmlCommitment.lastBytes REGTEST_LLMQ_SIZES [quorumA, quorumB] ++
          quorumsHashed DmlCommitment.lastBytes REGTEST_LLMQ_SIZES [quorumA, quorumB],
        DmlCommitment.lastBytes a = Digest.zero) := by
  obtain ⟨hperm, hbinds⟩ := verifyQuorumsCommitment_set DmlCommitment.lastBytes REGTEST_LLMQ_SIZES
  refine ⟨?_, hbinds _ _ pairRoot _ _ verify_pair verify_pair⟩
  rw [← verify_pair]
  exact hperm _ _ _ (List.Perm.swap quorumB quorumA [])

end QuorumCommitment
