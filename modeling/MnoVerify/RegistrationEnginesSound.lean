import MnoVerify.MerklePathSound
import MnoVerify.RegistrationJournal

/-!
# The claims of the two engines

`nullifiers_differ`: for every member both engines come to claims, with one commitment, season and context hash, and
with one registration nullifier exactly where Poseidon of four inputs, the tag first, meets Poseidon of three. The
circuit hashes the tag and the guest does not.
-/

namespace RegistrationEngines

open Field (Scalar FIELD_PRIME)
open OracleLeaves (bigEndian leafFromPubkey)
open PaddedTree (walk siblingOf)
open Snapshot (require_eq_ok natText hexOf leafHash nodeHash)

/-! ## Bytes -/

theorem lt_prime {n : Nat} (h : n < 2 ^ 66) : n < FIELD_PRIME := lt_trans h (by decide)

theorem frFromBeCanonical_toBE {n : Nat} (h : n < FIELD_PRIME) (what : String) :
    frFromBeCanonical (toBE 32 n) what = .ok (n : Scalar) := by
  have hround : frToBe32 (bigEndian (toBE 32 n) : Scalar) = toBE 32 n := by
    rw [bigEndian_toBE (lt_bytes h), frToBe32, ZMod.val_natCast_of_lt h]
  rw [frFromBeCanonical, Snapshot.require, if_pos (decide_eq_true hround), bigEndian_toBE (lt_bytes h)]
  rfl

/-- The guest's limbs are those that the circuit is given. -/
theorem limb_toBE (d : Nat) {i : Nat} (h : i < 4) : limb (toBE 32 d) i = d / 2 ^ (64 * i) % 2 ^ 64 := by
  have hlow : (Bytes.toLE 32 d).take (8 * i + 8) = Bytes.toLE (8 * i + 8) d := by
    obtain ⟨k, hk⟩ : ∃ k, 32 = 8 * i + 8 + k := ⟨32 - (8 * i + 8), by omega⟩
    rw [hk, Bytes.take_toLE]
  have hpow : 256 ^ (8 * i) = 2 ^ (64 * i) := by
    rw [show 256 = 2 ^ 8 by rfl, ← Nat.pow_mul]
    congr 1
    omega
  rw [limb, toBE, List.drop_reverse, Bytes.length_toLE, show 32 - (32 - 8 * (i + 1)) = 8 * i + 8 by omega, hlow,
    List.take_reverse, Bytes.length_toLE, Nat.add_sub_cancel, Bytes.drop_toLE, bigEndian, List.reverse_reverse,
    Bytes.ofLE_toLE_mod, hpow]
  rfl

theorem limbs_toBE (d : Nat) : [(limb (toBE 32 d) 0 : Scalar), (limb (toBE 32 d) 1 : Scalar), (limb (toBE 32 d) 2 : Scalar),
    (limb (toBE 32 d) 3 : Scalar)] = signals (privToLimbs d) := by
  rw [limb_toBE d (by decide), limb_toBE d (by decide), limb_toBE d (by decide), limb_toBE d (by decide)]
  rfl

/-! ## The SHA-256 tree -/

theorem leafToKeyId_ok {leaf : List Char} (h : Field.value leaf < 256 ^ 20) :
    Snapshot.leafToKeyId leaf = .ok (toBE 20 (Field.value leaf)) := by
  have hbytes : ∀ n, (List.range 20).map (fun i => UInt8.ofNat (n / 256 ^ (19 - i))) = toBE 20 n := by
    intro n
    rw [toBE, Bytes.toLE_eq_range]
    apply List.ext_getElem
    · rw [List.length_map, List.length_reverse, List.length_map]
    · intro i hi _
      rw [List.length_map, List.length_range] at hi
      rw [List.getElem_reverse, List.getElem_map, List.getElem_map, List.getElem_range, List.getElem_range, List.length_map,
        List.length_range, Utf8.byte]
      exact (UInt8.ofNat_mod_size).symm
  rw [Snapshot.leafToKeyId, if_pos h, hbytes]

theorem leafToKeyId_eq {n : Nat} (h : n < 256 ^ 20) : Snapshot.leafToKeyId (Nat.toDigits 10 n) = .ok (toBE 20 n) := by
  have hv : Field.value (Nat.toDigits 10 n) = n := Nat.ofDigitChars_ten_toDigits
  rw [leafToKeyId_ok (by rwa [hv]), hv]

section
variable (P : Primitives)

/-- The leaves of the SHA-256 tree. -/
def keyHashes (leaves : List Nat) : List (List UInt8) := leaves.map fun n => leafHash P.sha256 (toBE 20 n)

def emptyHash : List UInt8 := leafHash P.sha256 (List.replicate 20 0)

/-- The SHA-256 root. -/
def shaRoot (leaves : List Nat) : List UInt8 :=
  PaddedTree.root (nodeHash P.sha256) (emptyHash P) TREE_DEPTH (keyHashes P leaves)

theorem shaRootFromLeaves_ok {depth : Nat} {leaves : List (List Char)} (hlt : ∀ leaf ∈ leaves, Field.value leaf < 256 ^ 20)
    (hle : leaves.length ≤ 2 ^ depth) : Snapshot.shaRootFromLeaves P.sha256 depth leaves =
      .ok (hexOf (PaddedTree.root (nodeHash P.sha256) (emptyHash P) depth
        ((leaves.map fun leaf => toBE 20 (Field.value leaf)).map (leafHash P.sha256)))) := by
  have hids : leaves.mapM Snapshot.leafToKeyId = .ok (leaves.map fun leaf => toBE 20 (Field.value leaf)) := by
    rw [Js.mapM_eq_ok, List.forall₂_map_right_iff, List.forall₂_same]
    exact fun leaf hleaf => leafToKeyId_ok (hlt leaf hleaf)
  rw [Snapshot.shaRootFromLeaves, Js.bind_eq_ok]
  refine ⟨_, hids, ?_⟩
  rw [Js.bind_eq_ok]
  exact ⟨_, Snapshot.buildRoot_ok (by rw [List.length_map, List.length_map]; exact hle), rfl⟩

theorem shaRootFromLeaves_eq {leaves : List Nat} (hlt : ∀ leaf ∈ leaves, leaf < 256 ^ 20) (hle : leaves.length ≤ 2 ^ TREE_DEPTH) :
    Snapshot.shaRootFromLeaves P.sha256 TREE_DEPTH (OracleLeaves.leafTexts leaves) = .ok (hexOf (shaRoot P leaves)) := by
  have hv : ∀ n, Field.value (Nat.toDigits 10 n) = n := fun n => Nat.ofDigitChars_ten_toDigits
  have hok := @shaRootFromLeaves_ok P TREE_DEPTH (OracleLeaves.leafTexts leaves) (fun leaf hleaf => by
    obtain ⟨n, hn, rfl⟩ := List.mem_map.1 hleaf
    rw [hv]
    exact hlt n hn) (by rwa [OracleLeaves.leafTexts, List.length_map])
  rw [OracleLeaves.leafTexts, List.map_map, List.map_map] at hok
  simp only [Function.comp_def, hv] at hok
  exact hok

theorem length_node (leaves : List Nat) : ∀ l i,
    (PaddedTree.node (nodeHash P.sha256) (PaddedTree.pad (emptyHash P) (keyHashes P leaves)) l i).length = 32
  | 0, i => by
    rw [PaddedTree.node, PaddedTree.pad, keyHashes, List.getElem?_map]
    cases leaves[i]? with
    | none => exact P.sha256_length _
    | some leaf => exact P.sha256_length _
  | l + 1, i => P.sha256_length _

theorem length_hexOf (bytes : List UInt8) : (hexOf bytes).length = 2 * bytes.length := by
  induction bytes with
  | nil => rfl
  | cons b bytes ih =>
    rw [hexOf, List.flatMap_cons, List.length_append, ← hexOf, ih, List.length_cons, List.length_cons, List.length_cons,
      List.length_nil]
    omega

/-! ## The guest -/

/-- The loop is a walk. -/
theorem climb_range (bit : Nat → Bool) (sib : Nat → List UInt8) (leaf : List UInt8) : ∀ k l,
    climb P ((List.range' l k).map fun j => (sib j, if bit j then 1 else 0)) (walk (nodeHash P.sha256) bit sib leaf l) =
      .ok (walk (nodeHash P.sha256) bit sib leaf (l + k)) := by
  intro k
  induction k with
  | zero => intro l; rfl
  | succ k ih =>
    intro l
    have hup := ih (l + 1)
    rw [walk] at hup
    rw [List.range'_succ, List.map_cons, climb, show l + (k + 1) = l + 1 + k by omega, ← hup]
    cases bit l with
    | true => rfl
    | false => rfl

end

namespace Member

variable {P : Primitives} (x : Member P) (poseidon : Poseidon)

/-- The hash of the limbs of the voting key. -/
def keyHash : Scalar := poseidon (signals (privToLimbs x.d))

/-- What the guest hashes into its nullifier. -/
def untagged : List Scalar := [x.keyHash poseidon, (x.season.toNat : Scalar), (x.contextHash : Scalar)]

/-- The journal over a root. -/
def journal (root : List UInt8) : List UInt8 :=
  frToBe32 (poseidon [(x.secret : Scalar)]) ++
    (frToBe32 (poseidon (x.untagged poseidon)) ++ (root ++ (toBE 8 x.season.toNat ++ toBE 32 x.contextHash)))

/-- The guest, run on a member's data. -/
theorem guest_ok_iff {pathSiblings : List (List UInt8)} {pathBits root journal : List UInt8} :
    guest P poseidon (toBE 32 x.d) (toBE 32 x.secret) pathSiblings pathBits root x.season (toBE 32 x.contextHash) =
        .ok journal ↔
      pathSiblings.length = TREE_DEPTH ∧ pathBits.length = TREE_DEPTH ∧
        climb P (pathSiblings.zip pathBits) (leafHash P.sha256 (P.hash160 (compressed (P.point x.d)))) = .ok root ∧
        journal = x.journal poseidon root := by
  have hd : bigEndian (toBE 32 x.d) = x.d := bigEndian_toBE (lt_trans x.d_lt (by decide))
  have hkey : decide (0 < x.d ∧ x.d < ORDER) = true := decide_eq_true ⟨x.d_pos, x.d_lt⟩
  unfold guest
  simp only [Js.bind_eq_ok, require_eq_ok, exists_const, decide_eq_true_eq, hd, frFromBeCanonical_toBE x.secret_lt,
    frFromBeCanonical_toBE x.contextHash_lt, limbs_toBE]
  constructor
  · rintro ⟨-, hsibs, hbits, node, hnode, rfl, v, hv, c, hc, h⟩
    cases hv
    cases hc
    cases h
    exact ⟨hsibs, hbits, hnode, rfl⟩
  · rintro ⟨hsibs, hbits, hnode, rfl⟩
    exact ⟨⟨x.d_pos, x.d_lt⟩, hsibs, hbits, root, hnode, rfl, _, rfl, _, rfl, rfl⟩

/-- A journal that the guest commits to is the one over the SHA-256 root. -/
theorem Commits.eq {x : Member P} {poseidon : Poseidon} {journal : List UInt8} (h : x.Commits poseidon journal) :
    ∃ root : List UInt8, root.length = 32 ∧ Snapshot.shaRootFromLeaves P.sha256 TREE_DEPTH x.leafTexts = .ok (hexOf root) ∧
      journal = x.journal poseidon root := by
  obtain ⟨pathSiblings, pathBits, root, -, hroot, hrun⟩ := h
  have htree := shaRootFromLeaves_eq P x.leaf_lt x.leaves_le
  rw [← leafTexts, hroot, Except.ok.injEq] at htree
  have hlen := congrArg List.length htree
  rw [length_hexOf, length_hexOf, shaRoot, PaddedTree.root, length_node] at hlen
  exact ⟨root, by omega, hroot, ((x.guest_ok_iff poseidon).1 hrun).2.2.2⟩

theorem index_lt : x.index < 2 ^ TREE_DEPTH := by
  have h := (List.getElem?_eq_some_iff.1 x.holds).1
  have := x.leaves_le
  omega

/-- The guest accepts the path of the member's leaf. -/
theorem commits_journal : x.Commits poseidon (x.journal poseidon (shaRoot P x.leaves)) := by
  let leaf := PaddedTree.pad (emptyHash P) (keyHashes P x.leaves)
  let sib := siblingOf (nodeHash P.sha256) leaf x.index
  let bit : Nat → Bool := fun l => decide (x.index / 2 ^ l % 2 = 1)
  have hleaf : leaf x.index = leafHash P.sha256 (P.hash160 (compressed (P.point x.d))) := by
    have hlen : (P.hash160 (compressed (P.point x.d))).length = 20 := P.ripemd160_length _
    simp only [leaf]
    rw [PaddedTree.pad, keyHashes, List.getElem?_map, x.holds, Option.map_some, Option.getD_some, leafFromPubkey,
      toBE_bigEndian hlen]
  have hwalk : walk (nodeHash P.sha256) bit sib (leaf x.index) TREE_DEPTH = shaRoot P x.leaves := by
    have h := PaddedTree.walk_siblings (nodeHash P.sha256) leaf x.index TREE_DEPTH
    rw [Nat.div_eq_of_lt x.index_lt] at h
    exact h
  have hclimb := climb_range P bit sib (leaf x.index) TREE_DEPTH 0
  rw [Nat.zero_add, hwalk, walk, hleaf, ← List.range_eq_range'] at hclimb
  refine ⟨(List.range TREE_DEPTH).map sib, (List.range TREE_DEPTH).map fun l => if bit l then 1 else 0, shaRoot P x.leaves,
    ?_, shaRootFromLeaves_eq P x.leaf_lt x.leaves_le, ?_⟩
  · intro s hs
    obtain ⟨l, -, rfl⟩ := List.mem_map.1 hs
    exact length_node P x.leaves _ _
  · rw [guest_ok_iff]
    refine ⟨by rw [List.length_map, List.length_range], by rw [List.length_map, List.length_range], ?_, rfl⟩
    rw [List.zip_map']
    exact hclimb

/-! ## The claims of the journal -/

/-- What the guest claims of a member, over a root. -/
def zkvmClaims (root : List UInt8) : Claims where
  commitment := natText (poseidon [(x.secret : Scalar)]).val
  regNullifier := natText (poseidon (x.untagged poseidon)).val
  root := String.ofList (hexOf root)
  season := natText x.season.toNat
  contextHash := natText x.contextHash

theorem decode_journal {root : List UInt8} (h : root.length = 32) :
    decodeZkvmRegistrationClaims (x.journal poseidon root) = .ok (x.zkvmClaims poseidon root) := by
  let e : Entry := ⟨poseidon [(x.secret : Scalar)], poseidon (x.untagged poseidon), ⟨root.toArray, h⟩, x.season, (x.contextHash : Scalar)⟩
  have hval : (x.contextHash : Scalar).val = x.contextHash := ZMod.val_natCast_of_lt x.contextHash_lt
  have hctx : frToBe32 (x.contextHash : Scalar) = toBE 32 x.contextHash := congrArg (toBE 32) hval
  have hj : e.journal = x.journal poseidon root :=
    congrArg (fun ctx => frToBe32 e.commitment ++ (frToBe32 e.regNullifier ++ (root ++ (toBE 8 x.season.toNat ++ ctx)))) hctx
  have hc : e.claims = x.zkvmClaims poseidon root :=
    congrArg (fun ctx => { x.zkvmClaims poseidon root with contextHash := natText ctx }) hval
  rw [← hj, ← hc, e.decode_journal]

end Member

/-! ## The key hash -/

section
variable {P : Primitives} (C : Components P)

theorem bitSignals_append (a b : List Bool) : bitSignals (a ++ b) = bitSignals a ++ bitSignals b := List.map_append

theorem bitSignals_reverse (a : List Bool) : (bitSignals a).reverse = bitSignals a.reverse := List.map_reverse.symm

theorem privToLimbs_eq (d : Nat) : privToLimbs d = Bits.limbs 64 4 d := (Bits.limbs_eq_range 64 4 d).symm

theorem headD_privToLimbs (d : Nat) : (signals (privToLimbs d)).headD 0 = ((d % 2 ^ 64 : Nat) : Scalar) := by
  rw [privToLimbs_eq]
  rfl

/-- The lowest bit of the lowest limb is the parity. -/
theorem parity_signal (y : Nat) :
    (bitSignals (Bits.ofNat 64 (y % 2 ^ 64))).headD 0 = if y % 2 = 0 then 0 else 1 := by
  have hlow : y % 2 ^ 64 % 2 = y % 2 := Nat.mod_mod_of_dvd y (dvd_pow_self 2 (by decide))
  rw [Bits.ofNat, bitSignals, List.map_cons, List.headD_cons, hlow]
  rcases Nat.mod_two_eq_zero_or_one y with h | h
  · rw [h]
    rfl
  · rw [h]
    rfl

/-- The 264 bits that the circuit hashes are those of the compressed encoding. -/
theorem message_bits (p : Nat × Nat) :
    [0, 0, 0, 0, 0, 0, 1, (bitSignals (Bits.ofNat 64 (p.2 % 2 ^ 64))).headD 0] ++
        ((privToLimbs p.1).map fun v => bitSignals (Bits.ofNat 64 v)).flatten.reverse =
      bitSignals (Bits.ofBytes (compressed p)) := by
  have hx : ((privToLimbs p.1).map fun v => bitSignals (Bits.ofNat 64 v)).flatten = bitSignals (Bits.ofNat 256 p.1) := by
    have hmap : (privToLimbs p.1).map (fun v => bitSignals (Bits.ofNat 64 v)) =
        ((privToLimbs p.1).map (Bits.ofNat 64)).map bitSignals := (List.map_map ..).symm
    have hflat : (((privToLimbs p.1).map (Bits.ofNat 64)).map bitSignals).flatten =
        bitSignals ((privToLimbs p.1).map (Bits.ofNat 64)).flatten := List.map_flatten.symm
    rw [hmap, hflat, ← List.flatMap_def, privToLimbs_eq, Bits.flatMap_limbs]
  have hprefix : [0, 0, 0, 0, 0, 0, 1, if p.2 % 2 = 0 then (0 : Scalar) else 1] =
      bitSignals (Bits.ofNat 8 (if p.2 % 2 = 0 then 2 else 3 : UInt8).toNat).reverse := by
    by_cases h : p.2 % 2 = 0
    · rw [if_pos h, if_pos h]
      rfl
    · rw [if_neg h, if_neg h]
      rfl
  rw [parity_signal, hx, hprefix, compressed, Bits.ofBytes_cons, bitSignals_append, toBE, Bits.ofBytes_toLE,
    bitSignals_reverse]

theorem forall₂_num2Bits {xs : List Nat} (h : ∀ v ∈ xs, v < 2 ^ 64) {out : List (List Scalar)} :
    List.Forall₂ (C.Num2Bits 64) (signals xs) out ↔ out = xs.map fun v => bitSignals (Bits.ofNat 64 v) := by
  rw [signals, List.forall₂_map_left_iff]
  induction xs generalizing out with
  | nil => rw [List.forall₂_nil_left_iff, List.map_nil]
  | cons v xs ih =>
    rw [List.forall₂_cons_left_iff, List.map_cons]
    constructor
    · rintro ⟨bits, rest, hbits, hrest, rfl⟩
      rw [(C.num2Bits v (h v List.mem_cons_self) bits).1 hbits, (ih fun u hu => h u (List.mem_cons_of_mem _ hu)).1 hrest]
    · rintro rfl
      exact ⟨_, _, (C.num2Bits v (h v List.mem_cons_self) _).2 rfl, (ih fun u hu => h u (List.mem_cons_of_mem _ hu)).2 rfl, rfl⟩

theorem limb_lt {d v : Nat} (h : v ∈ privToLimbs d) : v < 2 ^ 64 := by
  rw [privToLimbs_eq] at h
  exact Bits.limb_lt h

/-- The signals that `CompressAndHash160` has for a point. -/
def keySignals (P : Primitives) (p : Nat × Nat) : KeyHash where
  x := signals (privToLimbs p.1)
  y := signals (privToLimbs p.2)
  yBits := bitSignals (Bits.ofNat 64 (p.2 % 2 ^ 64))
  xBits := (privToLimbs p.1).map fun v => bitSignals (Bits.ofNat 64 v)
  sha := bitSignals (Bits.ofBytes (P.sha256 (compressed p)))
  rmd := bitSignals (Bits.ofBytes (P.hash160 (compressed p)))
  out := (leafFromPubkey P.hash160 (compressed p) : Scalar)

/-- Over the coordinates of a point `CompressAndHash160` admits one assignment, and its output is the leaf of the key. -/
theorem keyHash_satisfies_iff (p : Nat × Nat) {s : KeyHash} (hx : s.x = signals (privToLimbs p.1))
    (hy : s.y = signals (privToLimbs p.2)) : s.Satisfies C ↔ s = keySignals P p := by
  have hcomp : (compressed p).length = 33 := by rw [compressed, List.length_cons, length_toBE]
  have hmod : p.2 % 2 ^ 64 < 2 ^ 64 := Nat.mod_lt _ (by decide)
  have hbits : ((Bits.ofBytes (P.hash160 (compressed p))).reverse).length = 160 := by
    rw [List.length_reverse, Bits.length_ofBytes, Primitives.hash160, P.ripemd160_length]
  have hleaf : Bits.toNat (Bits.ofBytes (P.hash160 (compressed p))).reverse = leafFromPubkey P.hash160 (compressed p) := by
    rw [Bits.reverse_ofBytes, Bits.toNat_flatMap, leafFromPubkey, bigEndian]
  constructor
  · intro h
    have hyb := h.yBits
    rw [hy, headD_privToLimbs, C.num2Bits _ hmod] at hyb
    have hxb := h.xBits
    rw [hx, forall₂_num2Bits C fun v => limb_lt] at hxb
    have hsha := h.sha
    rw [hyb, hxb, message_bits, C.sha256 _ hcomp] at hsha
    have hrmd := h.rmd
    rw [hsha, C.ripemd160 _ (P.sha256_length _)] at hrmd
    have hout := h.out
    rw [hrmd, ← Primitives.hash160, bitSignals_reverse, C.bits2Num _ hbits, hleaf] at hout
    cases s
    simp only [keySignals, KeyHash.mk.injEq]
    exact ⟨hx, hy, hyb, hxb, hsha, hrmd, hout⟩
  · rintro rfl
    constructor
    · rw [hy, headD_privToLimbs, C.num2Bits _ hmod]
      rfl
    · rw [hx, forall₂_num2Bits C fun v => limb_lt]
      rfl
    · have hmsg := message_bits p
      exact (congrArg (fun m => C.Sha256 m _) hmsg).mpr ((C.sha256 _ hcomp _).2 rfl)
    · exact (C.ripemd160 _ (P.sha256_length _) _).2 rfl
    · have hrev := bitSignals_reverse (Bits.ofBytes (P.hash160 (compressed p)))
      exact (congrArg (fun m => C.Bits2Num m _) hrev).mpr ((C.bits2Num _ hbits _).2 (by rw [hleaf]; rfl))

end

namespace Member

variable {P : Primitives} (C : Components P) (poseidon : Poseidon) (x : Member P)

/-! ## The claims of the circuit -/

/-- What the circuit hashes into its nullifier. -/
def tagged : List Scalar := TAG_SEASONAL_REGISTRATION :: x.untagged poseidon

/-- What the public signals claim of a member, over a root. -/
def plonkClaims (root : Scalar) : Claims where
  commitment := natText (poseidon [(x.secret : Scalar)]).val
  regNullifier := natText (poseidon (x.tagged poseidon)).val
  root := natText root.val
  season := natText x.season.toNat
  contextHash := natText x.contextHash

theorem season_val : (x.season.toNat : Scalar).val = x.season.toNat :=
  ZMod.val_natCast_of_lt (lt_prime (lt_trans x.season.toNat_lt (by decide)))

/-- Whatever assignment the circuit admits, its public signals decode to the claims. -/
theorem Proves.decode {C : Components P} {poseidon : Poseidon} {x : Member P} {s : Signals} (h : x.Proves C poseidon s) :
    decodePlonkRegistrationClaims s.publicSignals = .ok (x.plonkClaims poseidon s.root) := by
  have hcommitment : s.commitment = poseidon [(x.secret : Scalar)] := by rw [h.satisfies.commitment, h.secret]
  have hnullifier : s.regNullifier = poseidon (x.tagged poseidon) := by
    rw [h.satisfies.regNullifier, h.privkey, h.season, h.contextHash]
    rfl
  have hseason : s.season.val = x.season.toNat := by rw [h.season, season_val]
  have hctx : s.contextHash.val = x.contextHash := by rw [h.contextHash, ZMod.val_natCast_of_lt x.contextHash_lt]
  have hcanonical : Verifier.signalsAreCanonical s.publicSignals 5 = true := by
    simp [Verifier.signalsAreCanonical, Signals.publicSignals, Field.isCanonicalField, isCanonical_natText, ZMod.val_lt]
  have hsignals : s.publicSignals = .arr [.str (natText (poseidon [(x.secret : Scalar)]).val),
      .str (natText (poseidon (x.tagged poseidon)).val), .str (natText s.root.val), .str (natText x.season.toNat),
      .str (natText x.contextHash)] := by
    rw [Signals.publicSignals, hcommitment, hnullifier, ← hseason, ← hctx]
    rfl
  rw [hsignals] at hcanonical ⊢
  unfold decodePlonkRegistrationClaims
  rw [hcanonical]
  rfl

/-- The sum of the limbs is no multiple of the field's order. -/
theorem sum_limbs_ne_zero : (signals (privToLimbs x.d)).sum ≠ 0 := by
  have hsum : (signals (privToLimbs x.d)).sum = (((privToLimbs x.d).sum : Nat) : Scalar) := by
    rw [signals, Nat.cast_list_sum]
  have hd : x.d < 2 ^ 256 := lt_trans x.d_lt (by decide)
  have hpos := x.d_pos
  have hval : (privToLimbs x.d).sum = x.d % 2 ^ 64 + (x.d / 2 ^ 64 % 2 ^ 64 + (x.d / 2 ^ 64 / 2 ^ 64 % 2 ^ 64 +
      (x.d / 2 ^ 64 / 2 ^ 64 / 2 ^ 64 % 2 ^ 64 + 0))) := by
    rw [privToLimbs_eq]
    rfl
  have hlt : (privToLimbs x.d).sum < FIELD_PRIME := lt_prime (by rw [hval]; omega)
  rw [hsum]
  intro h
  have hz := congrArg ZMod.val h
  rw [ZMod.val_natCast_of_lt hlt, ZMod.val_zero, hval] at hz
  omega

/-- The leaves as the path builder takes them. -/
theorem elements_leaves : MerklePath.elements (x.leaves.map natText) = x.leaves.map Nat.cast := by
  rw [MerklePath.elements, List.map_map]
  apply List.map_congr_left
  intro n _
  have hv : Field.value (Nat.toDigits 10 n) = n := Nat.ofDigitChars_ten_toDigits
  simp only [Function.comp_apply, natText, String.toList_ofList, hv]

/-- The assignment that a prover computes, over the one of the path. -/
def assign (incl : MerklePath.Inclusion) : Signals where
  privkey := signals (privToLimbs x.d)
  secret := x.secret
  root := incl.root
  season := x.season.toNat
  contextHash := x.contextHash
  commitment := poseidon [(x.secret : Scalar)]
  regNullifier := poseidon (x.tagged poseidon)
  lh := keySignals P (P.point x.d)
  incl := incl

/-- The circuit admits an assignment. -/
theorem exists_proves : ∃ s, x.Proves C poseidon s := by
  let hash : Scalar → Scalar → Scalar := fun l r => poseidon [l, r]
  let leavesDec := x.leaves.map natText
  obtain ⟨incl, hincl, hleaf, hroot, -⟩ :=
    @MerklePath.path_satisfies hash TREE_DEPTH (MerklePath.elements leavesDec) x.index x.index_lt
  have hpad : PaddedTree.pad 0 (MerklePath.elements leavesDec) x.index =
      (leafFromPubkey P.hash160 (compressed (P.point x.d)) : Scalar) := by
    rw [x.elements_leaves, PaddedTree.pad, List.getElem?_map, x.holds, Option.map_some, Option.getD_some]
  have htexts : x.leafTexts = leavesDec.map String.toList := by
    rw [leafTexts, OracleLeaves.leafTexts, List.map_map]
    apply List.map_congr_left
    intro n _
    exact String.toList_ofList.symm
  have hd : x.d < 2 ^ 256 := lt_trans x.d_lt (by decide)
  refine ⟨x.assign poseidon incl, ?_, rfl, rfl, ?_, rfl, rfl⟩
  · constructor
    · exact (C.privToPub x.d x.d_pos x.d_lt _ _).2 ⟨rfl, rfl⟩
    · exact (keyHash_satisfies_iff C (P.point x.d) rfl rfl).2 rfl
    · exact hleaf.trans hpad
    · exact hincl
    · rfl
    · rfl
    · rw [C.order_eq]
      exact (C.lessThan x.d ORDER hd (by decide) 1).2 (if_pos x.d_lt).symm
    · exact (C.isZero _ 0).2 (if_neg x.sum_limbs_ne_zero).symm
    · rfl
  · have hle : leavesDec.length ≤ 2 ^ TREE_DEPTH := by
      rw [List.length_map]
      exact x.leaves_le
    rw [htexts, MerklePath.dmlRoot_eq hle]
    exact congrArg (fun r => Except.ok (Nat.toDigits 10 (ZMod.val r))) hroot.symm

/-! ## The two together -/

theorem agree_iff (root : List UInt8) (root' : Scalar) : (x.zkvmClaims poseidon root).Agree (x.plonkClaims poseidon root') ↔
    poseidon (x.tagged poseidon) = poseidon (x.untagged poseidon) := by
  constructor
  · rintro ⟨-, h, -⟩
    exact (ZMod.val_injective _ (natText_inj h)).symm
  · intro h
    exact ⟨rfl, congrArg (fun v => natText (ZMod.val v)) h.symm, rfl, rfl⟩

/-- The engines agree exactly where the two nullifiers are one element. -/
theorem enginesAgree_iff :
    EnginesAgree C poseidon x ↔ poseidon (x.tagged poseidon) = poseidon (x.untagged poseidon) := by
  constructor
  · intro h
    obtain ⟨s, hs⟩ := x.exists_proves C poseidon
    have hcommits := x.commits_journal poseidon
    obtain ⟨root, hlen, -, heq⟩ := hcommits.eq
    have hdecode : decodeZkvmRegistrationClaims (x.journal poseidon (shaRoot P x.leaves)) = .ok (x.zkvmClaims poseidon root) := by
      rw [heq, x.decode_journal poseidon hlen]
    exact (x.agree_iff poseidon _ _).1 (h _ s _ _ hcommits hs hdecode hs.decode)
  · intro h journal s zkvm plonk hcommits hs hzkvm hplonk
    obtain ⟨root, hlen, -, rfl⟩ := hcommits.eq
    rw [x.decode_journal poseidon hlen, Except.ok.injEq] at hzkvm
    rw [hs.decode, Except.ok.injEq] at hplonk
    rw [← hzkvm, ← hplonk]
    exact (x.agree_iff poseidon _ _).2 h

end Member

/-- Poseidon that tells nothing but the number of its inputs. -/
def arity : Poseidon := fun xs => (xs.length : Scalar)

theorem arity_ne {P : Primitives} (x : Member P) : arity (x.tagged arity) ≠ arity (x.untagged arity) := by
  have h4 : ((4 : Nat) : Scalar).val = 4 := ZMod.val_natCast_of_lt (lt_prime (by decide))
  have h3 : ((3 : Nat) : Scalar).val = 3 := ZMod.val_natCast_of_lt (lt_prime (by decide))
  intro h
  have hval := congrArg ZMod.val h
  rw [arity, arity, Member.tagged, Member.untagged] at hval
  simp only [List.length_cons, List.length_nil] at hval
  rw [h4, h3] at hval
  cases hval

/-- For every member and every Poseidon both engines come to claims that agree in the commitment, the season and the
context hash; in the nullifier they agree only where Poseidon meets itself over the tag. -/
theorem nullifiers_differ {P : Primitives} (C : Components P) (x : Member P) :
    (∀ poseidon : Poseidon,
      let kh := poseidon (signals (privToLimbs x.d))
      (∃ journal, x.Commits poseidon journal) ∧ (∃ s, x.Proves C poseidon s) ∧
      (∀ journal s, x.Commits poseidon journal → x.Proves C poseidon s → ∃ zkvm plonk,
        decodeZkvmRegistrationClaims journal = .ok zkvm ∧ decodePlonkRegistrationClaims s.publicSignals = .ok plonk ∧
        zkvm.commitment = plonk.commitment ∧ zkvm.season = plonk.season ∧ zkvm.contextHash = plonk.contextHash ∧
        Snapshot.shaRootFromLeaves P.sha256 TREE_DEPTH x.leafTexts = .ok zkvm.root.toList ∧
        Snapshot.dmlRootFromLeaves (MerklePath.onNat fun l r => poseidon [l, r]) TREE_DEPTH x.leafTexts =
          .ok plonk.root.toList) ∧
      (EnginesAgree C poseidon x ↔
        poseidon [TAG_SEASONAL_REGISTRATION, kh, (x.season.toNat : Scalar), (x.contextHash : Scalar)] =
          poseidon [kh, (x.season.toNat : Scalar), (x.contextHash : Scalar)])) ∧
    ¬ ∀ poseidon, EnginesAgree C poseidon x := by
  constructor
  · intro poseidon kh
    refine ⟨⟨_, x.commits_journal poseidon⟩, x.exists_proves C poseidon, ?_, x.enginesAgree_iff C poseidon⟩
    intro journal s hcommits hs
    obtain ⟨root, hlen, hroot, rfl⟩ := hcommits.eq
    refine ⟨_, _, x.decode_journal poseidon hlen, hs.decode, rfl, rfl, rfl, ?_, ?_⟩
    · rw [hroot]
      exact congrArg Except.ok String.toList_ofList.symm
    · rw [hs.root]
      exact congrArg Except.ok String.toList_ofList.symm
  · intro h
    exact arity_ne x ((x.enginesAgree_iff C arity).1 (h arity))

/-! ## A run of both -/

/-- The number that the limbs on some signals stand for. -/
def limbsValue (xs : List Scalar) : Nat := Bits.ofLimbs 64 (xs.map ZMod.val)

theorem limbsValue_signals {d : Nat} (h : d < 2 ^ 256) : limbsValue (signals (privToLimbs d)) = d := by
  have hval : (signals (privToLimbs d)).map ZMod.val = privToLimbs d := by
    rw [signals, List.map_map]
    conv_rhs => rw [← List.map_id (privToLimbs d)]
    apply List.map_congr_left
    intro v hv
    exact ZMod.val_natCast_of_lt (lt_prime (lt_trans (limb_lt hv) (by decide)))
  rw [limbsValue, hval, privToLimbs_eq]
  exact Bits.ofLimbs_limbs 64 4 h

/-- The bits on some signals. -/
def signalBits (xs : List Scalar) : List Bool := xs.map fun v => decide (v = 1)

theorem signalBits_bitSignals (bits : List Bool) : signalBits (bitSignals bits) = bits := by
  rw [signalBits, bitSignals, List.map_map]
  conv_rhs => rw [← List.map_id bits]
  apply List.map_congr_left
  intro b _
  cases b <;> simp

/-- The components, each as a function of its inputs. -/
def documented (P : Primitives) : Components P where
  ECDSAPrivToPub k x y :=
    x = signals (privToLimbs (P.point (limbsValue k)).1) ∧ y = signals (privToLimbs (P.point (limbsValue k)).2)
  BigLessThan a b out := out = if limbsValue a < limbsValue b then 1 else 0
  order := signals (privToLimbs ORDER)
  IsZero a out := out = if a = 0 then 1 else 0
  Num2Bits n v out := out = bitSignals (Bits.ofNat n v.val)
  Bits2Num bits out := out = (Bits.toNat (signalBits bits) : Scalar)
  Sha256 bits out := out = bitSignals (Bits.ofBytes (P.sha256 (Bits.toBytes (signalBits bits))))
  Ripemd160 bits out := out = bitSignals (Bits.ofBytes (P.ripemd160 (Bits.toBytes (signalBits bits))))
  privToPub d _ hd x y := by rw [limbsValue_signals (lt_trans hd (by decide))]
  lessThan a b ha hb out := by rw [limbsValue_signals ha, limbsValue_signals hb]
  order_eq := rfl
  isZero a out := Iff.rfl
  num2Bits v hv out := by rw [ZMod.val_natCast_of_lt (lt_prime (lt_trans hv (by decide)))]
  bits2Num bits _ out := by rw [signalBits_bitSignals]
  sha256 bytes _ out := by rw [signalBits_bitSignals, Bits.toBytes_ofBytes]
  ripemd160 bytes _ out := by rw [signalBits_bitSignals, Bits.toBytes_ofBytes]

/-- The generator, and the two hashes of its encoding, for every input. -/
def generator : Primitives where
  sha256 _ := toBE 32 0x0f715baf5d4c2ed329785cef29e562f73488c8a2bb9dbc5700b361d54b9b0554
  ripemd160 _ := toBE 20 0x751e76e8199196d454941c45d1b3a323f1433bd6
  point _ := (0x79be667ef9dcbbac55a06295ce870b07029bfcdb2dce28d959f2815b16f81798,
    0x483ada7726a3c4655da4fbfc0e1108a8fd17b448a68554199c47d08ffb10d4b8)
  sha256_length _ := length_toBE 32 _
  ripemd160_length _ := length_toBE 20 _
  point_lt _ := ⟨by decide, by decide⟩

/-- The member with the key 1. -/
def keyOne : Member generator where
  d := 1
  secret := 1
  season := 7
  contextHash := 5
  leaves := [0x751e76e8199196d454941c45d1b3a323f1433bd6]
  index := 0
  d_pos := by decide
  d_lt := by decide
  secret_lt := by decide
  contextHash_lt := by decide
  leaf_lt := by decide
  leaves_le := by decide
  holds := congrArg some (bigEndian_toBE (by decide)).symm

/-- The key 1 registers once through each engine. -/
theorem keyOne_nullifiers : ∃ journal s zkvm plonk, keyOne.Commits arity journal ∧ keyOne.Proves (documented generator) arity s ∧
    decodeZkvmRegistrationClaims journal = .ok zkvm ∧ decodePlonkRegistrationClaims s.publicSignals = .ok plonk ∧
    zkvm.regNullifier = "3" ∧ plonk.regNullifier = "4" ∧ ¬ zkvm.Agree plonk := by
  have h4 : ((4 : Nat) : Scalar).val = 4 := ZMod.val_natCast_of_lt (lt_prime (by decide))
  have h3 : ((3 : Nat) : Scalar).val = 3 := ZMod.val_natCast_of_lt (lt_prime (by decide))
  obtain ⟨s, hs⟩ := keyOne.exists_proves (documented generator) arity
  have hcommits := keyOne.commits_journal arity
  obtain ⟨root, hlen, -, heq⟩ := hcommits.eq
  rw [heq] at hcommits
  refine ⟨_, s, _, _, hcommits, hs, keyOne.decode_journal arity hlen, hs.decode, ?_, ?_, ?_⟩
  · exact (congrArg natText h3).trans (by decide)
  · exact (congrArg natText h4).trans (by decide)
  · rw [keyOne.agree_iff]
    exact arity_ne keyOne

end RegistrationEngines
