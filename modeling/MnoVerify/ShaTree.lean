import MnoVerify.RegistrationEnginesSound

/-!
# The SHA-256 tree

`common/dml_sha_root.js` against the full tree over padded key ids, and against the loop of the guest. `keyIdOfHex` is
`leafToKeyId` with its hexadecimal text. `sha_tree`: the sparse build, the full tree and the guest's loop have one root, and
two lists under one root pad to the same key ids or a collision was hashed.
-/

namespace ShaTree

open OracleLeaves (bigEndian leafFromPubkey votingAddressToLeaf)
open PaddedTree (node pad siblingOf walk)
open RegistrationEngines
open Snapshot (hexOf leafHash nodeHash)

/-! ## Key ids -/

/-- `padStart(k, "0")` -/
def padStart (k : Nat) (s : List Char) : List Char := List.replicate (k - s.length) '0' ++ s

/-- `leafToKeyId`, by its hexadecimal text. -/
def keyIdOfHex (leaf : List Char) : Except String (List UInt8) :=
  let hex := padStart 40 (Nat.toDigits 16 (Field.value leaf))
  if hex.length ≠ 40 then .error ("leaf exceeds 20 bytes: " ++ String.ofList leaf) else .ok (Bytes.fromHex hex)

/-- The last digit, behind the others padded. -/
theorem padStart_succ {k : Nat} (hk : 0 < k) (n : Nat) :
    padStart (k + 1) (Nat.toDigits 16 n) = padStart k (Nat.toDigits 16 (n / 16)) ++ [Nat.digitChar (n % 16)] := by
  by_cases h : n < 16
  · obtain ⟨j, rfl⟩ : ∃ j, k = j + 1 := ⟨k - 1, by omega⟩
    rw [Nat.div_eq_of_lt h, Nat.mod_eq_of_lt h, Nat.toDigits_of_lt_base h, Nat.toDigits_zero, padStart, padStart,
      List.length_singleton, List.length_singleton, Nat.add_sub_cancel, Nat.add_sub_cancel, List.replicate_succ']
  · have hd : Nat.toDigits 16 n = Nat.toDigits 16 (n / 16) ++ [Nat.digitChar (n % 16)] := by
      rw [← Nat.toDigits_of_lt_base (Nat.mod_lt n (by decide)), Nat.toDigits_append_toDigits (by decide) (by omega)
        (Nat.mod_lt n (by decide)), Nat.div_add_mod]
    rw [hd, padStart, padStart, List.length_append, List.length_singleton, Nat.add_sub_add_right, List.append_assoc]

theorem toHex_append (a b : List UInt8) : Bytes.toHex (a ++ b) = Bytes.toHex a ++ Bytes.toHex b := by
  induction a with
  | nil => rfl
  | cons x a ih => rw [List.cons_append, Bytes.toHex, Bytes.toHex, ih, List.cons_append, List.cons_append]

theorem toHex_byte {n : Nat} (h : n < 256) : Bytes.toHex [Utf8.byte n] = [Nat.digitChar (n / 16), Nat.digitChar (n % 16)] := by
  rw [Bytes.toHex, Utf8.toNat_byte h]
  rfl

/-- The text of some bytes is the padded text of their number. -/
theorem toHex_toBE : ∀ (k : Nat) {n : Nat}, n < 256 ^ (k + 1) →
    Bytes.toHex (toBE (k + 1) n) = padStart (2 * (k + 1)) (Nat.toDigits 16 n)
  | 0, n, h => by
    have hn : n < 256 := by simpa using h
    have hp : padStart 1 (Nat.toDigits 16 (n / 16)) = [Nat.digitChar (n / 16)] := by
      rw [Nat.toDigits_of_lt_base (by omega)]
      rfl
    rw [show 2 * (0 + 1) = 1 + 1 by rfl, padStart_succ Nat.one_pos, hp]
    rw [toBE, Bytes.toLE, Nat.mod_eq_of_lt hn]
    exact toHex_byte hn
  | k + 1, n, h => by
    have hlt : n / 256 < 256 ^ (k + 1) := by
      rw [Nat.div_lt_iff_lt_mul (by decide), ← Nat.pow_succ]
      exact h
    have hb : n % 256 < 256 := Nat.mod_lt n (by decide)
    have hto : toBE (k + 1 + 1) n = toBE (k + 1) (n / 256) ++ [Utf8.byte (n % 256)] := by
      rw [toBE, Bytes.toLE, List.reverse_cons, ← toBE]
    rw [hto, toHex_append, toHex_toBE k hlt, toHex_byte hb, show 2 * (k + 1 + 1) = 2 * (k + 1) + 1 + 1 by omega,
      padStart_succ (by omega), padStart_succ (by omega), Nat.div_div_eq_div_mul, List.append_assoc,
      show n % 256 / 16 = n / 16 % 16 by omega, show n % 256 % 16 = n % 16 by omega]
    rfl

theorem keyIdOfHex_eq (leaf : List Char) : keyIdOfHex leaf = Snapshot.leafToKeyId leaf := by
  have hlen : (padStart 40 (Nat.toDigits 16 (Field.value leaf))).length = max 40 (Nat.toDigits 16 (Field.value leaf)).length := by
    rw [padStart, List.length_append, List.length_replicate]
    omega
  have hbound : (Nat.toDigits 16 (Field.value leaf)).length ≤ 40 ↔ Field.value leaf < 256 ^ 20 := by
    rw [Nat.length_toDigits_le_iff (by decide) (by decide)]
    rfl
  by_cases h : Field.value leaf < 256 ^ 20
  · have h40 := hbound.2 h
    rw [keyIdOfHex]
    rw [if_neg (by omega), ← toHex_toBE 19 h, Bytes.fromHex_toHex, leafToKeyId_ok h]
  · have h40 := fun hle => h (hbound.1 hle)
    rw [keyIdOfHex, Snapshot.leafToKeyId]
    rw [if_pos (by omega), if_neg h]

/-- A key id comes back from its leaf, its leading zeros too. -/
theorem leafToKeyId_bigEndian {keyId : List UInt8} (h : keyId.length = 20) :
    Snapshot.leafToKeyId (Nat.toDigits 10 (bigEndian keyId)) = .ok keyId := by
  rw [leafToKeyId_eq (bigEndian_lt h), toBE_bigEndian h]

/-! ## The full tree -/

def zeroKeyId : List UInt8 := List.replicate 20 0

/-- The key id of a leaf text. -/
def keyId (leaf : List Char) : List UInt8 := toBE 20 (Field.value leaf)

section
variable (P : Primitives)

/-- The leaf hashes of the padded key ids. -/
def paddedLeaf (keyIds : List (List UInt8)) (i : Nat) : List UInt8 := leafHash P.sha256 (pad zeroKeyId keyIds i)

/-- The root of the full tree of a depth over the padded key ids. -/
def fullRoot (depth : Nat) (keyIds : List (List UInt8)) : List UInt8 := node (nodeHash P.sha256) (paddedLeaf P keyIds) depth 0

/-- The siblings on the way up from a leaf, each with the bit of the index. -/
def siblingPath (depth : Nat) (keyIds : List (List UInt8)) (i : Nat) : List (List UInt8 × UInt8) :=
  (List.range depth).map fun l => (siblingOf (nodeHash P.sha256) (paddedLeaf P keyIds) i l, if i / 2 ^ l % 2 = 1 then 1 else 0)

/-- What is hashed in the full tree. -/
inductive Input (depth : Nat) (keyIds : List (List UInt8)) : List UInt8 → Prop
  | leaf {i : Nat} (h : i < 2 ^ depth) : Input depth keyIds (0 :: pad zeroKeyId keyIds i)
  | node {p : List UInt8 × List UInt8} (h : PaddedTree.Hashed (nodeHash P.sha256) (paddedLeaf P keyIds) depth p) :
    Input depth keyIds (1 :: (p.1 ++ p.2))

/-- Two different inputs of two trees have one digest. -/
def Collision (depth : Nat) (xs ys : List (List UInt8)) : Prop :=
  ∃ a b, Input P depth xs a ∧ Input P depth ys b ∧ a ≠ b ∧ P.sha256 a = P.sha256 b

theorem fullRoot_eq (depth : Nat) (keyIds : List (List UInt8)) :
    PaddedTree.root (nodeHash P.sha256) (emptyHash P) depth (keyIds.map (leafHash P.sha256)) = fullRoot P depth keyIds := by
  have hpad : pad (emptyHash P) (keyIds.map (leafHash P.sha256)) = paddedLeaf P keyIds :=
    funext fun i => (PaddedTree.pad_map (leafHash P.sha256) zeroKeyId keyIds i).symm
  rw [PaddedTree.root, hpad, fullRoot]

theorem shaRootFromLeaves_full {depth : Nat} {leaves : List (List Char)} (hlt : ∀ leaf ∈ leaves, Field.value leaf < 2 ^ 160)
    (hle : leaves.length ≤ 2 ^ depth) :
    Snapshot.shaRootFromLeaves P.sha256 depth leaves = .ok (hexOf (fullRoot P depth (leaves.map keyId))) := by
  rw [shaRootFromLeaves_ok P hlt hle, fullRoot_eq]
  rfl

/-- The guest's loop goes up from every leaf of the tree to the root. -/
theorem climb_siblingPath {depth i : Nat} (keyIds : List (List UInt8)) (hi : i < 2 ^ depth) :
    climb P (siblingPath P depth keyIds i) (paddedLeaf P keyIds i) = .ok (fullRoot P depth keyIds) := by
  have hclimb := climb_range P (fun l => decide (i / 2 ^ l % 2 = 1)) (siblingOf (nodeHash P.sha256) (paddedLeaf P keyIds) i)
    (paddedLeaf P keyIds i) depth 0
  have hwalk := PaddedTree.walk_siblings (nodeHash P.sha256) (paddedLeaf P keyIds) i depth
  rw [Nat.div_eq_of_lt hi] at hwalk
  rw [Nat.zero_add, hwalk, walk, ← List.range_eq_range'] at hclimb
  simp only [decide_eq_true_eq] at hclimb
  exact hclimb

theorem length_paddedNode (keyIds : List (List UInt8)) : ∀ l i, (node (nodeHash P.sha256) (paddedLeaf P keyIds) l i).length = 32
  | 0, _ => P.sha256_length _
  | _ + 1, _ => P.sha256_length _

/-- Under one root, and without a collision, the padded key ids are the same. -/
theorem padded_eq_or_collision {depth : Nat} {xs ys : List (List UInt8)} (h : fullRoot P depth xs = fullRoot P depth ys) :
    (∀ i < 2 ^ depth, pad zeroKeyId xs i = pad zeroKeyId ys i) ∨ Collision P depth xs ys := by
  by_cases hc : Collision P depth xs ys
  · exact Or.inr hc
  have inj : ∀ a b, Input P depth xs a → Input P depth ys b → P.sha256 a = P.sha256 b → a = b := fun a b ha hb hab => by
    by_contra hne
    exact hc ⟨a, b, ha, hb, hne, hab⟩
  have hleaves := PaddedTree.leaves_eq_of_node_eq (nodeHash P.sha256) (fun p q hp hq hpq => by
    have heq := inj _ _ (.node hp) (.node hq) hpq
    obtain ⟨l, i, -, -, rfl⟩ := hp
    obtain ⟨m, j, -, -, rfl⟩ := hq
    rw [List.cons.injEq] at heq
    obtain ⟨hl, hr⟩ := List.append_inj heq.2 (by rw [length_paddedNode, length_paddedNode])
    exact Prod.ext hl hr) h
  refine Or.inl fun i hi => ?_
  have heq := inj _ _ (.leaf hi) (.leaf hi) (hleaves i hi)
  rw [List.cons.injEq] at heq
  exact heq.2

end

/-! ## The two encodings of a key -/

theorem votingAddressToLeaf_ok {bs58check : List Char → Except String (List UInt8)} {address : String} {version : UInt8}
    {keyId : List UInt8} (h : bs58check address.toList = .ok (version :: keyId)) (hlen : keyId.length = 20) :
    votingAddressToLeaf bs58check address = .ok (bigEndian keyId) := by
  rw [votingAddressToLeaf, h]
  cases keyId with
  | nil => cases hlen
  | cons b keyId => rfl

/-- Canonical leaves below `2 ^ 160`. -/
def Leaves (leaves : List (List Char)) : Prop := ∀ leaf ∈ leaves, Field.isCanonical leaf = true ∧ Field.value leaf < 2 ^ 160

theorem sha_tree (P : Primitives) :
    (∀ leaf, keyIdOfHex leaf = Snapshot.leafToKeyId leaf) ∧
      (∀ (depth : Nat) (leaves : List (List Char)), Leaves leaves → leaves.length ≤ 2 ^ depth →
        Snapshot.shaRootFromLeaves P.sha256 depth leaves = .ok (hexOf (fullRoot P depth (leaves.map keyId)))) ∧
      (∀ (leaves : List (List Char)) (i : Nat), i < 2 ^ TREE_DEPTH →
        climb P (siblingPath P TREE_DEPTH (leaves.map keyId) i)
          (leafHash P.sha256 (pad zeroKeyId (leaves.map keyId) i)) = .ok (fullRoot P TREE_DEPTH (leaves.map keyId))) ∧
      (∀ (depth : Nat) (xs ys : List (List Char)), Leaves xs → Leaves ys → xs.length ≤ 2 ^ depth → ys.length ≤ 2 ^ depth →
        Snapshot.shaRootFromLeaves P.sha256 depth xs = Snapshot.shaRootFromLeaves P.sha256 depth ys →
        (∀ i < 2 ^ depth, pad zeroKeyId (xs.map keyId) i = pad zeroKeyId (ys.map keyId) i) ∨
          Collision P depth (xs.map keyId) (ys.map keyId)) ∧
      (∀ keyId : List UInt8, keyId.length = 20 → Snapshot.leafToKeyId (Nat.toDigits 10 (bigEndian keyId)) = .ok keyId) ∧
      (∀ key : List UInt8, Snapshot.leafToKeyId (Nat.toDigits 10 (leafFromPubkey P.hash160 key)) = .ok (P.hash160 key)) ∧
      ∀ (bs58check : List Char → Except String (List UInt8)) (address : String) (version : UInt8) (keyId : List UInt8),
        bs58check address.toList = .ok (version :: keyId) → keyId.length = 20 →
        ∃ leaf, votingAddressToLeaf bs58check address = .ok leaf ∧ Snapshot.leafToKeyId (Nat.toDigits 10 leaf) = .ok keyId := by
  have full : ∀ {depth leaves}, Leaves leaves → leaves.length ≤ 2 ^ depth →
      Snapshot.shaRootFromLeaves P.sha256 depth leaves = .ok (hexOf (fullRoot P depth (leaves.map keyId))) := fun h hle =>
    shaRootFromLeaves_full P (fun leaf hleaf => (h leaf hleaf).2) hle
  refine ⟨keyIdOfHex_eq, fun depth leaves => full, fun leaves i hi => climb_siblingPath P _ hi, ?_,
    fun keyId => leafToKeyId_bigEndian, fun key => leafToKeyId_bigEndian (P.ripemd160_length _), ?_⟩
  · intro depth xs ys hx hy hlx hly h
    rw [full hx hlx, full hy hly, Except.ok.injEq, Refresh.hexOf_eq_toHex, Refresh.hexOf_eq_toHex] at h
    exact padded_eq_or_collision P (Bytes.toHex_inj h)
  · intro bs58check address version keyId h hlen
    exact ⟨_, votingAddressToLeaf_ok h hlen, leafToKeyId_bigEndian hlen⟩

/-- One leaf, the key id of a leading zero byte, at depth 1. -/
theorem sha_tree_one : Snapshot.shaRootFromLeaves generator.sha256 1 [['7']] = .ok (hexOf (fullRoot generator 1 [keyId ['7']])) :=
  (sha_tree generator).2.1 1 [['7']] (fun leaf h => by
    rw [List.mem_singleton.1 h]
    decide) (by decide)

end ShaTree
