import MnoVerify.CircuitsSound
import MnoVerify.MerklePathSound
import MnoVerify.Prover
import MnoVerify.VerifierSound

/-!
# What the provers make is accepted

A key whose leaf is in the list, over the root of the list, and a secret whose commitment is in the members tree, make
inputs that satisfy their circuit, and signals that pass every check of the gateway before the proof.
-/

namespace Prover

open Circuits (Membership Members)
open Field (Scalar FIELD_PRIME)
open MerklePath (circomlib merklePathFor elements siblings bits path_satisfies merklePathFor_eq elements_eq dmlRoot_eq)
open RegistrationEngines (Components KeyHash Poseidon Primitives ORDER TREE_DEPTH compressed privToLimbs signals keySignals
  keyHash_satisfies_iff)
open Snapshot (natText)

/-! ## Texts -/

theorem signal_natText (n : Nat) : signal (natText n) = (n : Scalar) := by
  have hv : Field.value (Nat.toDigits 10 n) = n := Nat.ofDigitChars_ten_toDigits
  rw [signal, natText, String.toList_ofList, hv]

theorem natText_signal {text : String} (h : Field.isCanonical text.toList = true) : natText (signal text).val = text := by
  rw [signal, ZMod.val_natCast_of_lt (Field.value_lt_of_isCanonical h), natText,
    Field.toDigits_value (Field.isDecimal_of_isCanonical h), String.ofList_toList]

theorem isCanonical_val (v : Scalar) : Field.isCanonical (natText v.val).toList = true := by
  rw [natText, String.toList_ofList]
  exact Field.isCanonical_toDigits (ZMod.val_lt v)

/-- The text of a field element as what the gateway reads. -/
def element (v : Scalar) : Element := ⟨natText v.val, isCanonical_val v⟩

theorem element_publicSignal (v : Scalar) : Verifier.element (.str (natText v.val)) = some (element v) := by
  rw [Verifier.element, dif_pos (isCanonical_val v)]
  rfl

theorem readSignals_publicSignals (n r e c s : Scalar) : Verifier.readSignals (publicSignals [n, r, e, c, s]) =
    some ⟨element n, element r, element e, element c, element s⟩ := by
  simp [publicSignals, Verifier.readSignals, element_publicSignal]

/-- Signals of a challenge over a recent root pass every check before the proof. -/
theorem start_accepts {ρ : Type} {expected : Verifier.Expected} {challenge : Challenge} (he : Expects expected challenge)
    (hc : challenge.Canonical) (n : Scalar) {r : Scalar} (hr : expected.isRecent (natText r.val) = true)
    (store : NullifierStore) {env : Verifier.Env ρ} (henv : env.readThrows = none) :
    ∃ c, Verifier.start store (publicSignals [n, r, signal challenge.epoch, signal challenge.contextHash,
      signal challenge.signalHash]) expected env = .ok c ∧ c.tag = ⟨element (signal challenge.epoch),
        element (signal challenge.contextHash), element n⟩ ∧ ∃ spent, c.pc = .has spent := by
  obtain ⟨account, haccount, hne⟩ := he.account
  rw [Verifier.start, readSignals_publicSignals]
  simp only [haccount]
  rw [if_neg hne, if_neg (by simp [element, hr]), if_neg (by simp [element, natText_signal hc.epoch, he.epoch]),
    if_neg (by simp [element, natText_signal hc.contextHash, he.contextHash]),
    if_neg (by simp [element, natText_signal hc.signalHash, he.signalHash])]
  refine ⟨_, rfl, ?_⟩
  rw [Verifier.Call.readBeforeSpend, henv]
  exact ⟨rfl, _, rfl⟩

/-! ## The single tier -/

variable {P : Primitives} (C : Components P) (poseidon : Poseidon)

theorem sum_eq_zero {xs : List Nat} (hlt : ∀ v ∈ xs, v < 2 ^ 64) (hlen : xs.length ≤ 4) :
    (signals xs).sum = 0 ↔ ∀ v ∈ xs, v = 0 := by
  have hsum : (signals xs).sum = ((xs.sum : Nat) : Scalar) := by rw [signals, Nat.cast_list_sum]
  have hle : xs.sum ≤ xs.length * 2 ^ 64 := by
    have h := List.sum_le_card_nsmul xs (2 ^ 64) fun v hv => le_of_lt (hlt v hv)
    simpa using h
  have hprime : xs.sum < FIELD_PRIME := by
    have h4 : xs.length * 2 ^ 64 ≤ 4 * 2 ^ 64 := Nat.mul_le_mul_right _ hlen
    exact lt_of_le_of_lt (le_trans hle h4) (by decide)
  rw [hsum, ← List.sum_eq_zero_iff]
  constructor
  · intro h
    have hval := congrArg ZMod.val h
    rwa [ZMod.val_natCast_of_lt hprime, ZMod.val_zero] at hval
  · intro h
    rw [h, Nat.cast_zero]

/-- The assignment over a key and a path. -/
def assignMembership (P : Primitives) (poseidon : Poseidon) (key : VotingKey) (incl : MerklePath.Inclusion)
    (epoch contextHash signalHash : Scalar) : Membership where
  privkey := signals (privToLimbs key.d)
  root := incl.root
  epoch := epoch
  contextHash := contextHash
  signalHash := signalHash
  nullifier := poseidon [Circuits.TAG_SINGLE_TIER_ADMISSION, poseidon (signals (privToLimbs key.d)), epoch, contextHash]
  lh := keySignals P (P.point key.d)
  incl := incl
  sq := signalHash * signalHash

theorem assignMembership_satisfies (key : VotingKey) {incl : MerklePath.Inclusion}
    (hincl : incl.Satisfies (pair poseidon) TREE_DEPTH) (hleaf : incl.leaf = (leafFromPriv P key : Scalar))
    (epoch contextHash signalHash : Scalar) :
    (assignMembership P poseidon key incl epoch contextHash signalHash).Satisfies C poseidon := by
  have hd : key.d < 2 ^ 256 := lt_trans key.d_lt (by decide)
  have hsum : (signals (privToLimbs key.d)).sum ≠ 0 := by
    intro h
    rw [sum_eq_zero (fun v hv => RegistrationEngines.limb_lt hv) (by simp [privToLimbs])] at h
    have hpos := key.d_pos
    have hlimb : ∀ i < 4, key.d / 2 ^ (64 * i) % 2 ^ 64 = 0 := fun i hi =>
      h _ (List.mem_map_of_mem (List.mem_range.2 hi))
    have h0 := hlimb 0 (by omega)
    have h1 := hlimb 1 (by omega)
    have h2 := hlimb 2 (by omega)
    have h3 := hlimb 3 (by omega)
    omega
  constructor
  · exact (C.privToPub key.d key.d_pos key.d_lt _ _).2 ⟨rfl, rfl⟩
  · exact (keyHash_satisfies_iff C (P.point key.d) rfl rfl).2 rfl
  · exact hleaf
  · exact hincl
  · rfl
  · rw [C.order_eq]
    exact (C.lessThan key.d ORDER hd (by decide) 1).2 (if_pos key.d_lt).symm
  · exact (C.isZero _ 0).2 (if_neg hsum).symm
  · rfl
  · rfl

/-- The path of a leaf that the list holds, and an assignment of the inclusion over it. -/
theorem path_ok {leaves : List String} (hcanonical : ∀ c ∈ leaves, Field.isCanonical c.toList = true)
    (hle : leaves.length ≤ 2 ^ TREE_DEPTH) {leaf : String} (hmem : leaf ∈ leaves) :
    ∃ index path, ∃ incl : MerklePath.Inclusion, leaves.idxOf? leaf = some index ∧
      merklePathFor (circomlib (pair poseidon)) leaves (.dec (.ofNat index)) TREE_DEPTH = .ok path ∧
      path.root = (PaddedTree.root (pair poseidon) 0 TREE_DEPTH (elements leaves)).val ∧
      incl.Satisfies (pair poseidon) TREE_DEPTH ∧ incl.leaf = signal leaf ∧
      incl.root = PaddedTree.root (pair poseidon) 0 TREE_DEPTH (elements leaves) ∧
      ∀ l < TREE_DEPTH, path.pathElements[l]? = some (incl.pathElements l).val ∧
        path.pathIndices[l]? = some (incl.pathIndices l).val := by
  obtain ⟨index, hindex⟩ : ∃ index, leaves.idxOf? leaf = some index := by
    cases h : leaves.idxOf? leaf with
    | none => exact absurd hmem (List.idxOf?_eq_none_iff.1 h)
    | some index => exact ⟨index, rfl⟩
  obtain ⟨hlt, hget, -⟩ := List.idxOf?_eq_some_iff.1 hindex
  obtain ⟨incl, hincl, hleaf, hroot, hpath⟩ :=
    @path_satisfies (pair poseidon) TREE_DEPTH (elements leaves) index (Nat.lt_of_lt_of_le hlt hle)
  refine ⟨index, _, incl, hindex, merklePathFor_eq (elements_eq hcanonical) hle hlt, ?_, hincl, ?_, hroot, hpath⟩
  · simp only [circomlib, Int.cast_zero]
  · have hget? : leaves[index]? = some leaf := by rw [List.getElem?_eq_getElem hlt, hget]
    rw [hleaf, PaddedTree.pad, elements, List.getElem?_map, hget?]
    rfl

theorem node_first (g : Nat → Scalar) : ∀ l, PaddedTree.node (pair Circuits.first) g l 0 = g 0 := by
  intro l
  induction l with
  | zero => rfl
  | succ l ih => simpa [PaddedTree.node, pair, Circuits.first] using ih

/-- A list of one leaf hashes to that leaf. -/
theorem root_first {leaf : String} (h : Field.isCanonical leaf.toList = true) :
    (PaddedTree.root (pair Circuits.first) 0 TREE_DEPTH (elements [leaf])).val = Field.value leaf.toList := by
  rw [PaddedTree.root, node_first]
  exact ZMod.val_natCast_of_lt (Field.value_lt_of_isCanonical h)

def challengeOne (root : String) : Challenge := ⟨root, "3", "4", "5"⟩

theorem challengeOne_canonical (root : String) : (challengeOne root).Canonical where
  epoch := show Field.isCanonical "3".toList = true by decide
  contextHash := show Field.isCanonical "4".toList = true by decide
  signalHash := show Field.isCanonical "5".toList = true by decide

def expectedOne (root : String) : Verifier.Expected := ⟨some "alice", fun r => decide (r = root), "3", "4", "5", true⟩

theorem expectedOne_expects (root : String) : Expects (expectedOne root) (challengeOne root) :=
  ⟨⟨"alice", rfl, by decide⟩, rfl, rfl, rfl⟩

theorem expectedOne_isRecent (root : String) : (expectedOne root).isRecent root = true := by simp [expectedOne]

theorem one_lt_order : 1 < ORDER := by decide

def keyOne : VotingKey := ⟨1, Nat.one_pos, one_lt_order⟩

/-- The text of the leaf of the generator. -/
def leafOne : String := natText (leafFromPriv RegistrationEngines.generator keyOne)

theorem leafFromPubkey_lt (P : Primitives) (p : Nat × Nat) : OracleLeaves.leafFromPubkey P.hash160 (compressed p) < FIELD_PRIME := by
  have h := RegistrationEngines.bigEndian_lt (P.ripemd160_length (P.sha256 (compressed p)))
  exact lt_trans h (by decide)

/-- The leaf of a key that a list admits is one of its leaves, or the empty leaf. -/
theorem leaf_mem {p : Nat × Nat} {leaves : List String} (hcanonical : ∀ c ∈ leaves, Field.isCanonical c.toList = true)
    (hle : leaves.length ≤ 2 ^ TREE_DEPTH) {lh : KeyHash} (hlh : lh.Satisfies C) (hx : lh.x = signals (privToLimbs p.1))
    (hy : lh.y = signals (privToLimbs p.2)) {incl : MerklePath.Inclusion} (hleaf : incl.leaf = lh.out)
    (hincl : incl.Satisfies (pair poseidon) TREE_DEPTH)
    (hroot : Snapshot.dmlRootFromLeaves (MerklePath.onNat (pair poseidon)) TREE_DEPTH (leaves.map String.toList) =
      .ok (Nat.toDigits 10 incl.root.val))
    (hfree : MerklePath.NoCollision (pair poseidon) TREE_DEPTH (elements leaves) incl) :
    natText (OracleLeaves.leafFromPubkey P.hash160 (compressed p)) ∈ leaves ∨
      OracleLeaves.leafFromPubkey P.hash160 (compressed p) = 0 := by
  rw [dmlRoot_eq hle, Except.ok.injEq] at hroot
  have hval : (PaddedTree.root (pair poseidon) 0 TREE_DEPTH (elements leaves)).val = incl.root.val := by
    have h := congrArg Field.value hroot
    rwa [Field.value, Field.value, Nat.ofDigitChars_ten_toDigits, Nat.ofDigitChars_ten_toDigits] at h
  have hpin := hincl.leaf_eq (ZMod.val_injective _ hval.symm) hfree
  have hout : lh.out = (OracleLeaves.leafFromPubkey P.hash160 (compressed p) : Scalar) := by
    rw [(keyHash_satisfies_iff C p hx hy).1 hlh]
    rfl
  rw [hleaf, hout, PaddedTree.pad, elements, List.getElem?_map] at hpin
  have hnat := congrArg ZMod.val hpin
  rw [ZMod.val_natCast_of_lt (leafFromPubkey_lt P p)] at hnat
  by_cases hi : incl.index TREE_DEPTH < leaves.length
  · rw [List.getElem?_eq_getElem hi, Option.map_some, Option.getD_some] at hnat
    have hmem := List.getElem_mem hi
    left
    rw [hnat]
    have htext : natText (signal leaves[incl.index TREE_DEPTH]).val = leaves[incl.index TREE_DEPTH] :=
      natText_signal (hcanonical _ hmem)
    rw [signal] at htext
    rw [htext]
    exact hmem
  · rw [List.getElem?_eq_none (not_lt.1 hi), Option.map_none, Option.getD_none, ZMod.val_zero] at hnat
    exact Or.inr hnat

/-- Over the root of a list, whatever satisfies the circuit of either heavy proof knows a key whose leaf is in the list, or
hashes to the empty leaf; the nullifier is that key's. -/
theorem key_on_list (hr : Circuits.RangeChecked C) {leaves : List String}
    (hcanonical : ∀ c ∈ leaves, Field.isCanonical c.toList = true) (hle : leaves.length ≤ 2 ^ TREE_DEPTH) {root : Scalar}
    (hroot : Snapshot.dmlRootFromLeaves (MerklePath.onNat (pair poseidon)) TREE_DEPTH (leaves.map String.toList) =
      .ok (Nat.toDigits 10 root.val)) :
    let Listed := fun d => 0 < d ∧ d < ORDER ∧ (natText (OracleLeaves.leafFromPubkey P.hash160 (compressed (P.point d))) ∈ leaves ∨
      OracleLeaves.leafFromPubkey P.hash160 (compressed (P.point d)) = 0)
    (∀ s : Membership, s.Satisfies C poseidon → s.root = root →
      MerklePath.NoCollision (pair poseidon) TREE_DEPTH (elements leaves) s.incl → ∃ d, Listed d ∧
        s.nullifier = poseidon [Circuits.TAG_SINGLE_TIER_ADMISSION, poseidon (signals (privToLimbs d)), s.epoch, s.contextHash]) ∧
    ∀ s : RegistrationEngines.Signals, s.Satisfies C poseidon → s.root = root →
      MerklePath.NoCollision (pair poseidon) TREE_DEPTH (elements leaves) s.incl → ∃ d, Listed d ∧
        s.regNullifier = poseidon [RegistrationEngines.TAG_SEASONAL_REGISTRATION, poseidon (signals (privToLimbs d)), s.season,
          s.contextHash] := by
  intro Listed
  constructor
  · intro s hs hsroot hfree
    obtain ⟨d, hd, hlt, hprivkey, hx, hy⟩ := hs.key hr
    have hmem := leaf_mem C poseidon hcanonical hle hs.lh hx hy hs.leaf hs.incl (by rw [hs.root, hsroot]; exact hroot) hfree
    refine ⟨d, ⟨hd, hlt, hmem⟩, ?_⟩
    rw [hs.nullifier, hprivkey]
  · intro s hs hsroot hfree
    obtain ⟨d, hd, hlt, hprivkey, hx, hy⟩ := Circuits.registration_key hr hs
    have hmem := leaf_mem C poseidon hcanonical hle hs.lh hx hy hs.leaf hs.incl (by rw [hs.root, hsroot]; exact hroot) hfree
    refine ⟨d, ⟨hd, hlt, hmem⟩, ?_⟩
    rw [hs.regNullifier, hprivkey]

theorem node_first_eq (g : Nat → Scalar) : ∀ l i, PaddedTree.node (pair Circuits.first) g l i = g (i * 2 ^ l) := by
  intro l
  induction l with
  | zero => intro i; rw [pow_zero, Nat.mul_one]; rfl
  | succ l ih =>
    intro i
    rw [pow_succ, show i * (2 ^ l * 2) = 2 * i * 2 ^ l by ring, ← ih]
    rfl

/-- The path of the only leaf of a list. -/
def onlyPath (leaf : Scalar) : MerklePath.Inclusion :=
  MerklePath.assign (pair Circuits.first) TREE_DEPTH leaf (fun _ => 0) fun _ => false

theorem onlyPath_cur (leaf : Scalar) : ∀ l, (onlyPath leaf).cur l = leaf := by
  intro l
  induction l with
  | zero => rfl
  | succ l ih => exact ih

theorem onlyPath_noCollision {leaf : String} (h : signal leaf ≠ 0) :
    MerklePath.NoCollision (pair Circuits.first) TREE_DEPTH (elements [leaf]) (onlyPath (signal leaf)) := by
  intro p hp i hi heq
  obtain ⟨l, j, hl, hj, rfl⟩ := hp
  have hleft : (onlyPath (signal leaf)).left i = signal leaf := onlyPath_cur (signal leaf) i
  have hright : (onlyPath (signal leaf)).right i = 0 := rfl
  have hpos := Nat.two_pow_pos l
  have hpad : ∀ k, 0 < k → PaddedTree.pad 0 (elements [leaf]) k = 0 := by
    intro k hk
    rw [PaddedTree.pad_of_le]
    exact hk
  rw [hleft, hright, node_first_eq, node_first_eq] at heq ⊢
  have hsecond : PaddedTree.pad 0 (elements [leaf]) ((2 * j + 1) * 2 ^ l) = 0 := hpad _ (Nat.mul_pos (by omega) hpos)
  rw [hsecond]
  by_cases hj0 : j = 0
  · subst hj0
    simp only [Nat.mul_zero, Nat.zero_mul]
    rfl
  · rw [hpad (2 * j * 2 ^ l) (Nat.mul_pos (by omega) hpos)] at heq
    exact absurd heq.symm h

/-- The key 1 in a list of its own. -/
theorem keyOne_on_list : ∃ s : Membership, ∃ d, s.Satisfies (Circuits.checked RegistrationEngines.generator) Circuits.first ∧
    0 < d ∧ d < ORDER ∧ s.nullifier = Circuits.first [Circuits.TAG_SINGLE_TIER_ADMISSION,
      Circuits.first (signals (privToLimbs d)), s.epoch, s.contextHash] := by
  have hcanonical : Field.isCanonical leafOne.toList = true := by decide +kernel
  have hvalue : Field.value leafOne.toList = 0x751e76e8199196d454941c45d1b3a323f1433bd6 := by decide +kernel
  have hval : (signal leafOne).val = Field.value leafOne.toList :=
    ZMod.val_natCast_of_lt (Field.value_lt_of_isCanonical hcanonical)
  have hne : signal leafOne ≠ 0 := by
    intro h
    rw [h, ZMod.val_zero, hvalue] at hval
    cases hval
  have hroot : Snapshot.dmlRootFromLeaves (MerklePath.onNat (pair Circuits.first)) TREE_DEPTH ([leafOne].map String.toList) =
      .ok (Nat.toDigits 10 (signal leafOne).val) := by
    rw [dmlRoot_eq (by decide), root_first hcanonical, hval]
  have hpath : (onlyPath (signal leafOne)).Satisfies (pair Circuits.first) TREE_DEPTH :=
    MerklePath.assign_satisfies TREE_DEPTH (signal leafOne) (fun _ => 0) fun _ => false
  have hs := assignMembership_satisfies (Circuits.checked RegistrationEngines.generator) Circuits.first keyOne hpath
    (signal_natText _) (3 : Nat) (4 : Nat) (5 : Nat)
  obtain ⟨d, ⟨hd, hlt, -⟩, hn⟩ := (key_on_list (Circuits.checked RegistrationEngines.generator) Circuits.first
    (Circuits.rangeChecked _) (fun c hc => List.mem_singleton.1 hc ▸ hcanonical) (by decide) hroot).1 _ hs
    (onlyPath_cur (signal leafOne) TREE_DEPTH) (onlyPath_noCollision hne)
  exact ⟨_, d, hs, hd, hlt, hn⟩

/-! ## The second tier -/

/-- The assignment over a secret and a path. -/
def assignMembers (secret : Scalar) (incl : MerklePath.Inclusion) (epoch contextHash signalHash : Scalar) : Members where
  secret := secret
  membersRoot := incl.root
  epoch := epoch
  contextHash := contextHash
  signalHash := signalHash
  nullifier := poseidon [secret, epoch, contextHash]
  incl := incl
  sq := signalHash * signalHash

end Prover
