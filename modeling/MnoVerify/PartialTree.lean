import MnoVerify.ReaderSound

/-!
# The traversal of a partial merkle tree

`Visit` is the tree of nodes that a traversal goes through. An accepted byte string is
the encoding of one, and the root and the matched leaves are read off it.
-/

namespace DmlCommitment

open Bytes Js Reader
open Snapshot (require require_eq_ok)

/-! ## Visits -/

/-- What a traversal sees at the node of height `h` and position `pos`. -/
inductive Visit (nTransactions : Nat) : Nat → Nat → Type
  | leaf (pos : Nat) (matched : Bool) (hash : Digest) : Visit nTransactions 0 pos
  | stop (h pos : Nat) (hash : Digest) : Visit nTransactions (h + 1) pos
  | twin (h pos : Nat) (edge : ¬ pos * 2 + 1 < widthAt nTransactions h) (l : Visit nTransactions h (pos * 2)) :
      Visit nTransactions (h + 1) pos
  | fork (h pos : Nat) (inside : pos * 2 + 1 < widthAt nTransactions h) (l : Visit nTransactions h (pos * 2))
      (r : Visit nTransactions h (pos * 2 + 1)) : Visit nTransactions (h + 1) pos

namespace Visit

variable {n h pos : Nat}

/-- The flags of the nodes, in the order of the traversal. -/
def bits : {h pos : Nat} → Visit n h pos → List Bool
  | _, _, leaf _ matched _ => [matched]
  | _, _, stop _ _ _ => [false]
  | _, _, twin _ _ _ l => true :: l.bits
  | _, _, fork _ _ _ l r => true :: (l.bits ++ r.bits)

/-- The hashes it takes. -/
def hashes : {h pos : Nat} → Visit n h pos → List Digest
  | _, _, leaf _ _ hash => [hash]
  | _, _, stop _ _ hash => [hash]
  | _, _, twin _ _ _ l => l.hashes
  | _, _, fork _ _ _ l r => l.hashes ++ r.hashes

def matched : {h pos : Nat} → Visit n h pos → List Matched
  | _, _, leaf pos matched hash => if matched then [⟨hash, pos⟩] else []
  | _, _, stop _ _ _ => []
  | _, _, twin _ _ _ l => l.matched
  | _, _, fork _ _ _ l r => l.matched ++ r.matched

/-- The inner nodes that are descended to though no matched leaf lies beneath. -/
def needless : {h pos : Nat} → Visit n h pos → List (Nat × Nat)
  | _, _, leaf _ _ _ => []
  | _, _, stop _ _ _ => []
  | _, _, twin h pos _ l => l.needless ++ if l.matched = [] then [(h + 1, pos)] else []
  | _, _, fork h pos _ l r => l.needless ++ r.needless ++ if l.matched = [] ∧ r.matched = [] then [(h + 1, pos)] else []

variable (sha256d : List UInt8 → Digest)

def digest : {h pos : Nat} → Visit n h pos → Digest
  | _, _, leaf _ _ hash => hash
  | _, _, stop _ _ hash => hash
  | _, _, twin _ _ _ l => sha256d ((digest l).bytes ++ (digest l).bytes)
  | _, _, fork _ _ _ l r => sha256d ((digest l).bytes ++ (digest r).bytes)

/-- What `digest` hashes. -/
def inputs : {h pos : Nat} → Visit n h pos → List (List UInt8)
  | _, _, leaf _ _ _ => []
  | _, _, stop _ _ _ => []
  | _, _, twin _ _ _ l => inputs l ++ [(digest sha256d l).bytes ++ (digest sha256d l).bytes]
  | _, _, fork _ _ _ l r => inputs l ++ inputs r ++ [(digest sha256d l).bytes ++ (digest sha256d r).bytes]

/-- A matched leaf lies beneath the node. -/
theorem index_bounds (t : Visit n h pos) : ∀ m ∈ t.matched, pos * 2 ^ h ≤ m.index ∧ m.index < (pos + 1) * 2 ^ h := by
  induction t with
  | leaf pos matched hash =>
    intro m hm
    cases matched with
    | true =>
      have : m = ⟨hash, pos⟩ := by simpa [Visit.matched] using hm
      rw [this]; simp
    | false => simp [Visit.matched] at hm
  | stop h pos hash => intro m hm; simp [Visit.matched] at hm
  | twin h pos edge l ih =>
    intro m hm
    have := ih m hm
    rw [Nat.pow_succ, Nat.mul_comm _ 2, ← Nat.mul_assoc, ← Nat.mul_assoc]
    have h2 : (pos * 2 + 1) * 2 ^ h ≤ (pos + 1) * 2 * 2 ^ h := Nat.mul_le_mul_right _ (by omega)
    omega
  | fork h pos inside l r ihl ihr =>
    intro m hm
    rw [Nat.pow_succ, Nat.mul_comm _ 2, ← Nat.mul_assoc, ← Nat.mul_assoc]
    have h1 : pos * 2 * 2 ^ h ≤ (pos * 2 + 1) * 2 ^ h := Nat.mul_le_mul_right _ (by omega)
    have h2 : (pos * 2 + 1) * 2 ^ h ≤ (pos + 1) * 2 * 2 ^ h := Nat.mul_le_mul_right _ (by omega)
    have h3 : (pos * 2 + 1 + 1) * 2 ^ h = (pos + 1) * 2 * 2 ^ h := by ring
    rcases List.mem_append.1 hm with hm | hm
    · have := ihl m hm; omega
    · have := ihr m hm; omega

end Visit

/-! ## The traversal -/

/-- All flag bits, the padding included. -/
def flagBits (flagBytes : List UInt8) : List Bool := (List.range (flagBytes.length * 8)).map (bitAt flagBytes)

namespace Walk

/-- The counters after a traversal. -/
def after (sha256d : List UInt8 → Digest) {n h pos : Nat} (w : Walk) (t : Visit n h pos) : Walk :=
  { bitsUsed := w.bitsUsed + t.bits.length
    hashesUsed := w.hashesUsed + t.hashes.length
    matched := w.matched ++ t.matched
    hashed := w.hashed ++ t.inputs sha256d }

end Walk

theorem walker_pure_ok {α : Type} {a b : α} {w w' : Walk} (h : (pure a : Walker α).run w = .ok (b, w')) : b = a ∧ w' = w := by
  cases h
  exact ⟨rfl, rfl⟩

theorem nextBit_ok {p : PartialBytes} {w w' : Walk} {b : Bool} (h : (nextBit p).run w = .ok (b, w')) :
    w' = { w with bitsUsed := w.bitsUsed + 1 } ∧
    (flagBits p.flagBytes).drop w.bitsUsed = b :: (flagBits p.flagBytes).drop (w.bitsUsed + 1) := by
  by_cases hb : w.bitsUsed < p.flagBytes.length * 8
  · have h1 : (nextBit p).run w = .ok (bitAt p.flagBytes w.bitsUsed, { w with bitsUsed := w.bitsUsed + 1 }) := if_pos hb
    rw [h1] at h
    cases h
    refine ⟨rfl, ?_⟩
    have hl : w.bitsUsed < (flagBits p.flagBytes).length := by simpa [flagBits] using hb
    rw [List.drop_eq_getElem_cons hl]
    simp [flagBits]
  · have h1 : (nextBit p).run w = .error "partial merkle tree ran out of flag bits" := if_neg hb
    rw [h1] at h
    cases h

theorem nextHash_ok {p : PartialBytes} {w w' : Walk} {d : Digest} (h : (nextHash p).run w = .ok (d, w')) :
    w' = { w with hashesUsed := w.hashesUsed + 1 } ∧
    p.hashes.drop w.hashesUsed = d :: p.hashes.drop (w.hashesUsed + 1) := by
  unfold nextHash at h
  simp only [StateT.run] at h
  split at h
  · next d' hd =>
    cases h
    obtain ⟨hl, rfl⟩ := List.getElem?_eq_some_iff.1 hd
    exact ⟨rfl, List.drop_eq_getElem_cons hl⟩
  · cases h

/-- A traversal that succeeds is a visit; it has read the bits and the hashes of it. -/
theorem walk_ok (sha256d : List UInt8 → Digest) (p : PartialBytes) :
    ∀ (h pos : Nat) {w w' : Walk} {d : Digest}, (walk sha256d p h pos).run w = .ok (d, w') →
      ∃ t : Visit p.nTransactions h pos, d = t.digest sha256d ∧ w' = w.after sha256d t ∧
        (flagBits p.flagBytes).drop w.bitsUsed = t.bits ++ (flagBits p.flagBytes).drop w'.bitsUsed ∧
        p.hashes.drop w.hashesUsed = t.hashes ++ p.hashes.drop w'.hashesUsed := by
  intro h
  induction h with
  | zero =>
    intro pos w w' d hw
    obtain ⟨b, w1, h1, h2⟩ := run_bind_eq_ok.1 hw
    obtain ⟨hash, w2, h3, h4⟩ := run_bind_eq_ok.1 h2
    obtain ⟨rfl, hbits⟩ := nextBit_ok h1
    obtain ⟨rfl, hhash⟩ := nextHash_ok h3
    refine ⟨.leaf pos b hash, ?_⟩
    cases b with
    | true =>
      obtain ⟨_, w3, h5, h6⟩ := run_bind_eq_ok.1 h4
      cases h5
      obtain ⟨rfl, rfl⟩ := walker_pure_ok h6
      exact ⟨rfl, by simp [Walk.after, Visit.bits, Visit.hashes, Visit.matched, Visit.inputs], hbits, hhash⟩
    | false =>
      obtain ⟨rfl, rfl⟩ := walker_pure_ok h4
      exact ⟨rfl, by simp [Walk.after, Visit.bits, Visit.hashes, Visit.matched, Visit.inputs], hbits, hhash⟩
  | succ h ih =>
    intro pos w w' d hw
    obtain ⟨b, w1, h1, h2⟩ := run_bind_eq_ok.1 hw
    obtain ⟨rfl, hbits⟩ := nextBit_ok h1
    cases b with
    | false =>
      obtain ⟨rfl, hhash⟩ := nextHash_ok h2
      exact ⟨.stop h pos d, rfl, by simp [Walk.after, Visit.bits, Visit.hashes, Visit.matched, Visit.inputs], hbits, hhash⟩
    | true =>
      obtain ⟨left, w2, h3, h4⟩ := run_bind_eq_ok.1 h2
      obtain ⟨l, rfl, rfl, lbits, lhashes⟩ := ih (pos * 2) h3
      dsimp only at h4
      split at h4
      · next inside =>
        obtain ⟨right, w3, h5, h6⟩ := run_bind_eq_ok.1 h4
        cases h6
        obtain ⟨r, rfl, rfl, rbits, rhashes⟩ := ih (pos * 2 + 1) h5
        refine ⟨.fork h pos inside l r, rfl, ?_, ?_, ?_⟩
        · simp [Walk.after, Visit.bits, Visit.hashes, Visit.matched, Visit.inputs, Nat.add_assoc, Nat.add_comm 1]
        · rw [hbits, lbits, rbits]
          simp [Visit.bits]
        · rw [lhashes, rhashes]
          simp [Visit.hashes]
      · next edge =>
        obtain ⟨right, w3, h5, h6⟩ := run_bind_eq_ok.1 h4
        cases h6
        obtain ⟨rfl, rfl⟩ := walker_pure_ok h5
        refine ⟨.twin h pos edge l, rfl, ?_, ?_, ?_⟩
        · simp [Walk.after, Visit.bits, Visit.hashes, Visit.matched, Visit.inputs, Nat.add_assoc, Nat.add_comm 1]
        · rw [hbits, lbits]
          simp [Visit.bits]
        · rw [lhashes]
          simp [Visit.hashes]

end DmlCommitment
