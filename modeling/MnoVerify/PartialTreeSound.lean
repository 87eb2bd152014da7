import MnoVerify.PartialTree
import MnoVerify.SmlRootSound

/-!
# The spellings of a partial merkle tree

An accepted byte string is the encoding of its count, its hashes and its flags, and these
are the hashes and the flags of one visit. Two visits of one root with the same matched
leaves can only differ in where they descend needlessly.
-/

namespace DmlCommitment

open Bytes Js Reader
open Snapshot (require require_eq_ok)

/-! ## Accepted byte strings -/

/-- The bytes of a serialized tree. -/
def PartialBytes.encode (p : PartialBytes) : List UInt8 :=
  toLE 4 p.nTransactions ++ (compact p.hashes.length ++ (p.hashes.flatMap Digest.bytes ++
    (compact p.flagBytes.length ++ p.flagBytes)))

theorem partialBytes_ok {s r : List UInt8} {p : PartialBytes} (h : partialBytes.run s = .ok (p, r)) : s = p.encode ++ r := by
  obtain ⟨n, s1, h1, h⟩ := run_bind_eq_ok.1 h
  obtain ⟨_, s2, h2, h⟩ := run_bind_eq_ok.1 h
  obtain ⟨_, s3, h3, h⟩ := run_bind_eq_ok.1 h
  obtain ⟨k, s4, h4, h⟩ := run_bind_eq_ok.1 h
  obtain ⟨hashes, s5, h5, h⟩ := run_bind_eq_ok.1 h
  obtain ⟨f, s6, h6, h⟩ := run_bind_eq_ok.1 h
  obtain ⟨_, s7, h7, h⟩ := run_bind_eq_ok.1 h
  obtain ⟨flagBytes, s8, h8, h⟩ := run_bind_eq_ok.1 h
  obtain ⟨rfl, rfl⟩ := pure_ok h
  obtain ⟨e1, _⟩ := u32_ok h1
  obtain ⟨_, rfl⟩ := ask_ok h2
  obtain ⟨_, rfl⟩ := ask_ok h3
  obtain ⟨e5, rfl⟩ := times_take32_ok h5
  obtain ⟨_, rfl⟩ := ask_ok h7
  obtain ⟨e8, rfl⟩ := take_ok h8
  rw [e1, varint_ok h4, e5, varint_ok h6, e8]
  simp [PartialBytes.encode]

theorem flagBits_inj {f g : List UInt8} (h : flagBits f = flagBits g) : f = g := by
  have hl : f.length = g.length := by
    have := congrArg List.length h
    simp only [flagBits, List.length_map, List.length_range] at this
    omega
  refine List.ext_getElem hl fun i hf hg => UInt8.toNat_inj.1 (Nat.eq_of_testBit_eq fun k => ?_)
  by_cases hk : k < 8
  · have hi : (flagBits f)[8 * i + k]? = (flagBits g)[8 * i + k]? := by rw [h]
    have hd : (8 * i + k) / 8 = i := by omega
    have hm : (8 * i + k) % 8 = k := by omega
    simpa [flagBits, bitAt, hd, hm, show 8 * i + k < f.length * 8 by omega, show 8 * i + k < g.length * 8 by omega, hf, hg]
      using hi
  · have hbig : 256 ≤ 2 ^ k := by
      calc 256 = 2 ^ 8 := rfl
        _ ≤ 2 ^ k := Nat.pow_le_pow_right (by decide) (by omega)
    rw [Nat.testBit_lt_two_pow (lt_of_lt_of_le (UInt8.toNat_lt _) hbig),
      Nat.testBit_lt_two_pow (lt_of_lt_of_le (UInt8.toNat_lt _) hbig)]

/-- What is known of an accepted byte string. -/
structure Accepted (sha256d : List UInt8 → Digest) (bytes : List UInt8) (r : PartialTree) (p : PartialBytes)
    (t : Visit p.nTransactions (treeHeight p.nTransactions) 0) : Prop where
  read : partialBytes.run bytes = .ok (p, [])
  hashes : p.hashes = t.hashes
  flags : flagBits p.flagBytes = t.bits ++ List.replicate ((t.bits.length + 7) / 8 * 8 - t.bits.length) false
  result : r = ⟨t.digest sha256d, t.matched, p.nTransactions, t.inputs sha256d⟩

theorem partialTreeOfBytes_ok {sha256d : List UInt8 → Digest} {bytes : List UInt8} {r : PartialTree}
    (h : partialTreeOfBytes sha256d bytes = .ok r) : ∃ p t, Accepted sha256d bytes r p t := by
  unfold partialTreeOfBytes at h
  obtain ⟨⟨p, rest⟩, h1, h⟩ := bind_eq_ok.1 h
  obtain ⟨⟨root, w⟩, h2, h⟩ := bind_eq_ok.1 h
  obtain ⟨_, h3, h⟩ := bind_eq_ok.1 h
  obtain ⟨_, h4, h⟩ := bind_eq_ok.1 h
  obtain ⟨_, h5, h⟩ := bind_eq_ok.1 h
  obtain ⟨_, h6, h⟩ := bind_eq_ok.1 h
  cases h
  obtain ⟨t, rfl, rfl, hbits, hhashes⟩ := walk_ok sha256d p _ _ h2
  simp only [require_eq_ok, decide_eq_true_eq, List.all_eq_true, Walk.after, Nat.zero_add, List.drop_zero] at *
  have hbl : (flagBits p.flagBytes).length = p.flagBytes.length * 8 := by simp [flagBits]
  refine ⟨p, t, h6 ▸ h1, ?_, ?_, by simp⟩
  · rw [hhashes, h3, List.drop_length, List.append_nil]
  · have hrest : (flagBits p.flagBytes).drop t.bits.length =
        List.replicate ((t.bits.length + 7) / 8 * 8 - t.bits.length) false := by
      refine List.eq_replicate_iff.2 ⟨by rw [List.length_drop, hbl, h4], fun b hb => ?_⟩
      obtain ⟨i, hi, rfl⟩ := List.getElem_of_mem hb
      rw [List.length_drop, hbl] at hi
      have := h5 (t.bits.length + i) (List.mem_range'_1.2 ⟨by omega, by omega⟩)
      simpa [flagBits] using this
    rw [← hrest]
    exact hbits

/-! ## Visits of one root -/

/-- A list is cut at the place where a property stops. -/
theorem append_inj_of_pred {α : Type} {P : α → Prop} {a a' b b' : List α} (ha : ∀ x ∈ a, P x) (hb : ∀ x ∈ b, ¬ P x)
    (ha' : ∀ x ∈ a', P x) (hb' : ∀ x ∈ b', ¬ P x) (h : a ++ b = a' ++ b') : a = a' ∧ b = b' := by
  classical
  have hcut : ∀ {a b : List α}, (∀ x ∈ a, P x) → (∀ x ∈ b, ¬ P x) → (a ++ b).filter (fun x => decide (P x)) = a := by
    intro a b ha hb
    rw [List.filter_append, List.filter_eq_self.2 fun x hx => decide_eq_true (ha x hx),
      List.filter_eq_nil_iff.2 fun x hx => by simpa using hb x hx, List.append_nil]
  have haa : a = a' := by rw [← hcut ha hb, h, hcut ha' hb']
  subst haa
  exact ⟨rfl, List.append_cancel_left h⟩

namespace Visit

variable {n h pos : Nat}

/-- The first position right of a node's left child. -/
theorem middle (h pos : Nat) : (pos * 2 + 1) * 2 ^ h ≤ (pos + 1) * 2 ^ (h + 1) ∧ pos * 2 ^ (h + 1) = pos * 2 * 2 ^ h ∧
    (pos + 1) * 2 ^ (h + 1) = (pos * 2 + 1 + 1) * 2 ^ h ∧ pos * 2 * 2 ^ h < (pos * 2 + 1) * 2 ^ h := by
  have hp : 0 < 2 ^ h := Nat.two_pow_pos h
  rw [Nat.pow_succ]
  refine ⟨?_, by ring, by ring, Nat.mul_lt_mul_of_pos_right (by omega) hp⟩
  nlinarith

theorem needless_bounds (t : Visit n h pos) :
    ∀ q ∈ t.needless, pos * 2 ^ h ≤ q.2 * 2 ^ q.1 ∧ (q.2 + 1) * 2 ^ q.1 ≤ (pos + 1) * 2 ^ h := by
  induction t with
  | leaf pos matched hash => intro q hq; simp [needless] at hq
  | stop h pos hash => intro q hq; simp [needless] at hq
  | twin h pos edge l ih =>
    intro q hq
    obtain ⟨h1, h2, h3, h4⟩ := middle h pos
    rcases List.mem_append.1 hq with hq | hq
    · have := ih q hq
      omega
    · have : q = (h + 1, pos) := by split at hq <;> simp_all
      subst this
      exact ⟨le_refl _, le_refl _⟩
  | fork h pos inside l r ihl ihr =>
    intro q hq
    obtain ⟨h1, h2, h3, h4⟩ := middle h pos
    simp only [needless, List.mem_append] at hq
    obtain (hq | hq) | hq := hq
    · have := ihl q hq
      omega
    · have := ihr q hq
      omega
    · have : q = (h + 1, pos) := by split at hq <;> simp_all
      subst this
      exact ⟨le_refl _, le_refl _⟩

/-- A node under which nothing is matched is not descended to without leaving a trace. -/
theorem needless_ne_nil {t : Visit n (h + 1) pos} (hm : t.matched = []) (hn : t.needless = []) :
    ∃ hash, t = .stop h pos hash := by
  cases t with
  | stop _ _ hash => exact ⟨hash, rfl⟩
  | twin _ _ edge l =>
    simp only [matched] at hm
    simp [needless, hm] at hn
  | fork _ _ inside l r =>
    simp only [matched, List.append_eq_nil_iff] at hm
    simp [needless, hm] at hn

variable {sha256d : List UInt8 → Digest}

/-- Visits of one root that match the same leaves and descend needlessly to the same nodes are equal. -/
theorem eq_of_digest_eq {S : Set (List UInt8)} (hS : Set.InjOn sha256d S) : ∀ {h pos : Nat} (t u : Visit n h pos),
    (∀ a ∈ t.inputs sha256d, a ∈ S) → (∀ a ∈ u.inputs sha256d, a ∈ S) → t.digest sha256d = u.digest sha256d →
    t.matched = u.matched → t.needless = u.needless → t = u := by
  intro h pos t
  induction t with
  | leaf pos matched hash =>
    intro u _ _ hd hm _
    cases u with
    | leaf _ matched' hash' =>
      have hh : hash = hash' := hd
      have hb : matched = matched' := by cases matched <;> cases matched' <;> simp_all [Visit.matched]
      rw [hh, hb]
  | stop h pos hash =>
    intro u _ _ hd hm hn
    obtain ⟨hash', rfl⟩ := needless_ne_nil hm.symm hn.symm
    have hh : hash = hash' := hd
    rw [hh]
  | twin h pos edge l ih =>
    intro u it iu hd hm hn
    cases u with
    | stop _ _ hash =>
      obtain ⟨_, he⟩ := needless_ne_nil (t := .twin h pos edge l) hm hn
      cases he
    | twin _ _ _ l' =>
      have hin := hS (it _ (by simp [inputs])) (iu _ (by simp [inputs])) hd
      have hm' : l.matched = l'.matched := hm
      rw [needless, needless, hm'] at hn
      rw [ih l' (fun a ha => it a (by simp [inputs, ha])) (fun a ha => iu a (by simp [inputs, ha]))
        (Digest.append_inj hin).1 hm' (List.append_cancel_right hn)]
    | fork _ _ inside _ _ => exact absurd inside edge
  | fork h pos inside l r ihl ihr =>
    intro u it iu hd hm hn
    cases u with
    | stop _ _ hash =>
      obtain ⟨_, he⟩ := needless_ne_nil (t := .fork h pos inside l r) hm hn
      cases he
    | twin _ _ edge _ => exact absurd inside edge
    | fork _ _ _ l' r' =>
      have hin := hS (it _ (by simp [inputs])) (iu _ (by simp [inputs])) hd
      obtain ⟨hdl, hdr⟩ := Digest.append_inj hin
      -- the leaves of the left child come before those of the right one
      obtain ⟨hml, hmr⟩ := append_inj_of_pred (P := fun m : Matched => m.index < (pos * 2 + 1) * 2 ^ h)
        (fun m hm => (l.index_bounds m hm).2) (fun m hm => Nat.not_lt.2 (r.index_bounds m hm).1)
        (fun m hm => (l'.index_bounds m hm).2) (fun m hm => Nat.not_lt.2 (r'.index_bounds m hm).1) hm
      rw [needless, needless, hml, hmr] at hn
      obtain ⟨hnl, hnr⟩ := append_inj_of_pred (P := fun q : Nat × Nat => q.2 * 2 ^ q.1 < (pos * 2 + 1) * 2 ^ h)
        (fun q hq => lt_of_lt_of_le (Nat.mul_lt_mul_of_pos_right (Nat.lt_succ_self _) (Nat.two_pow_pos _))
          (l.needless_bounds q hq).2) (fun q hq => Nat.not_lt.2 (r.needless_bounds q hq).1)
        (fun q hq => lt_of_lt_of_le (Nat.mul_lt_mul_of_pos_right (Nat.lt_succ_self _) (Nat.two_pow_pos _))
          (l'.needless_bounds q hq).2) (fun q hq => Nat.not_lt.2 (r'.needless_bounds q hq).1)
        (List.append_cancel_right hn)
      rw [ihl l' (fun a ha => it a (by simp [inputs, ha])) (fun a ha => iu a (by simp [inputs, ha])) hdl hml hnl,
        ihr r' (fun a ha => it a (by simp [inputs, ha])) (fun a ha => iu a (by simp [inputs, ha])) hdr hmr hnr]

end Visit

/-! ## Needless descents of a byte string -/

/-- Over the flags from a node on: whether a matched leaf lies beneath the node, the inner nodes that are descended
to though none does, and the flags after the node. -/
def descents (nTransactions : Nat) : Nat → Nat → List Bool → Bool × List (Nat × Nat) × List Bool
  | 0, _, flags => (flags.headD false, [], flags.tail)
  | h + 1, pos, flags =>
    if flags.headD false then
      let l := descents nTransactions h (pos * 2) flags.tail
      let r := if pos * 2 + 1 < widthAt nTransactions h then descents nTransactions h (pos * 2 + 1) l.2.2
        else (false, [], l.2.2)
      (l.1 || r.1, l.2.1 ++ r.2.1 ++ (if l.1 || r.1 then [] else [(h + 1, pos)]), r.2.2)
    else (false, [], flags.tail)

/-- The needless descents that the flags of a serialized tree ask for. -/
def needlessDescents (hex : String) : List (Nat × Nat) :=
  match partialBytes.run (fromHex hex.toList) with
  | .ok (p, _) => (descents p.nTransactions (treeHeight p.nTransactions) 0 (flagBits p.flagBytes)).2.1
  | .error _ => []

theorem descents_visit {n h pos : Nat} (t : Visit n h pos) :
    ∀ flags, descents n h pos (t.bits ++ flags) = (!t.matched.isEmpty, t.needless, flags) := by
  induction t with
  | leaf pos matched hash => intro flags; cases matched <;> simp [descents, Visit.bits, Visit.matched, Visit.needless]
  | stop h pos hash => intro flags; simp [descents, Visit.bits, Visit.matched, Visit.needless]
  | twin h pos edge l ih =>
    intro flags
    have hb : (Visit.twin h pos edge l).bits ++ flags = true :: (l.bits ++ flags) := rfl
    rw [hb, descents]
    simp only [List.headD_cons, List.tail_cons, if_true, ih, if_neg edge, Visit.matched, Visit.needless]
    cases l.matched <;> simp
  | fork h pos inside l r ihl ihr =>
    intro flags
    have hb : (Visit.fork h pos inside l r).bits ++ flags = true :: (l.bits ++ (r.bits ++ flags)) := by simp [Visit.bits]
    rw [hb, descents]
    simp only [List.headD_cons, List.tail_cons, if_true, ihl, if_pos inside, ihr, Visit.matched, Visit.needless]
    cases l.matched <;> cases r.matched <;> simp

theorem Accepted.needlessDescents_eq {sha256d : List UInt8 → Digest} {x : String} {r : PartialTree} {p : PartialBytes}
    {t : Visit p.nTransactions (treeHeight p.nTransactions) 0} (h : Accepted sha256d (fromHex x.toList) r p t) :
    needlessDescents x = t.needless := by
  rw [needlessDescents, h.read]
  simp only [h.flags, descents_visit]

/-! ## One commitment, its spellings -/

/-- Accepted strings of one count, one root and the same matched leaves are one byte string exactly when they descend
needlessly at the same nodes, unless what they hash collides. -/
theorem partialMerkleTree_spelling {sha256d : List UInt8 → Digest} {x y : String} {r r' : PartialTree}
    (hx : partialMerkleTree sha256d x = .ok r) (hy : partialMerkleTree sha256d y = .ok r')
    (hn : r.nTransactions = r'.nTransactions) (hr : r.root = r'.root) (hm : r.matched = r'.matched) :
    (fromHex x.toList = fromHex y.toList ∨ HashTree.Collides sha256d (r.hashed ++ r'.hashed)) ↔
      (needlessDescents x = needlessDescents y ∨ HashTree.Collides sha256d (r.hashed ++ r'.hashed)) := by
  by_cases hc : HashTree.Collides sha256d (r.hashed ++ r'.hashed)
  · simp only [hc, or_true]
  simp only [hc, or_false]
  constructor
  · intro h
    rw [needlessDescents, needlessDescents, h]
  · intro h
    have hS := HashTree.injOn_of_not_collides sha256d hc
    obtain ⟨⟨n, hashes, flagBytes⟩, t, ha⟩ := partialTreeOfBytes_ok hx
    obtain ⟨⟨n', hashes', flagBytes'⟩, t', ha'⟩ := partialTreeOfBytes_ok hy
    have hread := partialBytes_ok ha.read
    have hread' := partialBytes_ok ha'.read
    rw [ha.needlessDescents_eq, ha'.needlessDescents_eq] at h
    obtain ⟨_, hh, hf, hres⟩ := ha
    obtain ⟨_, hh', hf', hres'⟩ := ha'
    subst hres hres'
    simp only at hn hr hm hh hh' hf hf' t t'
    subst hn
    have htt : t = t' := Visit.eq_of_digest_eq hS t t' (fun a ha => List.mem_append_left _ ha)
      (fun a ha => List.mem_append_right _ ha) hr hm h
    subst htt
    rw [hread, hread', flagBits_inj (hf.trans hf'.symm), hh, hh']

/-! ## Two spellings -/

/-- SHA-256d of 64 zero bytes. -/
def zerosDigest : Digest :=
  ⟨[0xe2, 0xf6, 0x1c, 0x3f, 0x71, 0xd1, 0xde, 0xfd, 0x3f, 0xa9, 0x99, 0xdf, 0xa3, 0x69, 0x53, 0x75, 
    0x5c, 0x69, 0x06, 0x89, 0x79, 0x99, 0x62, 0xb4, 0x8b, 0xeb, 0xd8, 0x36, 0x97, 0x4e, 0x8c, 0xf9], rfl⟩

/-- SHA-256d where it is used below. -/
def zerosHash (bytes : List UInt8) : Digest := if bytes = List.replicate 64 0 then zerosDigest else Digest.zero

/-- Two transactions, none matched; the traversal stops at the root. -/
def stoppedTree : String := hexText ([2, 0, 0, 0, 1] ++ zerosDigest.bytes ++ [1, 0])

/-- The same tree, with a descent to two leaves of 32 zero bytes. -/
def descendedTree : String := hexText ([2, 0, 0, 0, 2] ++ List.replicate 64 0 ++ [1, 1])

def zerosTree (hashed : List (List UInt8)) : PartialTree := ⟨zerosDigest, [], 2, hashed⟩

theorem partialMerkleTree_stoppedTree : partialMerkleTree zerosHash stoppedTree = .ok (zerosTree []) := by
  rw [partialMerkleTree, stoppedTree, fromHex_hexText]
  decide +kernel

theorem partialMerkleTree_descendedTree :
    partialMerkleTree zerosHash descendedTree = .ok (zerosTree [List.replicate 64 0]) := by
  rw [partialMerkleTree, descendedTree, fromHex_hexText]
  decide +kernel

theorem two_spellings : ∃ r r' : PartialTree, partialMerkleTree zerosHash stoppedTree = .ok r ∧
    partialMerkleTree zerosHash descendedTree = .ok r' ∧ r.nTransactions = r'.nTransactions ∧ r.root = r'.root ∧
    r.matched = r'.matched ∧ fromHex stoppedTree.toList ≠ fromHex descendedTree.toList ∧
    ¬ HashTree.Collides zerosHash (r.hashed ++ r'.hashed) := by
  refine ⟨_, _, partialMerkleTree_stoppedTree, partialMerkleTree_descendedTree, rfl, rfl, rfl, ?_, ?_⟩
  · rw [stoppedTree, descendedTree, fromHex_hexText, fromHex_hexText]
    decide +kernel
  rintro ⟨a, ha, b, hb, hab, _⟩
  simp only [zerosTree, List.nil_append, List.mem_singleton] at ha hb
  exact hab (ha.trans hb.symm)

theorem partialMerkleTree_spelling_zeros :
    (fromHex stoppedTree.toList = fromHex descendedTree.toList ∨ HashTree.Collides zerosHash [List.replicate 64 0]) ↔
      (needlessDescents stoppedTree = needlessDescents descendedTree ∨ HashTree.Collides zerosHash [List.replicate 64 0]) :=
  partialMerkleTree_spelling partialMerkleTree_stoppedTree partialMerkleTree_descendedTree rfl rfl rfl

end DmlCommitment
