import MnoVerify.CoinbaseSound
import MnoVerify.PartialTreeSound
import Mathlib.Data.Nat.Log

/-!
# Branches of a partial merkle tree

A matched leaf of an accepted tree has a branch from it to the root, and the traversal ends: it is as deep as the tree is high,
goes to a node at most once, and reads inside of the buffer.
-/

namespace DmlCommitment

open Bytes Js Codec Reader
open Snapshot (require require_eq_ok)

/-! ## Heights and widths -/

theorem heightFrom_eq {n : Nat} : ∀ (fuel h : Nat), h ≤ Nat.clog 2 n → Nat.clog 2 n ≤ h + fuel →
    heightFrom n fuel h = Nat.clog 2 n
  | 0, h, h1, h2 => Nat.le_antisymm h1 h2
  | fuel + 1, h, h1, h2 => by
    rw [heightFrom]
    split
    · rename_i hlt
      have hh : h < Nat.clog 2 n := (Nat.lt_clog_iff_pow_lt (by decide)).2 hlt
      exact heightFrom_eq fuel (h + 1) hh (by omega)
    · rename_i hge
      have hle : Nat.clog 2 n ≤ h := (Nat.clog_le_iff_le_pow (by decide)).2 (Nat.le_of_not_lt hge)
      exact Nat.le_antisymm h1 hle

theorem clog_le_24 {n : Nat} (h : n ≤ MAX_TREE_TRANSACTIONS) : Nat.clog 2 n ≤ 24 :=
  (Nat.clog_le_iff_le_pow (by decide)).2 h

/-- The loop ends at the height of the tree. -/
theorem treeHeight_eq {n : Nat} (h : n ≤ MAX_TREE_TRANSACTIONS) : treeHeight n = Nat.clog 2 n :=
  heightFrom_eq 24 0 (Nat.zero_le _) (by rw [Nat.zero_add]; exact clog_le_24 h)

/-- A position that a level has. -/
theorem lt_widthAt_iff {n h pos : Nat} : pos < widthAt n h ↔ pos * 2 ^ h < n := by
  have hp : 0 < 2 ^ h := Nat.two_pow_pos h
  unfold widthAt
  rw [Nat.lt_div_iff_mul_lt hp]
  have hcomm : 2 ^ h * pos = pos * 2 ^ h := Nat.mul_comm _ _
  omega

theorem child_inside {n h pos : Nat} (hp : pos * 2 ^ (h + 1) < n) : pos * 2 * 2 ^ h < n := by
  rwa [(Visit.middle h pos).2.1] at hp

/-! ## Branches -/

section
variable (sha256d : List UInt8 → Digest)

/-- The node over `d`, at position `i` of its level, and its sibling `s`. -/
def parent (i : Nat) (s d : Digest) : Digest :=
  if i % 2 = 0 then sha256d (d.bytes ++ s.bytes) else sha256d (s.bytes ++ d.bytes)

/-- The root over a leaf and the siblings on its way up. -/
def fold : List Digest → Nat → Digest → Digest
  | [], _, d => d
  | s :: branch, i, d => fold branch (i / 2) (parent sha256d i s d)

theorem fold_snoc (s : Digest) : ∀ (branch : List Digest) (i : Nat) (d : Digest),
    fold sha256d (branch ++ [s]) i d = parent sha256d (i / 2 ^ branch.length) s (fold sha256d branch i d)
  | [], i, d => by rw [List.length_nil, Nat.pow_zero, Nat.div_one]; rfl
  | b :: branch, i, d => by
    rw [List.cons_append, fold, fold_snoc s branch, fold, List.length_cons, Nat.div_div_eq_div_mul, Nat.pow_succ']

/-- Where a level has no right sibling, the branch has the node itself. -/
def Edged (n : Nat) (branch : List Digest) (i : Nat) (d : Digest) : Prop :=
  ∀ k (hk : k < branch.length), i / 2 ^ k % 2 = 0 → ¬ i / 2 ^ k + 1 < widthAt n k →
    branch[k] = fold sha256d (branch.take k) i d

variable {sha256d} {n : Nat}

theorem Edged.snoc {branch : List Digest} {i : Nat} {d s : Digest} (h : Edged sha256d n branch i d)
    (hs : i / 2 ^ branch.length % 2 = 0 → ¬ i / 2 ^ branch.length + 1 < widthAt n branch.length →
      s = fold sha256d branch i d) : Edged sha256d n (branch ++ [s]) i d := by
  intro k hk heven hedge
  rw [List.length_append, List.length_singleton] at hk
  by_cases hlast : k = branch.length
  · subst hlast
    rw [List.getElem_concat_length rfl, List.take_left]
    exact hs heven hedge
  · have hk' : k < branch.length := by omega
    rw [List.getElem_append_left hk', List.take_append_of_le_length (Nat.le_of_lt hk')]
    exact h k hk' heven hedge

namespace Visit
variable {h pos : Nat}

/-- The position over a matched leaf. -/
theorem div_of_mem (t : Visit n h pos) {m : Matched} (hm : m ∈ t.matched) : m.index / 2 ^ h = pos := by
  obtain ⟨h1, h2⟩ := t.index_bounds m hm
  exact Nat.div_eq_of_lt_le h1 h2

theorem index_lt (t : Visit n h pos) (hp : pos * 2 ^ h < n) : ∀ m ∈ t.matched, m.index < n := by
  induction t with
  | leaf pos matched hash =>
    intro m hm
    cases matched with
    | true =>
      rw [List.mem_singleton.1 hm]
      rwa [Nat.pow_zero, Nat.mul_one] at hp
    | false => cases hm
  | stop h pos hash =>
    intro m hm
    cases hm
  | twin h pos edge l ih => exact ih (child_inside hp)
  | fork h pos inside l r ihl ihr =>
    intro m hm
    rcases List.mem_append.1 hm with hm | hm
    · exact ihl (child_inside hp) m hm
    · exact ihr (lt_widthAt_iff.1 inside) m hm

/-- A matched leaf folds to the node. -/
theorem branch_of_mem (t : Visit n h pos) : ∀ m ∈ t.matched, ∃ branch : List Digest, branch.length = h ∧
    fold sha256d branch m.index m.hash = t.digest sha256d ∧ Edged sha256d n branch m.index m.hash := by
  induction t with
  | leaf pos matched hash =>
    intro m hm
    refine ⟨[], rfl, ?_, fun k hk => absurd hk (Nat.not_lt_zero k)⟩
    cases matched with
    | true =>
      rw [List.mem_singleton.1 hm]
      rfl
    | false => cases hm
  | stop h pos hash =>
    intro m hm
    cases hm
  | twin h pos edge l ih =>
    intro m hm
    obtain ⟨branch, hlen, hfold, hedged⟩ := ih m hm
    have hdiv := l.div_of_mem hm
    refine ⟨branch ++ [l.digest sha256d], by simp [hlen], ?_, hedged.snoc fun _ _ => hfold.symm⟩
    rw [fold_snoc, hlen, hdiv, hfold, parent, if_pos (Nat.mul_mod_left pos 2)]
    rfl
  | fork h pos inside l r ihl ihr =>
    intro m hm
    rcases List.mem_append.1 hm with hm | hm
    · obtain ⟨branch, hlen, hfold, hedged⟩ := ihl m hm
      have hdiv := l.div_of_mem hm
      refine ⟨branch ++ [r.digest sha256d], by simp [hlen], ?_, hedged.snoc fun _ hedge => ?_⟩
      · rw [fold_snoc, hlen, hdiv, hfold, parent, if_pos (Nat.mul_mod_left pos 2)]
        rfl
      · rw [hlen, hdiv] at hedge
        exact absurd inside hedge
    · obtain ⟨branch, hlen, hfold, hedged⟩ := ihr m hm
      have hdiv := r.div_of_mem hm
      have hodd : ¬ (pos * 2 + 1) % 2 = 0 := by omega
      refine ⟨branch ++ [l.digest sha256d], by simp [hlen], ?_, hedged.snoc fun heven _ => ?_⟩
      · rw [fold_snoc, hlen, hdiv, hfold, parent, if_neg hodd]
        rfl
      · rw [hlen, hdiv] at heven
        exact absurd heven hodd

/-- The matched leaves come from left to right. -/
theorem index_increasing (t : Visit n h pos) : t.matched.Pairwise fun a b => a.index < b.index := by
  induction t with
  | leaf pos matched hash =>
    cases matched with
    | true => exact List.pairwise_singleton _ _
    | false => exact List.Pairwise.nil
  | stop h pos hash => exact List.Pairwise.nil
  | twin h pos edge l ih => exact ih
  | fork h pos inside l r ihl ihr =>
    refine List.pairwise_append.2 ⟨ihl, ihr, fun a ha b hb => ?_⟩
    exact Nat.lt_of_lt_of_le (l.index_bounds a ha).2 (r.index_bounds b hb).1

/-- A node has fewer nodes beneath it than twice its leaves. -/
theorem bits_le_full (t : Visit n h pos) : t.bits.length + 1 ≤ 2 * 2 ^ h := by
  induction t with
  | leaf pos matched hash => exact Nat.le_refl 2
  | stop h pos hash =>
    rw [Nat.pow_succ]
    have hp := Nat.two_pow_pos h
    simp only [bits, List.length_singleton]
    omega
  | twin h pos edge l ih =>
    rw [Nat.pow_succ]
    simp only [bits, List.length_cons]
    omega
  | fork h pos inside l r ihl ihr =>
    rw [Nat.pow_succ]
    simp only [bits, List.length_cons, List.length_append]
    omega

/-- The same with the leaves that the tree has, and one node more at each level. -/
theorem bits_le (t : Visit n h pos) (hp : pos * 2 ^ h < n) : t.bits.length + 1 ≤ 2 * (n - pos * 2 ^ h) + h := by
  induction t with
  | leaf pos matched hash =>
    simp only [bits, List.length_singleton]
    omega
  | stop h pos hash =>
    simp only [bits, List.length_singleton]
    omega
  | twin h pos edge l ih =>
    have hl := ih (child_inside hp)
    rw [(middle h pos).2.1]
    simp only [bits, List.length_cons]
    omega
  | fork h pos inside l r ihl ihr =>
    have hl := l.bits_le_full
    have hr := ihr (lt_widthAt_iff.1 inside)
    have hright := lt_widthAt_iff.1 inside
    rw [(middle h pos).2.1]
    rw [Nat.add_mul, Nat.one_mul] at hr hright
    simp only [bits, List.length_cons, List.length_append]
    omega

end Visit

end

/-! ## Reads -/

/-- What is taken is in the buffer, from where the reader is. -/
theorem take_inside {buf b r : List UInt8} {start n : Nat} (h : (take n).run (buf.drop start) = .ok (b, r)) (hat : start ≤ buf.length) :
    start + n ≤ buf.length ∧ b.length = n ∧ (∀ i < n, b[i]? = buf[start + i]?) ∧ r = buf.drop (start + n) := by
  obtain ⟨hn, rfl, rfl⟩ := (run_take n _ b r).1 h
  rw [List.length_drop] at hn
  refine ⟨by omega, by rw [List.length_take, List.length_drop]; omega, fun i hi => ?_, List.drop_drop⟩
  rw [List.getElem?_take_of_lt hi, List.getElem?_drop]

theorem take32_inside {buf r : List UInt8} {start : Nat} {d : Digest} (h : take32.run (buf.drop start) = .ok (d, r))
    (hat : start ≤ buf.length) : start + 32 ≤ buf.length ∧ (∀ i < 32, d.bytes[i]? = buf[start + i]?) ∧ r = buf.drop (start + 32) := by
  have htake : (take 32).run (buf.drop start) = .ok (d.bytes, r) := by
    rw [take32_ok h]
    exact (reads_take 32).run d.length_bytes r
  obtain ⟨h1, _, h2, h3⟩ := take_inside htake hat
  exact ⟨h1, h2, h3⟩

theorem nextBit_inside {p : PartialBytes} {w w' : Walk} {b : Bool} (h : (nextBit p).run w = .ok (b, w')) :
    ∃ byte, p.flagBytes[w.bitsUsed / 8]? = some byte ∧ b = byte.toNat.testBit (w.bitsUsed % 8) := by
  by_cases hb : w.bitsUsed < p.flagBytes.length * 8
  · have h1 : (nextBit p).run w = .ok (bitAt p.flagBytes w.bitsUsed, { w with bitsUsed := w.bitsUsed + 1 }) := if_pos hb
    rw [h1] at h
    cases h
    have hlt : w.bitsUsed / 8 < p.flagBytes.length := by omega
    refine ⟨p.flagBytes[w.bitsUsed / 8], List.getElem?_eq_getElem hlt, ?_⟩
    rw [bitAt, List.getD_eq_getElem?_getD, List.getElem?_eq_getElem hlt]
    rfl
  · have h1 : (nextBit p).run w = .error "partial merkle tree ran out of flag bits" := if_neg hb
    rw [h1] at h
    cases h

theorem consumes_take32 {s r : List UInt8} {d : Digest} (h : take32.run s = .ok (d, r)) : r.length < s.length := by
  rw [take32_ok h, List.length_append, d.length_bytes]
  omega

/-! ## The bound on the flag bytes -/

/-- `partialBytes` without the bound on the flag bytes. -/
def partialBytesUnbounded : Reader PartialBytes := do
  let nTransactions ← u32
  ask (decide (nTransactions ≠ 0)) "partial merkle tree covers no transactions"
  ask (decide (nTransactions ≤ MAX_TREE_TRANSACTIONS)) ("partial merkle tree claims " ++ Snapshot.natText nTransactions ++
    " transactions, past the " ++ Snapshot.natText MAX_TREE_TRANSACTIONS ++ " bound")
  let hashes ← times take32 (← varint)
  let flagBytes ← take (← varint)
  return { nTransactions, hashes, flagBytes }

theorem reads_take32 : Reads take32 Digest.bytes fun _ => True := by
  intro s d r
  constructor
  · intro h
    exact ⟨trivial, take32_ok h⟩
  · rintro ⟨_, rfl⟩
    have hlen : 32 ≤ (d.bytes ++ r).length := by
      rw [List.length_append, d.length_bytes]
      omega
    have htake : (d.bytes ++ r).take 32 = d.bytes := by rw [← d.length_bytes, List.take_left]
    have hdrop : (d.bytes ++ r).drop 32 = r := by rw [← d.length_bytes, List.drop_left]
    have h1 : take32.run (d.bytes ++ r) = .ok (⟨(d.bytes ++ r).take 32, by simp [d.length_bytes]⟩, (d.bytes ++ r).drop 32) :=
      dif_pos hlen
    rw [h1, hdrop]
    simp only [htake]

theorem partialBytes_iff {s r : List UInt8} {p : PartialBytes} :
    partialBytes.run s = .ok (p, r) ↔ partialBytesUnbounded.run s = .ok (p, r) ∧
      p.flagBytes.length ≤ maxFlagBytes p.nTransactions := by
  unfold partialBytes partialBytesUnbounded
  simp only [reads_u32.bind_iff, run_ask_bind, reads_varint.bind_iff, (reads_times reads_take32 _).bind_iff,
    (reads_take _).bind_iff, run_pure_iff, id]
  constructor
  · rintro ⟨n, s1, h1, h2, h3, k, s2, h4, hashes, s3, h5, f, s4, h6, h7, flagBytes, s5, ⟨h8, h9⟩, rfl, h10⟩
    refine ⟨⟨n, s1, h1, h2, h3, k, s2, h4, hashes, s3, h5, f, s4, h6, flagBytes, s5, ⟨h8, h9⟩, rfl, h10⟩, ?_⟩
    rw [h8]
    exact of_decide_eq_true h7
  · rintro ⟨⟨n, s1, h1, h2, h3, k, s2, h4, hashes, s3, h5, f, s4, h6, flagBytes, s5, ⟨h8, h9⟩, rfl, h10⟩, h7⟩
    rw [h8] at h7
    exact ⟨n, s1, h1, h2, h3, k, s2, h4, hashes, s3, h5, f, s4, h6, decide_eq_true h7, flagBytes, s5, ⟨h8, h9⟩, rfl, h10⟩

theorem unbounded_count {s r : List UInt8} {p : PartialBytes} (h : partialBytesUnbounded.run s = .ok (p, r)) :
    0 < p.nTransactions ∧ p.nTransactions ≤ MAX_TREE_TRANSACTIONS := by
  unfold partialBytesUnbounded at h
  simp only [reads_u32.bind_iff, run_ask_bind, reads_varint.bind_iff, (reads_times reads_take32 _).bind_iff,
    (reads_take _).bind_iff, run_pure_iff, id] at h
  obtain ⟨n, _, _, h2, h3, _, _, _, _, _, _, _, _, _, _, _, _, rfl, _⟩ := h
  exact ⟨Nat.pos_of_ne_zero (of_decide_eq_true h2), of_decide_eq_true h3⟩

/-- A traversal reads fewer flag bytes than the bound. -/
theorem walk_flagBytes {sha256d : List UInt8 → Digest} {p : PartialBytes} {root : Digest} {w : Walk}
    (h0 : 0 < p.nTransactions) (hmax : p.nTransactions ≤ MAX_TREE_TRANSACTIONS)
    (h : (walk sha256d p (treeHeight p.nTransactions) 0).run ⟨0, 0, [], []⟩ = .ok (root, w)) :
    (w.bitsUsed + 7) / 8 ≤ maxFlagBytes p.nTransactions := by
  obtain ⟨t, _, rfl, _⟩ := walk_ok sha256d p _ _ h
  have hbits := t.bits_le (by rwa [Nat.zero_mul])
  have hheight := clog_le_24 hmax
  rw [← treeHeight_eq hmax] at hheight
  unfold maxFlagBytes
  refine Nat.div_le_div_right ?_
  simp only [Walk.after]
  omega

theorem partial_tree_sound (sha256d : List UInt8 → Digest) :
    -- the traversal is as deep as the tree is high, and the loop over the hashes stops when the bytes do
    (∀ n ≤ MAX_TREE_TRANSACTIONS, treeHeight n = Nat.clog 2 n ∧ treeHeight n ≤ 24) ∧
    (∀ s m k, s.length < m → s.length < k → (times take32 m).run s = (times take32 k).run s) ∧
    -- reads are inside of the buffer
    (∀ (buf : List UInt8) (start n : Nat) b r, start ≤ buf.length → (take n).run (buf.drop start) = .ok (b, r) →
      start + n ≤ buf.length ∧ b.length = n ∧ (∀ i < n, b[i]? = buf[start + i]?) ∧ r = buf.drop (start + n)) ∧
    (∀ (buf : List UInt8) (start : Nat) d r, start ≤ buf.length → take32.run (buf.drop start) = .ok (d, r) →
      start + 32 ≤ buf.length ∧ (∀ i < 32, d.bytes[i]? = buf[start + i]?) ∧ r = buf.drop (start + 32)) ∧
    (∀ p w b w', (nextBit p).run w = .ok (b, w') →
      ∃ byte, p.flagBytes[w.bitsUsed / 8]? = some byte ∧ b = byte.toNat.testBit (w.bitsUsed % 8)) ∧
    (∀ (p : PartialBytes) (bitsUsed : Nat), ∀ i ∈ List.range' bitsUsed (p.flagBytes.length * 8 - bitsUsed),
      i / 8 < p.flagBytes.length) ∧
    -- what is returned
    (∀ bytes r, partialTreeOfBytes sha256d bytes = .ok r →
      (∀ m ∈ r.matched, m.index < r.nTransactions ∧ ∃ branch : List Digest, branch.length = Nat.clog 2 r.nTransactions ∧
        fold sha256d branch m.index m.hash = r.root ∧ Edged sha256d r.nTransactions branch m.index m.hash) ∧
      r.matched.Pairwise fun a b => a.index < b.index) ∧
    -- the bound on the flag bytes refuses nothing that the traversal reads in full
    (∀ bytes p rest root w, partialBytesUnbounded.run bytes = .ok (p, rest) →
      (walk sha256d p (treeHeight p.nTransactions) 0).run ⟨0, 0, [], []⟩ = .ok (root, w) →
      (w.bitsUsed + 7) / 8 = p.flagBytes.length → partialBytes.run bytes = .ok (p, rest)) := by
  refine ⟨fun n hn => ⟨treeHeight_eq hn, ?_⟩, fun s m k hm hk => times_stops consumes_take32 m k s hm hk,
    fun buf start n b r hat h => take_inside h hat, fun buf start d r hat h => take32_inside h hat,
    fun p w b w' h => nextBit_inside h, fun p bitsUsed i hi => ?_, fun bytes r h => ?_,
    fun bytes p rest root w hp hw hused => ?_⟩
  · rw [treeHeight_eq hn]
    exact clog_le_24 hn
  · have := List.mem_range'_1.1 hi
    omega
  · obtain ⟨p, t, ha⟩ := partialTreeOfBytes_ok h
    obtain ⟨h0, hmax⟩ := unbounded_count (partialBytes_iff.1 ha.read).1
    have hresult := ha.result
    subst hresult
    refine ⟨fun m hm => ⟨t.index_lt (by rwa [Nat.zero_mul]) m hm, ?_⟩, t.index_increasing⟩
    obtain ⟨branch, hlen, hbranch⟩ := @Visit.branch_of_mem sha256d _ _ _ t m hm
    exact ⟨branch, hlen.trans (treeHeight_eq hmax), hbranch⟩
  · obtain ⟨h0, hmax⟩ := unbounded_count hp
    exact partialBytes_iff.2 ⟨hp, hused ▸ walk_flagBytes h0 hmax hw⟩

end DmlCommitment
