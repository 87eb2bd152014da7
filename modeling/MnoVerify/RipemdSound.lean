import MnoVerify.RipemdCircuit
import MnoVerify.RegistrationEnginesSound

/-!
# The circuit computes RIPEMD-160
-/

namespace RipemdCircuit

open Field (Scalar FIELD_PRIME)
open RegistrationEngines (bitSignals)

/-- A bit as a signal. -/
def ofBit (b : Bool) : Scalar := if b then 1 else 0

theorem ofBit_eq (b : Bool) : ofBit b = (b.toNat : Scalar) := by cases b <;> simp [ofBit]

/-- A word as a signal. -/
def signal (w : BitVec 32) : Scalar := (w.toNat : Scalar)

/-! ## Bits -/

theorem ofNat_eq_range (k : Nat) : ∀ v, Bits.ofNat k v = (List.range k).map v.testBit := by
  induction k with
  | zero => intro v; rfl
  | succ k ih =>
    intro v
    rw [Bits.ofNat, ih, List.range_succ_eq_map, List.map_cons, List.map_map, Nat.testBit_zero]
    congr 1
    refine List.map_congr_left fun i _ => ?_
    rw [Function.comp, Nat.testBit_succ]

theorem getD_bitSignals {k i : Nat} (hi : i < k) (v : Nat) : (bitSignals (Bits.ofNat k v)).getD i 0 = ofBit (v.testBit i) := by
  rw [bitSignals, ofNat_eq_range, List.map_map, List.getD_eq_getElem?_getD, List.getElem?_map, List.getElem?_range hi]
  rfl

/-- Bits that are those of a word. -/
theorem bits2Num_word (L : Circomlib) {sig : Nat → Scalar} {w : BitVec 32} (h : ∀ i < 32, sig i = ofBit (w.getLsbD i))
    (out : Scalar) : L.Bits2Num 32 ((List.range 32).map sig) out ↔ out = signal w := by
  have hmap : (List.range 32).map sig = bitSignals (Bits.ofNat 32 w.toNat) := by
    rw [bitSignals, ofNat_eq_range, List.map_map]
    refine List.map_congr_left fun i hi => ?_
    rw [h i (List.mem_range.1 hi)]
    rfl
  have hb := L.bits2Num (Bits.ofNat 32 w.toNat) (by rw [Bits.length_ofNat]; decide) out
  rw [Bits.length_ofNat, Bits.toNat_ofNat 32 w.isLt] at hb
  rw [hmap]
  exact hb

/-! ## Templates -/

theorem num2Bits_word (L : Circomlib) (w : BitVec 32) (out : List Scalar) :
    L.Num2Bits 32 (signal w) out ↔ out = bitSignals (Bits.ofNat 32 w.toNat) :=
  L.num2Bits 32 w.toNat (by decide) w.isLt out

/-- The bit of a word among its signals. -/
theorem getD_word {i : Nat} (hi : i < 32) (w : BitVec 32) :
    (bitSignals (Bits.ofNat 32 w.toNat)).getD i 0 = ofBit (w.getLsbD i) := getD_bitSignals hi w.toNat

theorem rotL32_iff (L : Circomlib) {s : Nat} (hs : s < 32) (w : BitVec 32) (out : Scalar) :
    RotL32 L s (signal w) out ↔ out = signal (w.rotateLeft s) := by
  have hbits : ∀ i < 32, (bitSignals (Bits.ofNat 32 w.toNat)).getD ((i + 32 - s) % 32) 0 =
      ofBit ((w.rotateLeft s).getLsbD i) := by
    intro i hi
    rw [getD_word (Nat.mod_lt _ (by decide)), BitVec.getLsbD_rotateLeft, Nat.mod_eq_of_lt hs]
    by_cases h : i < s
    · rw [show (i + 32 - s) % 32 = 32 - s + i by omega, decide_eq_true h, cond_true]
    · rw [show (i + 32 - s) % 32 = i - s by omega, decide_eq_false h, cond_false, decide_eq_true hi, Bool.true_and]
  constructor
  · rintro ⟨b, hb, hout⟩
    rw [num2Bits_word] at hb
    subst hb
    exact (bits2Num_word L hbits out).1 hout
  · intro hout
    exact ⟨_, (num2Bits_word L w _).2 rfl, (bits2Num_word L hbits out).2 hout⟩

theorem low32_iff (L : Circomlib) {width v : Nat} (h32 : 32 ≤ width) (hw : width ≤ 253) (hv : v < 2 ^ width) (out : Scalar) :
    Low32 L width (v : Scalar) out ↔ out = signal (BitVec.ofNat 32 v) := by
  have hbits : ∀ i < 32, (bitSignals (Bits.ofNat width v)).getD i 0 = ofBit ((BitVec.ofNat 32 v).getLsbD i) := by
    intro i hi
    rw [getD_bitSignals (Nat.lt_of_lt_of_le hi h32), BitVec.getLsbD_ofNat, decide_eq_true hi, Bool.true_and]
  constructor
  · rintro ⟨b, hb, hout⟩
    rw [L.num2Bits width v hw hv] at hb
    subst hb
    exact (bits2Num_word L hbits out).1 hout
  · intro hout
    exact ⟨_, (L.num2Bits width v hw hv _).2 rfl, (bits2Num_word L hbits out).2 hout⟩

/-- The polynomials are the functions on bits. -/
theorem fbit_eq {i : Nat} (hi : i < 32) (roundType : Nat) (x y z : BitVec 32) :
    fbit roundType (ofBit (x.getLsbD i)) (ofBit (y.getLsbD i)) (ofBit (z.getLsbD i)) =
      ofBit ((Ripemd160.f roundType x y z).getLsbD i) := by
  rcases roundType with _ | _ | _ | _ | roundType <;>
    simp only [fbit, Ripemd160.f, BitVec.getLsbD_xor, BitVec.getLsbD_or, BitVec.getLsbD_and, BitVec.getLsbD_not, hi,
      decide_true, Bool.true_and] <;>
    generalize x.getLsbD i = a <;> generalize y.getLsbD i = b <;> generalize z.getLsbD i = c <;>
    cases a <;> cases b <;> cases c <;> simp [ofBit] <;> ring

/-- A round is the step of a word. -/
theorem ripeRound_iff (L : Circomlib) {roundType s K : Nat} (hs : s < 32) (hK : K < 2 ^ 32) (a b c d e x : BitVec 32)
    (tout : Scalar) :
    RipeRound L roundType s K (signal a) (signal b) (signal c) (signal d) (signal e) (signal x) tout ↔
      tout = signal ((a + Ripemd160.f roundType b c d + x + BitVec.ofNat 32 K).rotateLeft s + e) := by
  have hf : ∀ i < 32, fbit roundType ((bitSignals (Bits.ofNat 32 b.toNat)).getD i 0)
      ((bitSignals (Bits.ofNat 32 c.toNat)).getD i 0) ((bitSignals (Bits.ofNat 32 d.toNat)).getD i 0) =
      ofBit ((Ripemd160.f roundType b c d).getLsbD i) := by
    intro i hi
    rw [getD_word hi, getD_word hi, getD_word hi, fbit_eq hi]
  generalize hfv : Ripemd160.f roundType b c d = fv at hf
  -- four words, and two, are sums without a carry out of the widths
  have hsum : signal a + signal fv + signal x + (K : Scalar) = ((a.toNat + fv.toNat + x.toNat + K : Nat) : Scalar) := by
    push_cast
    rfl
  have hlt : a.toNat + fv.toNat + x.toNat + K < 2 ^ 34 := by
    have ha := a.isLt
    have hv := fv.isLt
    have hx := x.isLt
    omega
  have hlow : BitVec.ofNat 32 (a.toNat + fv.toNat + x.toNat + K) = a + fv + x + BitVec.ofNat 32 K := by
    rw [BitVec.ofNat_add, BitVec.ofNat_add, BitVec.ofNat_add, BitVec.ofNat_toNat, BitVec.ofNat_toNat, BitVec.ofNat_toNat,
      BitVec.setWidth_eq, BitVec.setWidth_eq, BitVec.setWidth_eq]
  have hlow34 : ∀ out, Low32 L 34 (signal a + signal fv + signal x + (K : Scalar)) out ↔
      out = signal (a + fv + x + BitVec.ofNat 32 K) := by
    intro out
    rw [hsum, low32_iff L (by decide) (by decide) hlt, hlow]
  have hlow33 : ∀ (w : BitVec 32) out, Low32 L 33 (signal w + signal e) out ↔ out = signal (w + e) := by
    intro w out
    have hwe : w.toNat + e.toNat < 2 ^ 33 := by
      have hw := w.isLt
      have he := e.isLt
      omega
    rw [show signal w + signal e = ((w.toNat + e.toNat : Nat) : Scalar) by push_cast; rfl,
      low32_iff L (by decide) (by decide) hwe, BitVec.ofNat_add, BitVec.ofNat_toNat, BitVec.ofNat_toNat,
      BitVec.setWidth_eq, BitVec.setWidth_eq]
  constructor
  · rintro ⟨bb, cc, dd, fval, s1low, rot, hb, hc, hd, hfval, hs1, hrot, htout⟩
    rw [num2Bits_word] at hb hc hd
    subst hb hc hd
    rw [bits2Num_word L hf] at hfval
    subst hfval
    rw [hlow34] at hs1
    subst hs1
    rw [rotL32_iff L hs] at hrot
    subst hrot
    exact (hlow33 _ tout).1 htout
  · intro htout
    exact ⟨_, _, _, _, _, _, (num2Bits_word L b _).2 rfl, (num2Bits_word L c _).2 rfl, (num2Bits_word L d _).2 rfl,
      (bits2Num_word L hf _).2 rfl, (hlow34 _).2 rfl, (rotL32_iff L hs _ _).2 rfl, (hlow33 _ tout).2 htout⟩

/-! ## Lines -/

/-- The signals of a line after `j` steps are a chain's. -/
structure Line.At (l : Line) (j : Nat) (h : Ripemd160.Chain) : Prop where
  a : l.a j = signal h.a
  b : l.b j = signal h.b
  c : l.c j = signal h.c
  d : l.d j = signal h.d
  e : l.e j = signal h.e

/-- The tables of a line are those of its steps `g`. -/
structure Tables (roundType : Nat → Nat) (R S K : List Nat)
    (g : (Nat → BitVec 32) → Ripemd160.Chain → Nat → Ripemd160.Chain) : Prop where
  word_lt : ∀ j < 80, R.getD j 0 < 16
  shift_lt : ∀ j < 80, S.getD j 0 < 32
  const_lt : ∀ j < 80, K.getD (j / 16) 0 < 2 ^ 32
  step : ∀ j < 80, ∀ X h, g X h j =
    Ripemd160.step (roundType j) (X (R.getD j 0)) (BitVec.ofNat 32 (K.getD (j / 16) 0)) (S.getD j 0) h

theorem tables_left : Tables (fun j => j / 16) RL SL KL Ripemd160.left where
  word_lt := by decide
  shift_lt := by decide
  const_lt := by decide
  step := by
    intro j hj X h
    have hr : ∀ j < 80, RL.getD j 0 = Ripemd160.r j := by decide
    have hs : ∀ j < 80, SL.getD j 0 = Ripemd160.shift (j / 16) (Ripemd160.r j) := by decide
    have hk : ∀ j < 80, BitVec.ofNat 32 (KL.getD (j / 16) 0) = Ripemd160.K.getD (j / 16) 0 := by decide
    rw [hr j hj, hs j hj, hk j hj, Ripemd160.left]

theorem tables_right : Tables (fun j => (79 - j) / 16) RR SR KR Ripemd160.right where
  word_lt := by decide
  shift_lt := by decide
  const_lt := by decide
  step := by
    intro j hj X h
    have hr : ∀ j < 80, RR.getD j 0 = Ripemd160.r' j := by decide
    have hs : ∀ j < 80, SR.getD j 0 = Ripemd160.shift (j / 16) (Ripemd160.r' j) := by decide
    have hk : ∀ j < 80, BitVec.ofNat 32 (KR.getD (j / 16) 0) = Ripemd160.K'.getD (j / 16) 0 := by decide
    have hround : (79 - j) / 16 = 4 - j / 16 := by omega
    rw [hr j hj, hs j hj, hk j hj, hround, Ripemd160.right]

/-- The chain of a line after `j` steps. -/
def chain (g : (Nat → BitVec 32) → Ripemd160.Chain → Nat → Ripemd160.Chain) (W : Nat → BitVec 32) (j : Nat) :
    Ripemd160.Chain :=
  (List.range j).foldl (g W) Ripemd160.initial

section
variable {L : Circomlib} {X : Nat → Scalar} {W : Nat → BitVec 32} {roundType : Nat → Nat} {R S K : List Nat}
  {g : (Nat → BitVec 32) → Ripemd160.Chain → Nat → Ripemd160.Chain}

theorem chain_succ (ht : Tables roundType R S K g) {j : Nat} (hj : j < 80) : chain g W (j + 1) =
    Ripemd160.step (roundType j) (W (R.getD j 0)) (BitVec.ofNat 32 (K.getD (j / 16) 0)) (S.getD j 0) (chain g W j) := by
  rw [← ht.step j hj W, chain, List.range_succ, List.foldl_append]
  rfl

/-- After every step the signals of a line can only be the words of the chain. -/
theorem Line.Satisfies.at_chain (ht : Tables roundType R S K g) (hX : ∀ w < 16, X w = signal (W w)) {l : Line}
    (hl : l.Satisfies L X roundType R S K) : ∀ j ≤ 80, l.At j (chain g W j) := by
  intro j
  induction j with
  | zero => intro _; exact ⟨hl.a_zero, hl.b_zero, hl.c_zero, hl.d_zero, hl.e_zero⟩
  | succ j ih =>
    intro hj
    have hat := ih (by omega)
    have hlt : j < 80 := hj
    have hrnd := hl.rnd j hlt
    rw [hat.a, hat.b, hat.c, hat.d, hat.e, hX _ (ht.word_lt j hlt), ripeRound_iff L (ht.shift_lt j hlt) (ht.const_lt j hlt)]
      at hrnd
    have hrot := hl.rot j hlt
    rw [hat.c, rotL32_iff L (by decide)] at hrot
    rw [chain_succ ht hlt]
    exact ⟨(hl.a_succ j hlt).trans hat.e, hrnd, (hl.c_succ j hlt).trans hat.b, hrot, (hl.e_succ j hlt).trans hat.d⟩

/-- The line that holds the words of the chain. -/
def Line.ofChain (t : Nat → Ripemd160.Chain) : Line where
  a := fun j => signal (t j).a
  b := fun j => signal (t j).b
  c := fun j => signal (t j).c
  d := fun j => signal (t j).d
  e := fun j => signal (t j).e

theorem Line.ofChain_satisfies (ht : Tables roundType R S K g) (hX : ∀ w < 16, X w = signal (W w)) :
    (Line.ofChain (chain g W)).Satisfies L X roundType R S K where
  a_zero := rfl
  b_zero := rfl
  c_zero := rfl
  d_zero := rfl
  e_zero := rfl
  rnd := by
    intro j hj
    rw [hX _ (ht.word_lt j hj)]
    refine (ripeRound_iff L (ht.shift_lt j hj) (ht.const_lt j hj) _ _ _ _ _ _ _).2 ?_
    exact congrArg (fun h => signal h.b) (chain_succ ht hj)
  rot := by
    intro j hj
    refine (rotL32_iff L (by decide) _ _).2 ?_
    exact congrArg (fun h => signal h.d) (chain_succ ht hj)
  a_succ := fun _ hj => congrArg (fun h : Ripemd160.Chain => signal h.a) (chain_succ (W := W) ht hj)
  c_succ := fun _ hj => congrArg (fun h : Ripemd160.Chain => signal h.c) (chain_succ (W := W) ht hj)
  e_succ := fun _ hj => congrArg (fun h : Ripemd160.Chain => signal h.e) (chain_succ (W := W) ht hj)

end

/-! ## The message -/

theorem getD_ofBytes {b : Nat} (hb : b < 8) (bytes : List UInt8) : ∀ {i}, i < bytes.length →
    (bitSignals (Bits.ofBytes bytes)).getD (8 * i + b) 0 = ofBit ((bytes.getD i 0).toNat.testBit (7 - b)) := by
  induction bytes with
  | nil => intro i hi; cases hi
  | cons x bytes ih =>
    intro i hi
    rw [Bits.ofBytes_cons, RegistrationEngines.bitSignals_append, List.getD_eq_getElem?_getD, List.getElem?_append]
    have hlen : (bitSignals (Bits.ofNat 8 x.toNat).reverse).length = 8 := by
      rw [bitSignals, List.length_map, List.length_reverse, Bits.length_ofNat]
    rw [hlen]
    cases i with
    | zero =>
      rw [if_pos (by omega), ← RegistrationEngines.bitSignals_reverse,
        List.getElem?_reverse (by rw [bitSignals, List.length_map, Bits.length_ofNat]; omega), bitSignals, List.length_map,
        Bits.length_ofNat, ← bitSignals, ← List.getD_eq_getElem?_getD, show 8 - 1 - (8 * 0 + b) = 7 - b by omega,
        getD_bitSignals (by omega)]
      rfl
    | succ i =>
      rw [if_neg (by omega), show 8 * (i + 1) + b - 8 = 8 * i + b by omega, ← List.getD_eq_getElem?_getD,
        ih (Nat.lt_of_succ_lt_succ hi)]
      rfl

/-- The weights put the bits of a byte together. -/
theorem sum_weights {v : Nat} (hv : v < 256) : ((List.range 8).map fun b => (v.testBit (7 - b)).toNat * W8.getD b 0).sum = v := by
  revert v
  decide +kernel

/-- The bytes of a message, as the accumulators make them. -/
theorem Signals.Satisfies.mbyte_eq {L : Circomlib} {s : Signals} (h : s.Satisfies L) {bytes : List UInt8}
    (hlen : bytes.length = 32) (hin : s.input = bitSignals (Bits.ofBytes bytes)) {i : Nat} (hi : i < 32) :
    s.mbyte i = ((bytes.getD i 0).toNat : Scalar) := by
  have hacc : ∀ b ≤ 8, s.bacc i b =
      ((((List.range b).map fun b => ((bytes.getD i 0).toNat.testBit (7 - b)).toNat * W8.getD b 0).sum : Nat) : Scalar) := by
    intro b
    induction b with
    | zero => intro _; rw [h.bacc_zero i hi]; rfl
    | succ b ih =>
      intro hb
      rw [h.bacc_succ i hi b hb, ih (by omega), hin, getD_ofBytes hb bytes (by omega), List.range_succ, List.map_append,
        List.sum_append, Nat.cast_add, List.map_singleton, List.sum_singleton, Nat.cast_mul, ofBit_eq]
  rw [h.mbyte i hi, hacc 8 (Nat.le_refl 8), sum_weights (UInt8.toNat_lt _)]

theorem take_four {bytes : List UInt8} {i : Nat} (hi : i + 4 ≤ bytes.length) : (bytes.drop i).take 4 =
    [bytes.getD i 0, bytes.getD (i + 1) 0, bytes.getD (i + 2) 0, bytes.getD (i + 3) 0] := by
  rw [List.drop_eq_getElem_cons (by omega), List.drop_eq_getElem_cons (by omega), List.drop_eq_getElem_cons (by omega),
    List.drop_eq_getElem_cons (by omega)]
  simp only [List.take_succ_cons, List.take_zero, List.getD_eq_getElem?_getD]
  rw [List.getElem?_eq_getElem (by omega), List.getElem?_eq_getElem (by omega), List.getElem?_eq_getElem (by omega),
    List.getElem?_eq_getElem (by omega)]
  rfl

/-- What follows a message of 32 bytes. -/
def padding : List UInt8 := 0x80 :: List.replicate 23 0 ++ Bytes.toLE 8 256

theorem pad_eq {bytes : List UInt8} (hlen : bytes.length = 32) : Ripemd160.pad bytes = bytes ++ padding := by
  rw [Ripemd160.pad, hlen, List.append_assoc]
  rfl

theorem word_low {bytes : List UInt8} (hlen : bytes.length = 32) {w : Nat} (hw : w < 8) :
    signal (Ripemd160.word (bytes ++ padding) w) = ((bytes.getD (4 * w) 0).toNat : Scalar) +
      ((bytes.getD (4 * w + 1) 0).toNat : Scalar) * 256 + ((bytes.getD (4 * w + 2) 0).toNat : Scalar) * 65536 +
      ((bytes.getD (4 * w + 3) 0).toNat : Scalar) * 16777216 := by
  have htake : ((bytes ++ padding).drop (4 * w)).take 4 = (bytes.drop (4 * w)).take 4 := by
    rw [List.drop_append, List.take_append_of_le_length (by rw [List.length_drop]; omega)]
  rw [Ripemd160.word, htake, take_four (by omega)]
  generalize bytes.getD (4 * w) 0 = b₀
  generalize bytes.getD (4 * w + 1) 0 = b₁
  generalize bytes.getD (4 * w + 2) 0 = b₂
  generalize bytes.getD (4 * w + 3) 0 = b₃
  have hlt : Bytes.ofLE [b₀, b₁, b₂, b₃] < 2 ^ 32 := by
    have h := Bytes.ofLE_lt [b₀, b₁, b₂, b₃]
    simp only [List.length_cons, List.length_nil] at h
    omega
  rw [signal, BitVec.toNat_ofNat, Nat.mod_eq_of_lt hlt]
  simp only [Bytes.ofLE]
  push_cast
  ring

theorem word_high {bytes : List UInt8} (hlen : bytes.length = 32) {w : Nat} (hw : 8 ≤ w) :
    Ripemd160.word (bytes ++ padding) w = Ripemd160.word padding (w - 8) := by
  rw [Ripemd160.word, Ripemd160.word, List.drop_append, List.drop_eq_nil_of_le (by omega), List.nil_append, hlen,
    show 4 * w - 32 = 4 * (w - 8) by omega]

/-- The words of the block can only be those of the padded message. -/
theorem Signals.Satisfies.words_eq {L : Circomlib} {s : Signals} (h : s.Satisfies L) {bytes : List UInt8}
    (hlen : bytes.length = 32) (hin : s.input = bitSignals (Bits.ofBytes bytes)) :
    ∀ w < 16, s.X w = signal (Ripemd160.word (Ripemd160.pad bytes) w) := by
  intro w hw
  rw [pad_eq hlen]
  by_cases h8 : w < 8
  · rw [h.words w h8, h.mbyte_eq hlen hin (by omega), h.mbyte_eq hlen hin (by omega), h.mbyte_eq hlen hin (by omega),
      h.mbyte_eq hlen hin (by omega), word_low hlen h8]
  · rw [word_high hlen (by omega)]
    have hpad : ∀ v < 8, Ripemd160.word padding v = if v = 0 then 128 else if v = 6 then 256 else 0 := by decide
    rw [hpad (w - 8) (by omega)]
    by_cases hbit : w = 8
    · subst hbit
      exact h.bit
    · by_cases hlength : w = 14
      · subst hlength
        exact h.length
      · rw [if_neg (by omega), if_neg (by omega), h.zeros w (by simp only [List.mem_cons]; omega)]
        exact Nat.cast_zero.symm

/-! ## The digest -/

/-- The bits of a word in the order of the output. -/
def wordBits (b : List Scalar) : List Scalar :=
  (List.range 4).flatMap fun k => (List.range 8).map fun i => b.getD (8 * k + (7 - i)) 0

theorem wordBits_eq (w : BitVec 32) :
    wordBits (bitSignals (Bits.ofNat 32 w.toNat)) = bitSignals (Bits.ofBytes (Bytes.toLE 4 w.toNat)) := by
  have hbyte : ∀ k < 4, bitSignals (Bits.ofNat 8 (w.toNat / 256 ^ k % 256)).reverse =
      (List.range 8).map fun i => (bitSignals (Bits.ofNat 32 w.toNat)).getD (8 * k + (7 - i)) 0 := by
    intro k hk
    have hbit : ∀ i < 8, (bitSignals (Bits.ofNat 32 w.toNat)).getD (8 * k + i) 0 =
        ofBit ((w.toNat / 256 ^ k % 256).testBit i) := by
      intro i hi
      rw [getD_bitSignals (by omega), show (256 : Nat) = 2 ^ 8 from rfl, ← pow_mul, Nat.testBit_mod_two_pow,
        Nat.testBit_div_two_pow, decide_eq_true hi, Bool.true_and, Nat.add_comm]
    rw [ofNat_eq_range, bitSignals, List.map_reverse, List.map_map]
    simp only [show List.range 8 = [0, 1, 2, 3, 4, 5, 6, 7] from rfl, List.map_cons, List.map_nil, List.reverse_cons,
      List.reverse_nil, List.nil_append, List.cons_append, Nat.reduceSub, Function.comp]
    rw [hbit 0 (by decide), hbit 1 (by decide), hbit 2 (by decide), hbit 3 (by decide), hbit 4 (by decide),
      hbit 5 (by decide), hbit 6 (by decide), hbit 7 (by decide)]
    rfl
  have hmap : ∀ bs : List UInt8, bitSignals (Bits.ofBytes bs) = bs.flatMap fun b => bitSignals (Bits.ofNat 8 b.toNat).reverse :=
    fun bs => List.map_flatMap
  rw [Bytes.toLE_eq_range, hmap, List.flatMap_map, wordBits]
  refine List.flatMap_congr fun k hk => ?_
  rw [Utf8.toNat_byte (Nat.mod_lt _ (by decide)), ← hbyte k (List.mem_range.1 hk)]

theorem bitSignals_words (ws : List (BitVec 32)) :
    bitSignals (Bits.ofBytes (ws.flatMap fun w => Bytes.toLE 4 w.toNat)) =
      ws.flatMap fun w => wordBits (bitSignals (Bits.ofNat 32 w.toNat)) := by
  rw [Bits.ofBytes, List.flatMap_assoc, bitSignals, List.map_flatMap]
  refine List.flatMap_congr fun w _ => ?_
  rw [wordBits_eq]
  rfl

/-- Three words added up. -/
theorem low32_sum (L : Circomlib) (a b c : BitVec 32) (out : Scalar) :
    Low32 L 34 (signal a + signal b + signal c) out ↔ out = signal (a + b + c) := by
  have hlt : a.toNat + b.toNat + c.toNat < 2 ^ 34 := by
    have ha := a.isLt
    have hb := b.isLt
    have hc := c.isLt
    omega
  rw [show signal a + signal b + signal c = ((a.toNat + b.toNat + c.toNat : Nat) : Scalar) by push_cast; rfl,
    low32_iff L (by decide) (by decide) hlt, BitVec.ofNat_add, BitVec.ofNat_add, BitVec.ofNat_toNat, BitVec.ofNat_toNat,
    BitVec.ofNat_toNat, BitVec.setWidth_eq, BitVec.setWidth_eq, BitVec.setWidth_eq]

theorem initial_signals : H0 = signal Ripemd160.initial.a ∧ H1 = signal Ripemd160.initial.b ∧
    H2 = signal Ripemd160.initial.c ∧ H3 = signal Ripemd160.initial.d ∧ H4 = signal Ripemd160.initial.e :=
  ⟨rfl, rfl, rfl, rfl, rfl⟩

/-- The two lines combined are the words of the compression. -/
theorem combine_iff (L : Circomlib) (W : Nat → BitVec 32) :
    let l := chain Ripemd160.left W 80
    let r := chain Ripemd160.right W 80
    let h := Ripemd160.compress Ripemd160.initial W
    (∀ {out}, Low32 L 34 (H1 + signal l.c + signal r.d) out ↔ out = signal h.a) ∧
    (∀ {out}, Low32 L 34 (H2 + signal l.d + signal r.e) out ↔ out = signal h.b) ∧
    (∀ {out}, Low32 L 34 (H3 + signal l.e + signal r.a) out ↔ out = signal h.c) ∧
    (∀ {out}, Low32 L 34 (H4 + signal l.a + signal r.b) out ↔ out = signal h.d) ∧
    ∀ {out}, Low32 L 34 (H0 + signal l.b + signal r.c) out ↔ out = signal h.e := by
  obtain ⟨h0, h1, h2, h3, h4⟩ := initial_signals
  intro l r h
  rw [h0, h1, h2, h3, h4]
  exact ⟨fun {out} => low32_sum L _ _ _ out, fun {out} => low32_sum L _ _ _ out, fun {out} => low32_sum L _ _ _ out,
    fun {out} => low32_sum L _ _ _ out, fun {out} => low32_sum L _ _ _ out⟩

/-- The words of the digest. -/
def digest (h : Ripemd160.Chain) : List (BitVec 32) := [h.a, h.b, h.c, h.d, h.e]

theorem ripemd160_eq {bytes : List UInt8} (hlen : bytes.length = 32) : Ripemd160.ripemd160 bytes =
    (digest (Ripemd160.compress Ripemd160.initial (Ripemd160.word (Ripemd160.pad bytes)))).flatMap
      fun w => Bytes.toLE 4 w.toNat := by
  have hblocks : (Ripemd160.pad bytes).length / 64 = 1 := by
    rw [pad_eq hlen, List.length_append, hlen]
    decide
  rw [Ripemd160.ripemd160, hblocks]
  rfl

/-- The assignment that runs the hash. -/
def assignment (bytes : List UInt8) : Signals :=
  let input := bitSignals (Bits.ofBytes bytes)
  let bacc := fun i j => ((List.range j).map fun b => input.getD (8 * i + b) 0 * (W8.getD b 0 : Nat)).sum
  let W := Ripemd160.word (Ripemd160.pad bytes)
  let h := digest (Ripemd160.compress Ripemd160.initial W)
  let hb := fun i => bitSignals (Bits.ofNat 32 (h.getD i 0).toNat)
  { input := input
    bacc := bacc
    mbyte := fun i => bacc i 8
    X := fun w => signal (W w)
    left := Line.ofChain (chain Ripemd160.left W)
    right := Line.ofChain (chain Ripemd160.right W)
    hword := fun i => signal (h.getD i 0)
    hb := hb
    out := (List.range 5).flatMap fun i => wordBits (hb i) }

theorem assignment_satisfies (L : Circomlib) {bytes : List UInt8} (hlen : bytes.length = 32) : (assignment bytes).Satisfies L := by
  have hbyte : ∀ i < 32, (assignment bytes).mbyte i = ((bytes.getD i 0).toNat : Scalar) := by
    intro i hi
    have hsum := sum_weights (UInt8.toNat_lt (bytes.getD i 0))
    have hterm : ∀ b ∈ List.range 8, (bitSignals (Bits.ofBytes bytes)).getD (8 * i + b) 0 * ((W8.getD b 0 : Nat) : Scalar) =
        ((((bytes.getD i 0).toNat.testBit (7 - b)).toNat * W8.getD b 0 : Nat) : Scalar) := by
      intro b hb
      rw [getD_ofBytes (List.mem_range.1 hb) bytes (by omega), ofBit_eq, Nat.cast_mul]
    show ((List.range 8).map fun b => (bitSignals (Bits.ofBytes bytes)).getD (8 * i + b) 0 * (W8.getD b 0 : Nat)).sum = _
    rw [List.map_congr_left hterm]
    conv_rhs => rw [← hsum]
    simp only [show List.range 8 = [0, 1, 2, 3, 4, 5, 6, 7] from rfl, List.map_cons, List.map_nil, List.sum_cons, List.sum_nil,
      Nat.cast_add, Nat.cast_zero]
  have hX : ∀ w < 16, (assignment bytes).X w = signal (Ripemd160.word (Ripemd160.pad bytes) w) := fun _ _ => rfl
  constructor
  · exact fun _ _ => rfl
  · intro i _ b _
    show ((List.range (b + 1)).map _).sum = _
    rw [List.range_succ, List.map_append, List.sum_append, List.map_singleton, List.sum_singleton]
    rfl
  · exact fun _ _ => rfl
  · intro w hw
    rw [hX w (by omega), pad_eq hlen, word_low hlen hw, hbyte _ (by omega), hbyte _ (by omega), hbyte _ (by omega),
      hbyte _ (by omega)]
  · rw [hX 8 (by decide), pad_eq hlen, word_high hlen (by decide)]
    decide +kernel
  · intro w hw
    have hw16 : 8 ≤ w ∧ w < 16 := by
      revert w
      decide
    rw [hX w hw16.2, pad_eq hlen, word_high hlen hw16.1]
    revert w
    decide +kernel
  · rw [hX 14 (by decide), pad_eq hlen, word_high hlen (by decide)]
    decide +kernel
  · exact Line.ofChain_satisfies tables_left hX
  · exact Line.ofChain_satisfies tables_right hX
  · exact (combine_iff L _).1.2 rfl
  · exact (combine_iff L _).2.1.2 rfl
  · exact (combine_iff L _).2.2.1.2 rfl
  · exact (combine_iff L _).2.2.2.1.2 rfl
  · exact (combine_iff L _).2.2.2.2.2 rfl
  · exact fun _ _ => (num2Bits_word L _ _).2 rfl
  · rfl

/-- Whatever satisfies the constraints holds the digest. -/
theorem Signals.Satisfies.out_eq {L : Circomlib} {s : Signals} (h : s.Satisfies L) {bytes : List UInt8}
    (hlen : bytes.length = 32) (hin : s.input = bitSignals (Bits.ofBytes bytes)) :
    s.out = bitSignals (Bits.ofBytes (Ripemd160.ripemd160 bytes)) := by
  have hX := h.words_eq hlen hin
  have hl := h.left.at_chain tables_left hX 80 (Nat.le_refl 80)
  have hr := h.right.at_chain tables_right hX 80 (Nat.le_refl 80)
  have h0 := h.oc0
  rw [hl.c, hr.d, (combine_iff L _).1] at h0
  have h1 := h.oc1
  rw [hl.d, hr.e, (combine_iff L _).2.1] at h1
  have h2 := h.oc2
  rw [hl.e, hr.a, (combine_iff L _).2.2.1] at h2
  have h3 := h.oc3
  rw [hl.a, hr.b, (combine_iff L _).2.2.2.1] at h3
  have h4 := h.oc4
  rw [hl.b, hr.c, (combine_iff L _).2.2.2.2] at h4
  have hb0 := h.hb 0 (by decide)
  rw [h0, num2Bits_word] at hb0
  have hb1 := h.hb 1 (by decide)
  rw [h1, num2Bits_word] at hb1
  have hb2 := h.hb 2 (by decide)
  rw [h2, num2Bits_word] at hb2
  have hb3 := h.hb 3 (by decide)
  rw [h3, num2Bits_word] at hb3
  have hb4 := h.hb 4 (by decide)
  rw [h4, num2Bits_word] at hb4
  have hout : s.out = (List.range 5).flatMap fun i => wordBits (s.hb i) := h.out
  rw [hout, ripemd160_eq hlen, bitSignals_words]
  simp only [show List.range 5 = [0, 1, 2, 3, 4] from rfl, List.flatMap_cons, List.flatMap_nil, digest, hb0, hb1, hb2, hb3, hb4]

/-- The template admits one output, the digest of its input. -/
theorem ripemd160_iff (L : Circomlib) {bytes : List UInt8} (hlen : bytes.length = 32) (out : List Scalar) :
    Ripemd160 L (bitSignals (Bits.ofBytes bytes)) out ↔ out = bitSignals (Bits.ofBytes (Ripemd160.ripemd160 bytes)) := by
  constructor
  · rintro ⟨s, hs, hin, rfl⟩
    exact hs.out_eq hlen hin
  · rintro rfl
    have hs := assignment_satisfies L hlen
    exact ⟨assignment bytes, hs, rfl, hs.out_eq hlen rfl⟩

/-- Bits in eights are the bits of their bytes. -/
theorem ofBytes_toBytes (n : Nat) : ∀ {bits : List Bool}, bits.length = 8 * n →
    Bits.ofBytes (Bits.toBytes bits) = bits ∧ (Bits.toBytes bits).length = n := by
  induction n with
  | zero =>
    intro bits h
    rw [List.eq_nil_of_length_eq_zero h]
    exact ⟨rfl, rfl⟩
  | succ n ih =>
    intro bits h
    match bits, h with
    | b₀ :: b₁ :: b₂ :: b₃ :: b₄ :: b₅ :: b₆ :: b₇ :: bits, h =>
      have hrest : bits.length = 8 * n := by
        simp only [List.length_cons] at h
        omega
      obtain ⟨hbits, hlen⟩ := ih hrest
      have hbyte : ∀ b₀ b₁ b₂ b₃ b₄ b₅ b₆ b₇ : Bool, (Bits.ofNat 8 (UInt8.ofNat (Bits.toNat
          [b₇, b₆, b₅, b₄, b₃, b₂, b₁, b₀])).toNat).reverse = [b₀, b₁, b₂, b₃, b₄, b₅, b₆, b₇] := by decide +kernel
      rw [Bits.toBytes, Bits.ofBytes_cons, hbits, hbyte, List.length_cons, hlen]
      exact ⟨rfl, rfl⟩

/-! ## The leaf of a key -/

open RegistrationEngines (KeyHash compressed signals)
open OracleLeaves (leafFromPubkey)

section
variable {P : RegistrationEngines.Primitives}

/-- The same primitives with the hash itself. -/
def withHash (P : RegistrationEngines.Primitives) : RegistrationEngines.Primitives := { P with
  ripemd160 := Ripemd160.ripemd160
  ripemd160_length := fun bytes => by
    simp only [Ripemd160.ripemd160, List.flatMap_cons, List.flatMap_nil, List.length_append, Bytes.length_toLE, List.length_nil] }

/-- The components of the registration circuit, with the template in the place of the parameter. -/
def withCircuit (L : Circomlib) (C : RegistrationEngines.Components (withHash P)) :
    RegistrationEngines.Components (withHash P) := { C with
  Num2Bits := L.Num2Bits
  Bits2Num := L.Bits2Num 160
  Ripemd160 := Ripemd160 L
  num2Bits := fun v hv out => L.num2Bits 64 v (by decide) hv out
  bits2Num := fun bits hbits out => hbits ▸ L.bits2Num bits (by omega) out
  ripemd160 := fun _ hlen out => ripemd160_iff L hlen out }

/-- The RIPEMD-160 circuit admits the digest of its input and nothing else, and `CompressAndHash160` over it the leaf of
the key. -/
theorem hash160_iff (L : Circomlib) (C : RegistrationEngines.Components (withHash P)) :
    (∀ bits : List Bool, bits.length = 256 → ∀ out, Ripemd160 L (bitSignals bits) out ↔
      out = bitSignals (Bits.ofBytes (Ripemd160.ripemd160 (Bits.toBytes bits)))) ∧
    ∀ x y : List Nat, x.length = 4 → y.length = 4 → (∀ v ∈ x ++ y, v < 2 ^ 64) → ∀ out,
      (∃ s : KeyHash, s.Satisfies (withCircuit L C) ∧ s.x = signals x ∧ s.y = signals y ∧ s.out = out) ↔
        out = (leafFromPubkey (withHash P).hash160 (compressed (Bits.ofLimbs 64 x, Bits.ofLimbs 64 y)) : Scalar) := by
  constructor
  · intro bits hbits out
    obtain ⟨heq, hlen⟩ := ofBytes_toBytes 32 hbits
    conv_lhs => rw [← heq]
    exact ripemd160_iff L hlen out
  · intro x y hx hy hlt out
    have hlimbs : ∀ xs : List Nat, xs.length = 4 → (∀ v ∈ xs, v < 2 ^ 64) →
        signals xs = signals (RegistrationEngines.privToLimbs (Bits.ofLimbs 64 xs)) := by
      intro xs hlen hxs
      rw [RegistrationEngines.privToLimbs_eq, ← hlen, Bits.limbs_ofLimbs 64 hxs]
    rw [hlimbs x hx fun v hv => hlt v (List.mem_append_left y hv), hlimbs y hy fun v hv => hlt v (List.mem_append_right x hv)]
    have hiff := fun s => RegistrationEngines.keyHash_satisfies_iff (withCircuit L C)
      (Bits.ofLimbs 64 x, Bits.ofLimbs 64 y) (s := s)
    constructor
    · rintro ⟨s, hs, hsx, hsy, rfl⟩
      rw [(hiff s hsx hsy).1 hs]
      rfl
    · rintro rfl
      exact ⟨_, (hiff _ rfl rfl).2 rfl, rfl, rfl, rfl⟩

end

/-- The components of circomlib, each as a function of its input. -/
def circomlib : Circomlib where
  Num2Bits n v out := out = bitSignals (Bits.ofNat n v.val)
  Bits2Num _ bits out := out = (Bits.toNat (RegistrationEngines.signalBits bits) : Scalar)
  num2Bits n v hn hv out := by
    have hlt : v < FIELD_PRIME := lt_of_lt_of_le hv (le_trans (Nat.pow_le_pow_right (by decide) hn) (by decide))
    rw [ZMod.val_natCast_of_lt hlt]
  bits2Num bits _ out := by rw [RegistrationEngines.signalBits_bitSignals]

/-- The generator has the hash that the circuit is tested with. -/
theorem hash160_generator : ∃ s : KeyHash,
    s.Satisfies (withCircuit circomlib (RegistrationEngines.documented (withHash RegistrationEngines.generator))) ∧
    s.x = signals [0x59f2815b16f81798, 0x029bfcdb2dce28d9, 0x55a06295ce870b07, 0x79be667ef9dcbbac] ∧
    s.y = signals [0x9c47d08ffb10d4b8, 0xfd17b448a6855419, 0x5da4fbfc0e1108a8, 0x483ada7726a3c465] ∧
    s.out = (0x751e76e8199196d454941c45d1b3a323f1433bd6 : Nat) := by
  have hleaf : leafFromPubkey (withHash RegistrationEngines.generator).hash160
      (compressed (Bits.ofLimbs 64 [0x59f2815b16f81798, 0x029bfcdb2dce28d9, 0x55a06295ce870b07, 0x79be667ef9dcbbac],
        Bits.ofLimbs 64 [0x9c47d08ffb10d4b8, 0xfd17b448a6855419, 0x5da4fbfc0e1108a8, 0x483ada7726a3c465])) =
      0x751e76e8199196d454941c45d1b3a323f1433bd6 := by decide +kernel
  have hiff := (hash160_iff circomlib (RegistrationEngines.documented (withHash RegistrationEngines.generator))).2
    [0x59f2815b16f81798, 0x029bfcdb2dce28d9, 0x55a06295ce870b07, 0x79be667ef9dcbbac]
    [0x9c47d08ffb10d4b8, 0xfd17b448a6855419, 0x5da4fbfc0e1108a8, 0x483ada7726a3c465] rfl rfl (by decide)
    (0x751e76e8199196d454941c45d1b3a323f1433bd6 : Nat)
  rw [hleaf] at hiff
  exact hiff.2 rfl

end RipemdCircuit
