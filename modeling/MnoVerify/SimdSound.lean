import MnoVerify.Dft
import MnoVerify.Simd
import Mathlib.Data.ZMod.Basic
import Mathlib.Tactic.LinearCombination

/-!
# The transform of SIMD is the DFT

`Near` says of a number that nothing on its way left the range, bounds it, and gives its residue modulo 257. Each operation
takes bounds and residues along, each stage joins two transforms (`Dft.dft_two_mul`, `Dft.dft_add`), and the fold settles the
residue (`expand_eq`).
-/

namespace Simd

open Dft

structure Near (n : Num) (bound : Int) (z : ZMod 257) : Prop where
  fits : n.fits = true
  low : -bound ≤ n.val
  high : n.val ≤ bound
  cast : (n.val : ZMod 257) = z

/-! ## Operations -/

theorem toInt32_eq {n : Int} (hl : -2 ^ 31 ≤ n) (hh : n < 2 ^ 31) : toInt32 n = n := by
  rw [toInt32, MODULUS, Int.bmod_eq_iff (by decide)]
  omega

theorem inRange_eq {n : Int} (hl : -2 ^ 31 ≤ n) (hh : n < 2 ^ 31) : inRange n = true := by
  rw [inRange, decide_eq_true hl, decide_eq_true hh]
  rfl

namespace Near

variable {a b : Num} {A B : Int} {y z : ZMod 257}

theorem mono (h : Near a A z) (hle : A ≤ B) : Near a B z := by
  obtain ⟨hf, hl, hh, hc⟩ := h
  exact ⟨hf, by omega, by omega, hc⟩

/-- A result that is exact. -/
theorem of_result {v : Int} {fits : Bool} (hf : fits = true) (hl : -B ≤ v) (hh : v ≤ B) (hB : B < 2 ^ 31)
    (hc : (v : ZMod 257) = z) : Near (Num.result v v fits) B z := by
  refine ⟨?_, hl, hh, hc⟩
  rw [Num.result, hf, inRange_eq (by omega) (by omega)]
  rfl

theorem congr (h : Near a A y) (he : y = z) : Near a A z := he ▸ h

theorem both (ha : Near a A y) (hb : Near b B z) : (a.fits && b.fits) = true := by rw [ha.fits, hb.fits]; rfl

theorem add (ha : Near a A y) (hb : Near b B z) (hlt : A + B < 2 ^ 31) : Near (a + b) (A + B) (y + z) := by
  have hal := ha.low
  have hah := ha.high
  have hbl := hb.low
  have hbh := hb.high
  refine of_result (ha.both hb) (by omega) (by omega) hlt ?_
  rw [Int.cast_add, ha.cast, hb.cast]

theorem sub (ha : Near a A y) (hb : Near b B z) (hlt : A + B < 2 ^ 31) : Near (a - b) (A + B) (y - z) := by
  have hal := ha.low
  have hah := ha.high
  have hbl := hb.low
  have hbh := hb.high
  refine of_result (ha.both hb) (by omega) (by omega) hlt ?_
  rw [Int.cast_sub, ha.cast, hb.cast]

theorem toInt32 (h : Near a A z) (hlt : A < 2 ^ 31) : Simd.toInt32 a.val = a.val := by
  have hl := h.low
  have hh := h.high
  exact toInt32_eq (by omega) (by omega)

theorem store (h : Near a A z) (hlt : A < 2 ^ 31) : Near a.store A z := by
  rw [Num.store, h.toInt32 hlt]
  exact h

/-- A product that is exact. -/
theorem of_product {v : Int} {fits : Bool} (hf : fits = true) (hl : -B ≤ v) (hh : v ≤ B) (hB : B < 2 ^ 31)
    (hc : (v : ZMod 257) = z) : Near (Num.result (Simd.toInt32 v) v fits) B z := by
  have hv : Simd.toInt32 v = v := toInt32_eq (by omega) (by omega)
  rw [hv]
  exact of_result hf hl hh hB hc

theorem shl (h : Near a A z) (n : Nat) (hlt : A * 2 ^ n < 2 ^ 31) : Near (a <<< n) (A * 2 ^ n) (z * 2 ^ n) := by
  have hpos : (0 : Int) < 2 ^ n := pow_pos (by decide) n
  have hA : 0 ≤ A := by
    have hl := h.low
    have hh := h.high
    omega
  have hA' : A < 2 ^ 31 := lt_of_le_of_lt (le_mul_of_one_le_right hA hpos) hlt
  change Near (Num.result (Simd.toInt32 (Simd.toInt32 a.val * 2 ^ n)) (a.val * 2 ^ n) a.fits) _ _
  rw [h.toInt32 hA']
  refine of_product h.fits ?_ ?_ hlt ?_
  · rw [← Int.neg_mul]
    exact Int.mul_le_mul_of_nonneg_right h.low hpos.le
  · exact Int.mul_le_mul_of_nonneg_right h.high hpos.le
  · rw [Int.cast_mul, h.cast, Int.cast_pow, Int.cast_ofNat]

theorem imul (ha : Near a A y) (hb : Near b B z) (hlt : A * B < 2 ^ 31) : Near (a.imul b) (A * B) (y * z) := by
  have hab : |a.val * b.val| ≤ A * B := by
    rw [abs_mul]
    exact mul_le_mul (abs_le.2 ⟨ha.low, ha.high⟩) (abs_le.2 ⟨hb.low, hb.high⟩) (abs_nonneg _)
      (le_trans (abs_nonneg _) (abs_le.2 ⟨ha.low, ha.high⟩))
  refine of_product (ha.both hb) (abs_le.1 hab).1 (abs_le.1 hab).2 hlt ?_
  rw [Int.cast_mul, ha.cast, hb.cast]

theorem ones (h : Near a A z) (hlt : A < 2 ^ 31) (n : Nat) : a.ones n = ⟨a.val % 2 ^ n, true⟩ := by
  rw [Num.ones, h.toInt32 hlt, h.fits]

/-- What is above bit `n`. -/
theorem shr (h : Near a A z) (hlt : A < 2 ^ 31) {n : Nat} (hl : -2 ^ 31 ≤ a.val / 2 ^ n) (hh : a.val / 2 ^ n < 2 ^ 31) :
    a >>> n = ⟨a.val / 2 ^ n, true⟩ := by
  change Num.result (Simd.toInt32 a.val / 2 ^ n) (a.val / 2 ^ n) a.fits = _
  rw [h.toInt32 hlt, h.fits, Num.result, inRange_eq hl hh]
  rfl

theorem reds1_val (h : Near a A z) (hlt : A < 2 ^ 31) : (Simd.reds1 a).val = a.val % 256 - a.val / 256 := by
  have hl := h.low
  have hh := h.high
  rw [Simd.reds1, h.ones hlt, h.shr hlt (by omega) (by omega)]
  rfl

theorem reds2_val (h : Near a A z) (hlt : A < 2 ^ 31) : (Simd.reds2 a).val = a.val % 65536 + a.val / 65536 := by
  have hl := h.low
  have hh := h.high
  rw [Simd.reds2, h.ones hlt, h.shr hlt (by omega) (by omega)]
  rfl

theorem reds1 (h : Near a A z) (hlt : A < 2 ^ 31) : Near (Simd.reds1 a) (256 + A / 256) z := by
  have hl := h.low
  have hh := h.high
  rw [Simd.reds1, h.ones hlt, h.shr hlt (by omega) (by omega)]
  refine of_result (v := a.val % 2 ^ 8 - a.val / 2 ^ 8) rfl (by omega) (by omega) (by omega) ?_
  rw [← h.cast, ZMod.intCast_eq_intCast_iff_dvd_sub]
  omega

theorem reds2 (h : Near a A z) (hlt : A < 2 ^ 31) : Near (Simd.reds2 a) (65536 + A / 65536) z := by
  have hl := h.low
  have hh := h.high
  rw [Simd.reds2, h.ones hlt, h.shr hlt (by omega) (by omega)]
  refine of_result (v := a.val % 2 ^ 16 + a.val / 2 ^ 16) rfl (by omega) (by omega) (by omega) ?_
  rw [← h.cast, ZMod.intCast_eq_intCast_iff_dvd_sub]
  omega

end Near

/-! ## The base transforms -/

/-- The bytes of a block from `xb` on, `xs` apart, in the field. -/
def part (x : Block) (xb xs : Nat) (j : Nat) : ZMod 257 := (x.byte (xb + xs * j) : ZMod 257)

theorem near_read (x : Block) {i : Nat} (hi : i < 128) : Near (x.read i) 255 (x.byte i : ZMod 257) := by
  have hlt : x.byte i < 256 := UInt8.toNat_lt _
  refine ⟨decide_eq_true hi, ?_, ?_, Int.cast_natCast _⟩
  · change -255 ≤ (x.byte i : Int)
    omega
  · change (x.byte i : Int) ≤ 255
    omega

theorem dft_four (w : ZMod 257) (f : Nat → ZMod 257) (i : Nat) :
    dft w 4 f i = f 0 + f 1 * w ^ i + f 2 * w ^ (i * 2) + f 3 * w ^ (i * 3) := by
  rw [dft_succ, dft_succ, dft_succ, dft_succ, dft_zero]
  ring

/-- How far the entries of `fft8` reach. -/
def reach (i : Nat) : Int := if i % 4 = 2 then 8670 else 4658

theorem fft8_near (x : Block) {xb xs : Nat} (hx : xb + 3 * xs < 128) {i : Nat} (hi : i < 8) :
    Near ((fft8 x xb xs).getD i ⟨0, false⟩) (reach i) (dft 4 4 (part x xb xs) i) := by
  have h0 := near_read x (show xb < 128 by omega)
  have h1 := near_read x (show xb + xs < 128 by omega)
  have h2 := near_read x (show xb + 2 * xs < 128 by omega)
  have h3 := near_read x hx
  have a0 := h0.add h2 (by decide)
  have a1 := h0.add (h2.shl 4 (by decide)) (by decide)
  have a2 := h0.sub h2 (by decide)
  have a3 := h0.sub (h2.shl 4 (by decide)) (by decide)
  have b0 := h1.add h3 (by decide)
  have b1 := ((h1.shl 2 (by decide)).add (h3.shl 6 (by decide)) (by decide)).reds1 (by decide)
  have b2 := (h1.shl 4 (by decide)).sub (h3.shl 4 (by decide)) (by decide)
  have b3 := ((h1.shl 6 (by decide)).add (h3.shl 2 (by decide)) (by decide)).reds1 (by decide)
  have hp : (257 : ZMod 257) = 0 := rfl
  have hf : ∀ j, part x xb xs j = (x.byte (xb + xs * j) : ZMod 257) := fun _ => rfl
  have hmul : ∀ j, xb + xs * j = xb + j * xs := fun j => by rw [Nat.mul_comm]
  have close : ∀ {n : Num} {B : Int} {y : ZMod 257}, Near n B y → B ≤ reach i → reach i < 2 ^ 31 →
      y = dft 4 4 (part x xb xs) i → Near n.store (reach i) (dft 4 4 (part x xb xs) i) :=
    fun h hle hlt he => ((h.mono hle).store hlt).congr he
  simp only [dft_four, hf, hmul, Nat.zero_mul, Nat.one_mul, Nat.add_zero] at close ⊢
  -- a coefficient is the multiple of 257 between a power of 4 and the shift in its place
  match i, hi with
  | 0, _ => exact close (a0.add b0 (by decide)) (by decide) (by decide) (by ring)
  | 1, _ => exact close (a1.add b1 (by decide)) (by decide) (by decide) (by ring)
  | 2, _ =>
    exact close (a2.add b2 (by decide)) (by decide) (by decide)
      (by linear_combination (-(x.byte (xb + 2 * xs) : ZMod 257) - 16 * x.byte (xb + 3 * xs)) * hp)
  | 3, _ =>
    exact close (a3.add b3 (by decide)) (by decide) (by decide)
      (by linear_combination (-16 * (x.byte (xb + 2 * xs) : ZMod 257) - 1020 * x.byte (xb + 3 * xs)) * hp)
  | 4, _ =>
    exact close (a0.sub b0 (by decide)) (by decide) (by decide)
      (by linear_combination (-(x.byte (xb + xs) : ZMod 257) - 255 * x.byte (xb + 2 * xs) - 65281 * x.byte (xb + 3 * xs)) * hp)
  | 5, _ =>
    exact close (a1.sub b1 (by decide)) (by decide) (by decide)
      (by linear_combination (-4 * (x.byte (xb + xs) : ZMod 257) - 4080 * x.byte (xb + 2 * xs) - 4177984 * x.byte (xb + 3 * xs)) * hp)
  | 6, _ =>
    exact close (a2.sub b2 (by decide)) (by decide) (by decide)
      (by linear_combination (-16 * (x.byte (xb + xs) : ZMod 257) - 65281 * x.byte (xb + 2 * xs) - 267390960 * x.byte (xb + 3 * xs)) * hp)
  | 7, _ =>
    exact close (a3.sub b3 (by decide)) (by decide) (by decide)
      (by linear_combination (-64 * (x.byte (xb + xs) : ZMod 257) - 1044496 * x.byte (xb + 2 * xs) - 17113021444 * x.byte (xb + 3 * xs)) * hp)

/-! ## Pairs of entries -/

theorem read_write {q : Q} {i : Nat} (hi : i < 256) (n : Num) (j : Nat) :
    (q.write i n).read j = if j = i then n.store else q.read j := by
  rw [Q.read, Q.write, Q.read, List.getD_eq_getElem?_getD, List.getD_eq_getElem?_getD]
  simp only [Vector.getElem?_toList, Vector.getElem?_setIfInBounds]
  by_cases h : j = i
  · rw [if_pos h.symm, if_pos hi, if_pos h]
    rfl
  · rw [if_neg fun he => h he.symm, if_neg h]

/-- Two arrays that agree but for `len` entries from `rb` on. -/
def Outside (q q' : Q) (rb len : Nat) : Prop := ∀ i, i < rb ∨ rb + len ≤ i → q'.read i = q.read i

/-- Of `h` pairs of entries, `h` apart, the first `n` are written: `m` in the first half, `p` in the second. -/
structure Wrote (q q' : Q) (rb h n : Nat) (m p : Nat → Num) : Prop where
  first : ∀ k < n, q'.read (rb + k) = (m k).store
  second : ∀ k < n, q'.read (rb + h + k) = (p k).store
  rest : ∀ k, n ≤ k → k < h → q'.read (rb + k) = q.read (rb + k) ∧ q'.read (rb + h + k) = q.read (rb + h + k)
  outside : Outside q q' rb (2 * h)

theorem wrote_zero (q : Q) (rb h : Nat) (m p : Nat → Num) : Wrote q q rb h 0 m p :=
  ⟨nofun, nofun, fun _ _ _ => ⟨rfl, rfl⟩, fun _ _ => rfl⟩

/-- The next pair is written. -/
theorem Wrote.succ {q q' : Q} {rb h n : Nat} {m p : Nat → Num} (hw : Wrote q q' rb h n m p) (hn : n < h)
    (hb : rb + 2 * h ≤ 256) : Wrote q ((q'.write (rb + n) (m n)).write (rb + h + n) (p n)) rb h (n + 1) m p := by
  have hread : ∀ j, ((q'.write (rb + n) (m n)).write (rb + h + n) (p n)).read j =
      if j = rb + h + n then (p n).store else if j = rb + n then (m n).store else q'.read j := fun j => by
    rw [read_write (by omega), read_write (by omega)]
  refine ⟨fun k hk => ?_, fun k hk => ?_, fun k hnk hk => ⟨?_, ?_⟩, fun i hi => ?_⟩
  · rw [hread, if_neg (by omega)]
    rcases Nat.lt_or_eq_of_le (Nat.le_of_lt_succ hk) with hlt | rfl
    · rw [if_neg (by omega), hw.first k hlt]
    · rw [if_pos rfl]
  · rw [hread]
    rcases Nat.lt_or_eq_of_le (Nat.le_of_lt_succ hk) with hlt | rfl
    · rw [if_neg (by omega), if_neg (by omega), hw.second k hlt]
    · rw [if_pos rfl]
  · rw [hread, if_neg (by omega), if_neg (by omega), (hw.rest k (by omega) hk).1]
  · rw [hread, if_neg (by omega), if_neg (by omega), (hw.rest k (by omega) hk).2]
  · rw [hread, if_neg (by omega), if_neg (by omega), hw.outside i hi]

/-- `len` entries from `rb` on, with their residues. -/
def Spans (q : Q) (rb len : Nat) (bound : Int) (g : Nat → ZMod 257) : Prop := ∀ k < len, Near (q.read (rb + k)) bound (g k)

/-- All pairs are written. -/
theorem Wrote.spans {q q' : Q} {rb h : Nat} {m p : Nat → Num} (hw : Wrote q q' rb h h m p) {bound : Int} {g : Nat → ZMod 257}
    (hm : ∀ k < h, Near (m k) bound (g k)) (hp : ∀ k < h, Near (p k) bound (g (h + k))) (hlt : bound < 2 ^ 31) :
    Spans q' rb (2 * h) bound g := by
  intro k hk
  by_cases hkh : k < h
  · rw [hw.first k hkh]
    exact (hm k hkh).store hlt
  · obtain ⟨j, rfl⟩ := Nat.exists_eq_add_of_le (Nat.le_of_not_lt hkh)
    rw [← Nat.add_assoc, hw.second j (by omega)]
    exact (hp j (by omega)).store hlt

/-! ### The loop of `fft16` -/

theorem foldl_wrote {q : Q} {rb h : Nat} {m p : Nat → Num} (step : Q → Nat → Q)
    (hstep : ∀ (q' : Q) (n : Nat), n < h → Wrote q q' rb h n m p → Wrote q (step q' n) rb h (n + 1) m p) (n : Nat) (hn : n ≤ h) :
    Wrote q ((List.range n).foldl step q) rb h n m p := by
  induction n with
  | zero => exact wrote_zero q rb h m p
  | succ n ih =>
    rw [List.range_succ, List.foldl_append]
    exact hstep _ n hn (ih (Nat.le_of_succ_le hn))

theorem part_even (x : Block) (xb xs : Nat) : (fun j => part x xb xs (2 * j)) = part x xb (2 * xs) := by
  funext j
  rw [part, part]
  congr 2
  ring

theorem part_odd (x : Block) (xb xs : Nat) : (fun j => part x xb xs (2 * j + 1)) = part x (xb + xs) (2 * xs) := by
  funext j
  rw [part, part]
  congr 2
  ring

theorem fft16_spec (x : Block) {xb xs : Nat} (hx : xb + 7 * xs < 128) (q : Q) {rb : Nat} (hrb : rb + 16 ≤ 256) :
    Spans (fft16 x xb xs q rb) rb 16 605000 (dft 2 8 (part x xb xs)) ∧ Outside q (fft16 x xb xs q rb) rb 16 := by
  have hs : xs <<< 1 = 2 * xs := by rw [Nat.shiftLeft_eq]; omega
  let d1 := fft8 x xb (2 * xs)
  let d2 := fft8 x (xb + xs) (2 * xs)
  let t := fun i : Nat => d2.getD i ⟨0, false⟩ <<< i
  have hw : Wrote q (fft16 x xb xs q rb) rb 8 8 (fun i => d1.getD i ⟨0, false⟩ + t i) (fun i => d1.getD i ⟨0, false⟩ - t i) := by
    rw [fft16, hs]
    exact foldl_wrote (twist d1 d2 rb) (fun q' n hn hq => hq.succ hn hrb) 8 (Nat.le_refl 8)
  have hroot : (2 : ZMod 257) ^ 2 = 4 := by decide
  have hhalf : (2 : ZMod 257) ^ 8 = -1 := by decide
  have hd1 : ∀ i < 8, Near (d1.getD i ⟨0, false⟩) (reach i) (dft 4 4 (part x xb (2 * xs)) i) := fun i hi => fft8_near x (by omega) hi
  have ht : ∀ i < 8, Near (t i) (reach i * 2 ^ i) (dft 4 4 (part x (xb + xs) (2 * xs)) i * 2 ^ i) := fun i hi =>
    (fft8_near x (by omega) hi).shl i (by revert i; decide)
  have hreach : ∀ i < 8, reach i + reach i * 2 ^ i ≤ 605000 := by decide
  refine ⟨hw.spans (fun i hi => ?_) (fun i hi => ?_) (by decide), hw.outside⟩
  · rw [dft_two_mul 2 4, hroot, part_even, part_odd, mul_comm (2 ^ i)]
    exact ((hd1 i hi).add (ht i hi) (lt_of_le_of_lt (hreach i hi) (by decide))).mono (hreach i hi)
  · rw [dft_add 2 hhalf 4, hroot, part_even, part_odd, mul_comm (2 ^ i)]
    exact ((hd1 i hi).sub (ht i hi) (lt_of_le_of_lt (hreach i hi) (by decide))).mono (hreach i hi)

/-! ### The loops of `fftLoop` -/

theorem length_powers (n v : Nat) : (powers n v).length = n := by
  induction n generalizing v with
  | zero => rfl
  | succ n ih => rw [powers, List.length_cons, ih]

theorem getD_powers {n i : Nat} (hi : i < n) {v : Nat} (hv : v < 257) : (powers n v).getD i 0 = v * 41 ^ i % 257 := by
  induction n generalizing i v with
  | zero => exact absurd hi (Nat.not_lt_zero i)
  | succ n ih =>
    cases i with
    | zero =>
      rw [powers, List.getD_cons_zero, Nat.pow_zero, Nat.mul_one, Nat.mod_eq_of_lt hv]
    | succ i =>
      rw [powers, List.getD_cons_succ, ih (Nat.lt_of_succ_lt_succ hi) (Nat.mod_lt _ (by decide)), Nat.mod_mul_mod, Nat.mul_assoc,
        ← Nat.pow_succ']

/-- An entry of a table of residues. -/
theorem near_entry {t : List Nat} {i : Nat} (hi : i < t.length) (ht : t.getD i 0 ≤ 256) :
    Near (entry t i) 256 ((t.getD i 0 : Nat) : ZMod 257) := by
  refine ⟨decide_eq_true hi, ?_, ?_, Int.cast_natCast _⟩
  · change -256 ≤ ((t.getD i 0 : Nat) : Int)
    omega
  · change ((t.getD i 0 : Nat) : Int) ≤ 256
    omega

theorem near_alpha {i : Nat} (hi : i < 256) : Near (entry ALPHA_TAB i) 256 (41 ^ i) := by
  have hget : ALPHA_TAB.getD i 0 = 41 ^ i % 257 := by
    rw [ALPHA_TAB, getD_powers hi (by decide), Nat.one_mul]
  refine (near_entry (by rw [ALPHA_TAB, length_powers]; exact hi) ?_).congr ?_
  · rw [hget]
    exact Nat.le_of_lt_succ (Nat.mod_lt _ (by decide))
  · rw [hget, ZMod.natCast_mod, Nat.cast_pow, Nat.cast_ofNat]

/-- What joins the pair `k`. -/
def twiddle (q : Q) (rb h as k : Nat) : Num :=
  if k = 0 then q.read (rb + h) else reds2 ((q.read (rb + h + k)).imul (entry ALPHA_TAB (as * k)))

section
variable {q : Q} {rb h as : Nat}

/-- The pairs that a pass leaves. -/
def Passed (q q' : Q) (rb h as n : Nat) : Prop :=
  Wrote q q' rb h n (fun k => q.read (rb + k) + twiddle q rb h as k) fun k => q.read (rb + k) - twiddle q rb h as k

theorem butterfly_passed {q' : Q} (hb : rb + 2 * h ≤ 256) {u v j n : Nat} (hn : n < h) (hpos : 0 < n) (hu : u + j = n)
    (hv : v + j * as = as * n) (hq : Passed q q' rb h as n) : Passed q (butterfly rb h as u v q' j) rb h as (n + 1) := by
  have hm : rb + u + j = rb + n := by omega
  have hn' : rb + n + h = rb + h + n := by omega
  obtain ⟨hm', hp'⟩ := hq.rest n (Nat.le_refl n) hn
  have hs := Wrote.succ hq hn hb
  simp only [butterfly, hm, hn', hv, hm', hp']
  rw [twiddle, if_neg (Nat.ne_of_gt hpos)] at hs
  exact hs

/-- The inner loop, whose first pass leaves the first pair out. -/
theorem inner_passed {q' : Q} (hb : rb + 2 * h ≤ 256) {s : Nat} (hs : 4 * s + 4 ≤ h) (hq : Passed q q' rb h as (max 1 (4 * s))) :
    Passed q (((List.range 4).drop (if 4 * s = 0 then 1 else 0)).foldl (butterfly rb h as (4 * s) (4 * as * s)) q') rb h as
      (4 * s + 4) := by
  have hv : ∀ j, 4 * as * s + j * as = as * (4 * s + j) := fun j => by ring
  have next : ∀ {q' : Q} (j : Nat), 0 < 4 * s + j → j < 4 → Passed q q' rb h as (4 * s + j) →
      Passed q (butterfly rb h as (4 * s) (4 * as * s) q' j) rb h as (4 * s + (j + 1)) := fun j hpos hj hq =>
    butterfly_passed hb (Nat.lt_of_lt_of_le (Nat.add_lt_add_left hj _) hs) hpos rfl (hv j) hq
  by_cases h0 : s = 0
  · subst h0
    have hl : (List.range 4).drop 1 = [1, 2, 3] := rfl
    have hone : max 1 (4 * 0) = 4 * 0 + 1 := rfl
    rw [hone] at hq
    rw [if_pos (Nat.mul_zero 4), hl]
    rw [List.foldl_cons, List.foldl_cons, List.foldl_cons, List.foldl_nil]
    have h2 := next 1 (by decide) (by decide) hq
    exact next 3 (by decide) (by decide) (next 2 (by decide) (by decide) h2)
  · have hpos : 0 < 4 * s := by omega
    have hl : (List.range 4).drop 0 = [0, 1, 2, 3] := rfl
    rw [Nat.max_eq_right hpos] at hq
    rw [if_neg (Nat.ne_of_gt hpos), hl]
    rw [List.foldl_cons, List.foldl_cons, List.foldl_cons, List.foldl_cons, List.foldl_nil]
    have h2 := next 1 (by omega) (by decide) (next 0 (by omega) (by decide) hq)
    exact next 3 (by omega) (by decide) (next 2 (by omega) (by decide) h2)

/-- The first pair needs no product. -/
theorem first_passed (hb : rb + 2 * h ≤ 256) (hpos : 0 < h) :
    Passed q ((q.write rb (q.read rb + q.read (rb + h))).write (rb + h) (q.read rb - q.read (rb + h))) rb h as 1 := by
  have h0 : twiddle q rb h as 0 = q.read (rb + h) := if_pos rfl
  have hs := (wrote_zero q rb h (fun k => q.read (rb + k) + twiddle q rb h as k) fun k => q.read (rb + k) - twiddle q rb h as k).succ
    hpos hb
  simp only [Nat.add_zero, Nat.zero_add, h0] at hs
  exact hs

theorem fftLoop_passed (hb : rb + 2 * h ≤ 256) {c : Nat} (hc : h = 4 * c) (hpos : 0 < c) : Passed q (fftLoop q rb h as) rb h as h := by
  have houter : ∀ s ≤ c, Passed q ((List.range s).foldl (fun q s =>
      ((List.range 4).drop (if 4 * s = 0 then 1 else 0)).foldl (butterfly rb h as (4 * s) (4 * as * s)) q)
      ((q.write rb (q.read rb + q.read (rb + h))).write (rb + h) (q.read rb - q.read (rb + h)))) rb h as (max 1 (4 * s)) := by
    intro s hs
    induction s with
    | zero => exact first_passed hb (by omega)
    | succ s ih =>
      rw [List.range_succ (n := s), List.foldl_append, Nat.max_eq_right (by omega)]
      exact inner_passed hb (by omega) (ih (Nat.le_of_succ_le hs))
  have hcount : (h + 3) / 4 = c := by omega
  have hlast := houter c (Nat.le_refl c)
  rw [Nat.max_eq_right (by omega), ← hc] at hlast
  rw [fftLoop, hcount]
  exact hlast

end

/-- Two transforms, one of the even and one of the odd entries, become one. -/
theorem join {q q1 q2 : Q} {rb h n as : Nat} {bound : Int} {f : Nat → ZMod 257} (hb : rb + 2 * h ≤ 256) {c : Nat} (hc : h = 4 * c)
    (hpos : 0 < c) (has : 0 < as) (has' : as * h ≤ 256) (hw : ((41 : ZMod 257) ^ as) ^ h = -1) (hlow : 98304 ≤ bound) (hhigh : bound * 256 < 2 ^ 31)
    (h1 : Spans q1 rb h bound (dft ((41 ^ as) ^ 2) n fun j => f (2 * j)) ∧ Outside q q1 rb h)
    (h2 : Spans q2 (rb + h) h bound (dft ((41 ^ as) ^ 2) n fun j => f (2 * j + 1)) ∧ Outside q1 q2 (rb + h) h) :
    Spans (fftLoop q2 rb h as) rb (2 * h) (2 * bound) (dft (41 ^ as) (2 * n) f) ∧ Outside q (fftLoop q2 rb h as) rb (2 * h) := by
  have hp : Passed q2 (fftLoop q2 rb h as) rb h as h := fftLoop_passed hb hc hpos
  have heven : ∀ k < h, Near (q2.read (rb + k)) bound (dft ((41 ^ as) ^ 2) n (fun j => f (2 * j)) k) := fun k hk => by
    rw [h2.2 (rb + k) (Or.inl (by omega))]
    exact h1.1 k hk
  have hodd : ∀ k < h, Near (twiddle q2 rb h as k) bound ((41 ^ as) ^ k * dft ((41 ^ as) ^ 2) n (fun j => f (2 * j + 1)) k) := by
    intro k hk
    by_cases h0 : k = 0
    · rw [twiddle, if_pos h0, h0, pow_zero, one_mul]
      exact h2.1 0 (by omega)
    · have hlt : as * k < 256 := Nat.lt_of_lt_of_le (Nat.mul_lt_mul_of_pos_left hk has) has'
      rw [twiddle, if_neg h0, ← pow_mul]
      have ht := ((h2.1 k hk).imul (near_alpha hlt) hhigh).reds2 hhigh
      exact (ht.mono (by omega)).congr (mul_comm _ _)
  refine ⟨Wrote.spans hp (fun k hk => ?_) (fun k hk => ?_) (by omega), fun i hi => ?_⟩
  · rw [dft_two_mul, two_mul bound]
    exact (heven k hk).add (hodd k hk) (by omega)
  · rw [dft_add _ hw, two_mul bound]
    exact (heven k hk).sub (hodd k hk) (by omega)
  · rw [hp.outside i hi, h2.2 i (by omega), h1.2 i (by omega)]

/-! ## The stages -/

theorem shiftLeft_one (xs : Nat) : xs <<< 1 = 2 * xs := by
  rw [Nat.shiftLeft_eq, pow_one, Nat.mul_comm]

theorem fft32_spec (x : Block) {xb xs : Nat} (hx : xb + 15 * xs < 128) (q : Q) {rb : Nat} (hrb : rb + 32 ≤ 256) :
    Spans (fft32 x xb xs q rb) rb 32 1210000 (dft (41 ^ 8) 16 (part x xb xs)) ∧ Outside q (fft32 x xb xs q rb) rb 32 := by
  have hroot : ((41 : ZMod 257) ^ 8) ^ 2 = 2 := by decide
  have h1 := fft16_spec x (show xb + 7 * (2 * xs) < 128 by omega) q (show rb + 16 ≤ 256 by omega)
  have h2 := fft16_spec x (show xb + xs + 7 * (2 * xs) < 128 by omega) (fft16 x xb (2 * xs) q rb) (show rb + 16 + 16 ≤ 256 by omega)
  rw [← part_even, ← hroot] at h1
  rw [← part_odd, ← hroot] at h2
  rw [fft32, shiftLeft_one]
  exact join hrb (show 16 = 4 * 4 from rfl) (by decide) (by decide) (by decide) (by decide) (by decide) (by decide) h1 h2

theorem fft64_spec (x : Block) {xb xs : Nat} (hx : xb + 31 * xs < 128) (q : Q) {rb : Nat} (hrb : rb + 64 ≤ 256) :
    Spans (fft64 x xb xs q rb) rb 64 2420000 (dft (41 ^ 4) 32 (part x xb xs)) ∧ Outside q (fft64 x xb xs q rb) rb 64 := by
  have hroot : ((41 : ZMod 257) ^ 4) ^ 2 = 41 ^ 8 := (pow_mul _ _ _).symm
  have h1 := fft32_spec x (show xb + 15 * (2 * xs) < 128 by omega) q (show rb + 32 ≤ 256 by omega)
  have h2 := fft32_spec x (show xb + xs + 15 * (2 * xs) < 128 by omega) (fft32 x xb (2 * xs) q rb) (show rb + 32 + 32 ≤ 256 by omega)
  rw [← part_even, ← hroot] at h1
  rw [← part_odd, ← hroot] at h2
  rw [fft64, shiftLeft_one]
  exact join hrb (show 32 = 4 * 8 from rfl) (by decide) (by decide) (by decide) (by decide) (by decide) (by decide) h1 h2

/-- Half of `fft256`: the bytes `2` apart. -/
theorem fft128_spec (x : Block) {xb : Nat} (hx : xb < 2) (q : Q) {rb : Nat} (hrb : rb + 128 ≤ 256) :
    Spans (fftLoop (fft64 x (xb + 2) 4 (fft64 x xb 4 q rb) (rb + 64)) rb 64 2) rb 128 4840000 (dft (41 ^ 2) 64 (part x xb 2)) ∧
      Outside q (fftLoop (fft64 x (xb + 2) 4 (fft64 x xb 4 q rb) (rb + 64)) rb 64 2) rb 128 := by
  have hroot : ((41 : ZMod 257) ^ 2) ^ 2 = 41 ^ 4 := (pow_mul _ _ _).symm
  have h1 := fft64_spec x (show xb + 31 * (2 * 2) < 128 by omega) q (show rb + 64 ≤ 256 by omega)
  have h2 := fft64_spec x (show xb + 2 + 31 * (2 * 2) < 128 by omega) (fft64 x xb 4 q rb) (show rb + 64 + 64 ≤ 256 by omega)
  rw [← part_even, ← hroot] at h1
  rw [← part_odd, ← hroot] at h2
  exact join hrb (show 64 = 4 * 16 from rfl) (by decide) (by decide) (by decide) (by decide) (by decide) (by decide) h1 h2

theorem fft256_spec (x : Block) (q : Q) : Spans (fft256 x q) 0 256 9680000 (dft 41 128 (part x 0 1)) := by
  have hroot : ((41 : ZMod 257) ^ 1) ^ 2 = 41 ^ 2 := (pow_mul _ _ _).symm
  have h1 := fft128_spec x (show 0 < 2 by decide) q (show 0 + 128 ≤ 256 by decide)
  have h2 := fft128_spec x (show 0 + 1 < 2 by decide) (fftLoop (fft64 x 2 4 (fft64 x 0 4 q 0) 64) 0 64 2)
    (show 0 + 128 + 128 ≤ 256 by decide)
  rw [← part_even x 0 1, ← hroot] at h1
  rw [← part_odd x 0 1, ← hroot] at h2
  have hhalf : ((41 : ZMod 257) ^ 1) ^ 128 = -1 := by
    rw [pow_one, show 128 = 16 * 8 from rfl, pow_mul]
    decide
  have h := join (show 0 + 2 * 128 ≤ 256 by decide) (show 128 = 4 * 32 from rfl) (by decide) (by decide) (by decide) hhalf
    (by decide) (by decide) h1 h2
  rw [pow_one] at h
  exact h.1

/-! ## The fold -/

/-- A number and its three reductions. -/
theorem settles {n a b c : Int} (hl : -10000000 ≤ n) (hh : n ≤ 10000000) (ha : a = n % 65536 + n / 65536)
    (hb : b = a % 256 - a / 256) (hc : c = b % 256 - b / 256) : -1 ≤ c ∧ c ≤ 256 := by
  omega

theorem fold_near {n : Num} {z : ZMod 257} (h : Near n 10000000 z) : Near (fold n) 128 z := by
  have h1 := h.reds2 (by decide)
  have h2 := h1.reds1 (by decide)
  have h3 := h2.reds1 (by decide)
  obtain ⟨hlow, hhigh⟩ := settles h.low h.high (h.reds2_val (by decide)) (h1.reds1_val (by decide)) (h2.reds1_val (by decide))
  rw [fold]
  split
  · next hle => exact ⟨h3.fits, by omega, hle, h3.cast⟩
  · next hgt =>
    have hp : Near ⟨257, true⟩ 257 0 := ⟨rfl, by decide, by decide, rfl⟩
    have hs := h3.sub hp (by decide)
    have hval : (reds1 (reds1 (reds2 n)) - ⟨257, true⟩).val = (reds1 (reds1 (reds2 n))).val - 257 := rfl
    exact ⟨hs.fits, by omega, by omega, hs.cast.trans (sub_zero _)⟩

theorem foldl_foldEntry (yoff : List Nat) (q : Q) {n : Nat} (hn : n ≤ 256) (i : Nat) :
    ((List.range n).foldl (foldEntry yoff) q).read i = if i < n then (fold (q.read i + entry yoff i)).store else q.read i := by
  induction n generalizing i with
  | zero => rfl
  | succ n ih =>
    have hold : ((List.range n).foldl (foldEntry yoff) q).read n = q.read n := by
      rw [ih (Nat.le_of_succ_le hn), if_neg (Nat.lt_irrefl n)]
    rw [List.range_succ, List.foldl_append, List.foldl_cons, List.foldl_nil, foldEntry, read_write hn, hold]
    rcases Nat.lt_trichotomy i n with hlt | rfl | hlt
    · rw [if_neg (Nat.ne_of_lt hlt), ih (Nat.le_of_succ_le hn), if_pos hlt, if_pos (Nat.lt_succ_of_lt hlt)]
    · rw [if_pos rfl, if_pos (Nat.lt_succ_self i)]
    · rw [if_neg (Nat.ne_of_gt hlt), ih (Nat.le_of_succ_le hn), if_neg (Nat.lt_asymm hlt), if_neg (Nat.not_lt_of_le hlt)]

theorem alpha_le {i : Nat} (hi : i < 256) : ALPHA_TAB.getD i 0 ≤ 256 := by
  rw [ALPHA_TAB, getD_powers hi (by decide)]
  exact Nat.le_of_lt_succ (Nat.mod_lt _ (by decide))

/-- An entry of a table that is computed. -/
theorem near_range {f : Nat → Nat} (hf : ∀ k, f k ≤ 256) {i : Nat} (hi : i < 256) :
    Near (entry ((List.range 256).map f) i) 256 ((((List.range 256).map f).getD i 0 : Nat) : ZMod 257) := by
  refine near_entry (by rw [List.length_map, List.length_range]; exact hi) ?_
  rw [List.getD_eq_getElem?_getD, List.getElem?_map, List.getElem?_range hi]
  exact hf i

theorem near_yoff (last : Bool) {i : Nat} (hi : i < 256) :
    Near (entry (if last then YOFF_B_F else YOFF_B_N) i) 256 (((if last then YOFF_B_F else YOFF_B_N).getD i 0 : Nat) : ZMod 257) := by
  cases last with
  | true =>
    rw [if_pos rfl, YOFF_B_F]
    exact near_range (fun _ => Nat.le_of_lt_succ (Nat.mod_lt _ (by decide))) hi
  | false =>
    rw [if_neg Bool.false_ne_true, YOFF_B_N]
    exact near_range (fun _ => alpha_le (Nat.mod_lt _ (by decide))) hi

theorem expand_near (x : Block) (q : Q) (last : Bool) {i : Nat} (hi : i < 256) :
    Near ((expand x q last).read i) 128
      (dft 41 128 (part x 0 1) i + ((if last then YOFF_B_F else YOFF_B_N).getD i 0 : Nat)) := by
  have hq := fft256_spec x q i hi
  rw [Nat.zero_add] at hq
  have hsum := (hq.add (near_yoff last hi) (by decide)).mono (show 9680000 + 256 ≤ (10000000 : Int) by decide)
  rw [expand, foldl_foldEntry _ _ (Nat.le_refl 256), if_pos hi]
  exact (fold_near hsum).store (by decide)

/-- For every block, whatever `q` held: no sum, shift or product on the way to an entry leaves the signed 32-bit range, and the
entry is the one integer in -128..128 with the residue of the DFT and the offset. -/
theorem expand_eq (x : Block) (q : Q) (last : Bool) (i : Fin 256) :
    ((expand x q last).read i).fits = true ∧ ∀ z : Int, z = ((expand x q last).read i).val ↔ (-128 ≤ z ∧ z ≤ 128) ∧
      z ≡ (∑ j ∈ Finset.range 128, (x.byte j : Int) * 41 ^ (i.val * j)) +
        ((if last then YOFF_B_F else YOFF_B_N).getD i 0 : Nat) [ZMOD 257] := by
  have h := expand_near x q last i.isLt
  have hdft : ((∑ j ∈ Finset.range 128, (x.byte j : Int) * 41 ^ (i.val * j) +
      ((if last then YOFF_B_F else YOFF_B_N).getD i 0 : Nat) : Int) : ZMod 257) = (((expand x q last).read i).val : ZMod 257) := by
    rw [h.cast, dft]
    push_cast
    simp only [part, Nat.zero_add, Nat.one_mul]
  have hmod := (ZMod.intCast_eq_intCast_iff _ _ 257).1 hdft
  refine ⟨h.fits, fun z => ⟨?_, ?_⟩⟩
  · intro he
    rw [he]
    exact ⟨⟨h.low, h.high⟩, hmod.symm⟩
  · intro hz
    have hdvd := (hz.2.trans hmod).dvd
    have hl := h.low
    have hh := h.high
    omega

end Simd
