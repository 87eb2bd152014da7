import MnoVerify.Gf256
import MnoVerify.Groestl

/-!
# The tables of Groestl

`gmul` is the product of the AES field (`ofByte_gmul`), `buildSbox` the AES S-box (`buildSbox_eq`), and a table entry adds to
row `i` of the output what column `k` of the matrix makes of an S-box entry (`byteAt_table`).
-/

namespace Groestl

open Gf256 (Elt ofByte x gen power)

/-! ## The product -/

theorem and_one_iff : ∀ b : BitVec 8, b &&& 1#8 = 1#8 ↔ b.getLsbD 0 = true := by decide

theorem and_high_iff : ∀ a : BitVec 8, a &&& 0x80#8 ≠ 0#8 ↔ a.getLsbD 7 = true := by decide

/-- The loop, for what is left of `b`. -/
theorem ofByte_gmulLoop (i : Nat) (p a b : BitVec 8) (hb : b.toNat < 2 ^ i) :
    ofByte (gmulLoop i p a b) = ofByte p + ofByte a * ofByte b := by
  induction i generalizing p a b with
  | zero =>
    have h0 : b = 0#8 := BitVec.eq_of_toNat_eq (by rw [BitVec.toNat_ofNat]; omega)
    rw [gmulLoop, h0, Gf256.ofByte_zero, mul_zero, add_zero]
  | succ i ih =>
    have hshift : (b >>> 1).toNat < 2 ^ i := by
      rw [BitVec.toNat_ushiftRight, Nat.shiftRight_one]
      rw [Nat.pow_succ] at hb
      omega
    have hdouble : (if a &&& 0x80#8 ≠ 0#8 then (a <<< 1) ^^^ 0x1b#8 else a <<< 1) = Gf256.xtime a := by
      rw [Gf256.xtime]
      simp only [and_high_iff]
    simp only [gmulLoop, hdouble]
    rw [ih _ _ _ hshift, Gf256.ofByte_xtime, Gf256.ofByte_shiftRight b]
    simp only [and_one_iff]
    cases b.getLsbD 0 with
    | true =>
      rw [if_pos rfl, Gf256.ofByte_xor, Gf256.bit, if_pos rfl, map_one]
      ring
    | false =>
      rw [if_neg Bool.false_ne_true, Gf256.bit, if_neg Bool.false_ne_true, map_zero]
      ring

theorem ofByte_gmul (a b : BitVec 8) : ofByte (gmul a b) = ofByte a * ofByte b := by
  rw [gmul, ofByte_gmulLoop 8 0#8 a b b.isLt, Gf256.ofByte_zero, zero_add]

/-! ## The S-box -/

theorem affine_eq : ∀ b : BitVec 8, affine b = Gf256.affine b := by decide +kernel

theorem gmul_three (b : BitVec 8) : gmul b 3#8 = Gf256.triple b := by
  refine Gf256.ofByte_injective ?_
  have h3 : ofByte 3#8 = gen := by
    have h : (3#8 : BitVec 8) = Gf256.triple 1#8 := by decide
    rw [h, Gf256.ofByte_triple, Gf256.ofByte_one, mul_one]
  rw [ofByte_gmul, Gf256.ofByte_triple, h3, mul_comm]

/-- The first `n` powers are in both arrays. -/
structure Logged (t : Logs) (n : Nat) : Prop where
  next : t.x = power n
  antilog : ∀ k < n, t.antilog.toList.getD k 0#8 = power k
  log : ∀ k < n, t.log.toList.getD (power k).toNat 0 = k

theorem getD_setIfInBounds {β : Type} {n : Nat} (v : Vector β n) {i : Nat} (hi : i < n) (a d : β) (j : Nat) :
    (v.setIfInBounds i a).toList.getD j d = if j = i then a else v.toList.getD j d := by
  rw [List.getD_eq_getElem?_getD, List.getD_eq_getElem?_getD]
  simp only [Vector.getElem?_toList, Vector.getElem?_setIfInBounds]
  by_cases h : j = i
  · rw [if_pos h.symm, if_pos hi, if_pos h]
    rfl
  · rw [if_neg fun he => h he.symm, if_neg h]

theorem power_inj {m n : Nat} (hm : m < 255) (hn : n < 255) (h : power m = power n) : m = n := by
  refine pow_injOn_Iio_orderOf (x := gen) ?_ ?_ ?_
  · rw [Gf256.orderOf_gen]
    exact hm
  · rw [Gf256.orderOf_gen]
    exact hn
  · change gen ^ m = gen ^ n
    rw [← Gf256.ofByte_power, ← Gf256.ofByte_power, h]

theorem logged_pass {t : Logs} {n : Nat} (hn : n < 255) (h : Logged t n) : Logged (t.pass n) (n + 1) where
  next := by
    rw [Logs.pass, gmul_three, h.next, Gf256.power_succ]
  antilog := fun k hk => by
    rw [Logs.pass, getD_setIfInBounds _ (by omega)]
    split
    · next he => rw [he, h.next]
    · exact h.antilog k (by omega)
  log := fun k hk => by
    rw [Logs.pass, getD_setIfInBounds _ t.x.isLt, h.next]
    by_cases he : k = n
    · rw [he, if_pos rfl]
    · have hne : (power k).toNat ≠ (power n).toNat := fun hp => he (power_inj (by omega) hn (BitVec.eq_of_toNat_eq hp))
      rw [if_neg hne, h.log k (by omega)]

theorem logged_logs : Logged logs 255 := by
  have hrun : ∀ n ≤ 255, Logged ((List.range n).foldl Logs.pass ⟨.replicate 256 0#8, .replicate 256 0, 1#8⟩) n := by
    intro n hn
    induction n with
    | zero => exact ⟨rfl, nofun, nofun⟩
    | succ n ih =>
      rw [List.range_succ, List.foldl_append]
      exact logged_pass hn (ih (Nat.le_of_succ_le hn))
  exact hrun 255 (Nat.le_refl 255)

/-- The inverse that the logarithms give. -/
theorem sboxOf_eq (v : BitVec 8) : sboxOf logs v = Gf256.sbox v := by
  rw [sboxOf, affine_eq, Gf256.sbox]
  congr 1
  by_cases h0 : v = 0#8
  · rw [if_pos h0, h0, Gf256.inverse_zero]
  · have hne : ofByte v ≠ 0 := fun h => h0 (Gf256.ofByte_injective (h.trans Gf256.ofByte_zero.symm))
    obtain ⟨n, hn, he⟩ := Gf256.exists_pow hne
    have hv : v = power n := Gf256.ofByte_injective (by rw [Gf256.ofByte_power, he])
    rw [if_neg h0, hv, logged_logs.log n hn, logged_logs.antilog _ (Nat.mod_lt _ (by decide))]
    refine (Gf256.inverse_eq_of_mul ?_).symm
    rw [Gf256.ofByte_power, Gf256.ofByte_power]
    rcases Nat.eq_zero_or_pos n with rfl | hpos
    · exact one_mul _
    · rw [Nat.mod_eq_of_lt (by omega)]
      exact Gf256.gen_pow_mul (by omega)

theorem getD_ofFn {β : Type} {n : Nat} (f : Fin n → β) {i : Nat} (hi : i < n) (d : β) :
    (Vector.ofFn f).toList.getD i d = f ⟨i, hi⟩ := by
  rw [List.getD_eq_getElem?_getD, Vector.getElem?_toList, Vector.getElem?_ofFn, dif_pos hi]
  rfl

theorem buildSbox_eq (v : BitVec 8) : buildSbox.toList.getD v.toNat 0#8 = Gf256.sbox v := by
  rw [buildSbox, getD_ofFn _ v.isLt]
  exact sboxOf_eq v

/-! ## Bytes of words -/

/-- Byte `i` of a word, the highest first. -/
def byteOf (w : BitVec 32) (i : Nat) : BitVec 8 := (w >>> (24 - 8 * i)).setWidth 8

theorem byteOf_xor (v w : BitVec 32) (i : Nat) : byteOf (v ^^^ w) i = byteOf v i ^^^ byteOf w i := by
  rw [byteOf, BitVec.ushiftRight_xor_distrib, BitVec.setWidth_xor]
  rfl

theorem byteOf_zero (i : Nat) : byteOf 0#32 i = 0#8 := by
  rw [byteOf, BitVec.zero_ushiftRight, BitVec.setWidth_zero]

/-- The last byte that is shifted in. -/
theorem byteOf_shl_or (w : BitVec 32) (b : BitVec 8) {i : Nat} (hi : i < 4) :
    byteOf ((w <<< 8) ||| b.setWidth 32) i = if i = 3 then b else byteOf w (i + 1) := by
  refine BitVec.eq_of_getLsbD_eq fun k hk => ?_
  rw [byteOf, BitVec.getLsbD_setWidth, BitVec.getLsbD_ushiftRight, BitVec.getLsbD_or, BitVec.getLsbD_shiftLeft,
    BitVec.getLsbD_setWidth, decide_eq_true hk, Bool.true_and]
  by_cases h3 : i = 3
  · subst h3
    simp [hk]
    omega
  · have hb : b.getLsbD (24 - 8 * i + k) = false := BitVec.getLsbD_of_ge _ _ (by omega)
    have hk' : 24 - 8 * i + k - 8 = 24 - 8 * (i + 1) + k := by omega
    rw [if_neg h3, byteOf, BitVec.getLsbD_setWidth, BitVec.getLsbD_ushiftRight, decide_eq_true hk, Bool.true_and, hb, hk',
      decide_eq_true (by omega), decide_eq_false (by omega)]
    simp

/-- Four bytes that are shifted in. -/
theorem byteOf_four (b : Nat → BitVec 8) {i : Nat} (hi : i < 4) :
    byteOf ((((((((0#32 <<< 8) ||| (b 0).setWidth 32) <<< 8) ||| (b 1).setWidth 32) <<< 8) ||| (b 2).setWidth 32) <<< 8) |||
      (b 3).setWidth 32) i = b i := by
  match i, hi with
  | 0, _ =>
    rw [byteOf_shl_or _ _ (by decide), if_neg (by decide), byteOf_shl_or _ _ (by decide), if_neg (by decide),
      byteOf_shl_or _ _ (by decide), if_neg (by decide), byteOf_shl_or _ _ (by decide), if_pos rfl]
  | 1, _ =>
    rw [byteOf_shl_or _ _ (by decide), if_neg (by decide), byteOf_shl_or _ _ (by decide), if_neg (by decide),
      byteOf_shl_or _ _ (by decide), if_pos rfl]
  | 2, _ => rw [byteOf_shl_or _ _ (by decide), if_neg (by decide), byteOf_shl_or _ _ (by decide), if_pos rfl]
  | 3, _ => rw [byteOf_shl_or _ _ (by decide), if_pos rfl]

/-- Byte `i` of a column, which is held as two words. -/
def byteAt (hi lo : BitVec 32) (i : Nat) : BitVec 8 := byteOf (if i < 4 then hi else lo) (i % 4)

theorem byteAt_xor (hi lo hi' lo' : BitVec 32) (i : Nat) :
    byteAt (hi ^^^ hi') (lo ^^^ lo') i = byteAt hi lo i ^^^ byteAt hi' lo' i := by
  rw [byteAt, byteAt, byteAt, ← byteOf_xor]
  split <;> rfl

theorem byteAt_pack (bytes : List (BitVec 8)) (k : Nat) {i : Nat} (hi : i < 8) :
    byteAt (pack bytes k).1 (pack bytes k).2 i = bytes.getD ((i + 8 - k) % 8) 0#8 := by
  have hr : List.range 8 = [0, 1, 2, 3, 4, 5, 6, 7] := rfl
  simp only [byteAt, pack, hr, List.foldl_cons, List.foldl_nil, Nat.reduceLT, if_true, if_false]
  split
  · next h4 =>
    rw [Nat.mod_eq_of_lt h4]
    exact byteOf_four (fun i => bytes.getD ((i + 8 - k) % 8) 0#8) h4
  · next h4 =>
    have hmod : i % 4 + 4 = i := by omega
    have h := byteOf_four (fun i => bytes.getD ((i + 4 + 8 - k) % 8) 0#8) (Nat.mod_lt i (by decide))
    rw [hmod] at h
    exact h

/-! ## The tables -/

theorem table_eq {n : Nat} (hn : n < 2048) :
    TABLE_HI n = (tableEntry buildSbox n).1 ∧ TABLE_LO n = (tableEntry buildSbox n).2 := by
  rw [TABLE_HI, TABLE_LO, buildTables, getD_ofFn _ hn]
  exact ⟨rfl, rfl⟩

/-- What a table entry adds to row `i` of the output. -/
theorem byteAt_table (v : BitVec 8) {k i : Nat} (hk : k < 8) (hi : i < 8) :
    byteAt (TABLE_HI (k <<< 8 + v.toNat)) (TABLE_LO (k <<< 8 + v.toNat)) i =
      gmul (MIX_COLUMN.getD ((i + 8 - k) % 8) 0#8) (Gf256.sbox v) := by
  have hv := v.isLt
  have hn : k <<< 8 + v.toNat < 2048 := by
    rw [Nat.shiftLeft_eq]
    omega
  have hdiv : (k <<< 8 + v.toNat) / 256 = k := by
    rw [Nat.shiftLeft_eq]
    omega
  have hmod : (k <<< 8 + v.toNat) % 256 = v.toNat := by
    rw [Nat.shiftLeft_eq]
    omega
  rw [(table_eq hn).1, (table_eq hn).2, tableEntry, hdiv, hmod, buildSbox_eq, byteAt_pack _ _ hi, mixBytes]
  have hlt : (i + 8 - k) % 8 < MIX_COLUMN.length := Nat.mod_lt _ (by decide)
  rw [List.getD_eq_getElem?_getD, List.getElem?_map, List.getD_eq_getElem?_getD, List.getElem?_eq_getElem hlt]
  rfl

end Groestl
