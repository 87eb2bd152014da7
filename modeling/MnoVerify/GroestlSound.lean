import MnoVerify.GroestlTables
import Mathlib.Data.Fin.VecNotation

/-!
# Groestl is the specified one

`permute` does what fourteen rounds do to the matrix of bytes (`matrix_permute`), and the padded tail is the rest of the
message, `0x80`, zeros and the number of blocks (`paddedTail_eq`).
-/

namespace Groestl

open Gf256 (ofByte byteEquiv)

/-! ## The specified permutation -/

/-- The 8 by 16 bytes. -/
abbrev Bytes : Type := Fin 8 → Fin 16 → BitVec 8

def AddRoundConstant (isQ : Bool) (r : Nat) (a : Bytes) : Bytes := fun i j =>
  a i j ^^^
    if isQ then if i = 7 then 0xff#8 ^^^ BitVec.ofNat 8 (16 * j) ^^^ BitVec.ofNat 8 r else 0xff#8
    else if i = 0 then BitVec.ofNat 8 (16 * j) ^^^ BitVec.ofNat 8 r else 0#8

noncomputable def SubBytes (a : Bytes) : Bytes := fun i j => Gf256.sbox (a i j)

/-- Row `i` moves to the left by `σ i`. -/
def ShiftBytesWide (σ : Fin 8 → Fin 16) (a : Bytes) : Bytes := fun i j => a i (j + σ i)

/-- The circulant matrix, each row the one above moved to the right. -/
def circulant (i k : Fin 8) : BitVec 8 := ![2, 2, 3, 4, 5, 3, 5, 7] (k - i)

noncomputable def MixBytes (a : Bytes) : Bytes := fun i j => byteEquiv.symm (∑ k, ofByte (circulant i k) * ofByte (a k j))

noncomputable def specified (σ : Fin 8 → Fin 16) (isQ : Bool) (a : Bytes) : Bytes :=
  (List.range 14).foldl (fun a r => MixBytes (ShiftBytesWide σ (SubBytes (AddRoundConstant isQ r a)))) a

def σP : Fin 8 → Fin 16 := ![0, 1, 2, 3, 4, 5, 6, 11]
def σQ : Fin 8 → Fin 16 := ![1, 3, 5, 11, 0, 2, 4, 6]

/-! ## A round -/

/-- The matrix that a state holds. -/
def State.matrix (s : State) : Bytes := fun i j => byteAt (s.hi.get j) (s.lo.get j) i

theorem ofFn_get {β : Type} {n : Nat} (f : Fin n → β) (j : Fin n) : (Vector.ofFn f).get j = f j := Vector.getElem_ofFn ..

/-- The words of the constants. -/
theorem byteAt_constP : ∀ r < 14, ∀ (j : Fin 16) (i : Fin 8), byteAt (BitVec.ofNat 32 (j.val <<< 4 + r) <<< 24) 0#32 i =
    if i = 0 then BitVec.ofNat 8 (16 * j) ^^^ BitVec.ofNat 8 r else 0#8 := by decide +kernel

theorem byteAt_constQ : ∀ r < 14, ∀ (j : Fin 16) (i : Fin 8), byteAt 0xffffffff#32
    (0xffffff00#32 ||| (0xff#32 ^^^ BitVec.ofNat 32 (j.val <<< 4) ^^^ BitVec.ofNat 32 r)) i =
      if i = 7 then 0xff#8 ^^^ BitVec.ofNat 8 (16 * j) ^^^ BitVec.ofNat 8 r else 0xff#8 := by decide +kernel

theorem matrix_addConstants (isQ : Bool) {r : Nat} (hr : r < 14) (s : State) :
    (addConstants isQ r s).matrix = AddRoundConstant isQ r s.matrix := by
  funext i j
  rw [State.matrix, addConstants, ofFn_get, ofFn_get, AddRoundConstant]
  cases isQ with
  | true =>
    rw [if_pos rfl, if_pos rfl, if_pos rfl, byteAt_xor, byteAt_constQ r hr j i]
    rfl
  | false =>
    rw [if_neg Bool.false_ne_true, if_neg Bool.false_ne_true, if_neg Bool.false_ne_true, ← byteAt_constP r hr j i,
      State.matrix, ← byteAt_xor, BitVec.xor_zero]
    rfl

theorem ofNat_add (d : Fin 16) (n : Nat) : ⟨(d.val + n) % 16, Nat.mod_lt _ (by decide)⟩ = d + Fin.ofNat 16 n := by
  refine Fin.ext ?_
  change (d.val + n) % 16 = (d.val + n % 16) % 16
  omega

theorem toNat_and_byte (w : BitVec 32) : (w &&& 0xff#32).toNat = (w.setWidth 8).toNat := by
  rw [BitVec.toNat_and, BitVec.toNat_setWidth]
  exact Nat.and_two_pow_sub_one_eq_mod w.toNat 8

theorem rowByte_eq (shift : List Nat) (s : State) (d : Fin 16) (k : Nat) :
    rowByte shift s d k =
      (byteAt s.hi[d + Fin.ofNat 16 (shift.getD k 0)] s.lo[d + Fin.ofNat 16 (shift.getD k 0)] k).toNat := by
  have hshift : (k % 4) <<< 3 = 8 * (k % 4) := by
    rw [Nat.shiftLeft_eq]
    omega
  simp only [rowByte, ofNat_add, hshift, toNat_and_byte]
  rfl

/-- The table entries of a column, added up. -/
theorem ofByte_foldl (key : Nat → Nat) (i n : Nat) :
    ofByte (byteAt ((List.range n).foldl (fun (w : BitVec 32 × BitVec 32) k =>
        (w.1 ^^^ TABLE_HI (key k), w.2 ^^^ TABLE_LO (key k))) (0#32, 0#32)).1
      ((List.range n).foldl (fun (w : BitVec 32 × BitVec 32) k =>
        (w.1 ^^^ TABLE_HI (key k), w.2 ^^^ TABLE_LO (key k))) (0#32, 0#32)).2 i) =
      ∑ k ∈ Finset.range n, ofByte (byteAt (TABLE_HI (key k)) (TABLE_LO (key k)) i) := by
  induction n with
  | zero =>
    have hzero : byteAt 0#32 0#32 i = 0#8 := by rw [byteAt, ite_self, byteOf_zero]
    exact (congrArg ofByte hzero).trans Gf256.ofByte_zero
  | succ n ih =>
    rw [List.range_succ, List.foldl_append, List.foldl_cons, List.foldl_nil, byteAt_xor, Gf256.ofByte_xor, ih,
      Finset.sum_range_succ]

theorem circulant_eq : ∀ i k : Fin 8, MIX_COLUMN.getD ((i.val + 8 - k.val) % 8) 0#8 = circulant i k := by decide

/-- One column of the output. -/
theorem byteAt_column (shift : List Nat) (s : State) (d : Fin 16) (i : Fin 8) :
    ofByte (byteAt (column shift s d).1 (column shift s d).2 i) =
      ∑ k : Fin 8, ofByte (circulant i k) * ofByte (Gf256.sbox (s.matrix k (d + Fin.ofNat 16 (shift.getD k 0)))) := by
  have hfold := ofByte_foldl (fun k => k <<< 8 + rowByte shift s d k) i 8
  refine hfold.trans ?_
  rw [Finset.sum_range]
  refine Finset.sum_congr rfl fun k _ => ?_
  rw [rowByte_eq, byteAt_table _ k.isLt i.isLt, ofByte_gmul, circulant_eq]
  rfl

theorem matrix_mixColumns {shift : List Nat} {σ : Fin 8 → Fin 16} (hσ : ∀ k : Fin 8, Fin.ofNat 16 (shift.getD k 0) = σ k)
    (s : State) : (mixColumns shift s).matrix = MixBytes (ShiftBytesWide σ (SubBytes s.matrix)) := by
  funext i d
  rw [MixBytes, Equiv.eq_symm_apply]
  change ofByte ((mixColumns shift s).matrix i d) = _
  rw [State.matrix, mixColumns, ofFn_get, ofFn_get, byteAt_column]
  refine Finset.sum_congr rfl fun k _ => ?_
  rw [hσ]
  rfl

theorem matrix_permute {shift : List Nat} {σ : Fin 8 → Fin 16} (hσ : ∀ k : Fin 8, Fin.ofNat 16 (shift.getD k 0) = σ k) (isQ : Bool)
    (s : State) : (permute shift isQ s).matrix = specified σ isQ s.matrix := by
  have hrun : ∀ n ≤ 14, ((List.range n).foldl (fun s r => mixColumns shift (addConstants isQ r s)) s).matrix =
      (List.range n).foldl (fun a r => MixBytes (ShiftBytesWide σ (SubBytes (AddRoundConstant isQ r a)))) s.matrix := by
    intro n hn
    induction n with
    | zero => rfl
    | succ n ih =>
      rw [List.range_succ, List.foldl_append, List.foldl_append, ← ih (Nat.le_of_succ_le hn)]
      rw [List.foldl_cons, List.foldl_nil, List.foldl_cons, List.foldl_nil, matrix_mixColumns hσ, matrix_addConstants isQ hn]
  exact hrun 14 (Nat.le_refl 14)

/-- The matrix determines the words. -/
theorem word_ext {v w : BitVec 32} (h : ∀ i < 4, byteOf v i = byteOf w i) : v = w := by
  refine BitVec.eq_of_getLsbD_eq fun k hk => ?_
  have hbyte : ∀ u : BitVec 32, u.getLsbD k = (byteOf u (3 - k / 8)).getLsbD (k % 8) := fun u => by
    have hk' : 24 - 8 * (3 - k / 8) + k % 8 = k := by omega
    rw [byteOf, BitVec.getLsbD_setWidth, BitVec.getLsbD_ushiftRight, hk', decide_eq_true (Nat.mod_lt k (by decide)), Bool.true_and]
  rw [hbyte, hbyte, h _ (by omega)]

theorem matrix_injective : Function.Injective State.matrix := by
  intro s t h
  have hword : ∀ (j : Fin 16) (i : Fin 8), byteAt s.hi[j] s.lo[j] i = byteAt t.hi[j] t.lo[j] i := fun j i => congrFun (congrFun h i) j
  have hhi : s.hi = t.hi := by
    refine Vector.ext fun j hj => word_ext fun i hi => ?_
    have hb := hword ⟨j, hj⟩ ⟨i, by omega⟩
    rw [byteAt, byteAt, if_pos hi, if_pos hi, Nat.mod_eq_of_lt hi] at hb
    exact hb
  have hlo : s.lo = t.lo := by
    refine Vector.ext fun j hj => word_ext fun i hi => ?_
    have hb := hword ⟨j, hj⟩ ⟨i + 4, by omega⟩
    have h4 : ¬ i + 4 < 4 := by omega
    rw [byteAt, byteAt, if_neg h4, if_neg h4, Nat.add_mod_right, Nat.mod_eq_of_lt hi] at hb
    exact hb
  cases s
  cases t
  cases hhi
  cases hlo
  rfl

/-! ## The padded tail -/

theorem length_wordBytes (v : Nat) : (wordBytes v).length = 4 := rfl

theorem ofLE_wordBytes {u v : Nat} (hu : u < 2 ^ 32) (hv : v < 2 ^ 32) :
    Bytes.ofLE (wordBytes u ++ wordBytes v).reverse = u * 2 ^ 32 + v := by
  have hr : List.range 4 = [0, 1, 2, 3] := rfl
  simp only [wordBytes, hr, List.map_cons, List.map_nil, List.cons_append, List.nil_append, List.reverse_cons, List.reverse_nil,
    Bytes.ofLE, UInt8.toNat_ofNat', Nat.shiftRight_eq_div_pow]
  omega

/-- Bytes put in the place of as many others. -/
theorem put_append (a b c bytes : List UInt8) (h : bytes.length = b.length) : put (a ++ b ++ c) a.length bytes = a ++ bytes ++ c := by
  have htake : (a ++ b ++ c).take a.length = a := by rw [List.append_assoc, List.take_left]
  have hdrop : (a ++ b ++ c).drop (a.length + bytes.length) = c := by rw [h, ← List.length_append, List.drop_left]
  rw [put, htake, hdrop]

theorem write_append {a b c : List UInt8} {v : Nat} (hv : v < 2 ^ 32) (h : b.length = 4) :
    writeUInt32BE (a ++ b ++ c) v a.length = some (a ++ wordBytes v ++ c) := by
  rw [writeUInt32BE, if_pos hv, put_append _ _ _ _ ((length_wordBytes v).trans h.symm)]

/-- The tail before its length field. -/
theorem put_rest (rest : List UInt8) {pad : Nat} (hpad : 9 ≤ pad) :
    (put (List.replicate (rest.length + pad) 0) 0 rest).set rest.length 0x80 =
      rest ++ 0x80 :: List.replicate (pad - 9) 0 ++ List.replicate 4 0 ++ List.replicate 4 0 := by
  have hput : put (List.replicate (rest.length + pad) 0) 0 rest = rest ++ List.replicate pad 0 := by
    rw [put, List.take_zero, List.nil_append, Nat.zero_add, List.drop_replicate, Nat.add_sub_cancel_left]
  obtain ⟨k, rfl⟩ := Nat.exists_eq_add_of_le' hpad
  rw [hput, List.set_append_right _ _ (Nat.le_refl _), Nat.sub_self, Nat.add_sub_cancel, List.replicate_succ, List.set_cons_zero,
    List.append_assoc, List.append_assoc, List.cons_append, List.replicate_append_replicate, List.replicate_append_replicate]

/-- The two words of the length field. -/
theorem write_field (a : List UInt8) {blocks : Nat} (hb : blocks < 2 ^ 64) :
    (do
      let tail ← writeUInt32BE (a ++ List.replicate 4 0 ++ List.replicate 4 0) (blocks / 0x100000000)
        ((a ++ List.replicate 4 0 ++ List.replicate 4 0).length - 8)
      writeUInt32BE tail (blocks % 2 ^ 32) (tail.length - 4)) =
      some (a ++ (wordBytes (blocks / 0x100000000) ++ wordBytes (blocks % 2 ^ 32))) := by
  have hfour : (List.replicate 4 (0 : UInt8)).length = 4 := List.length_replicate
  have h8 : (a ++ List.replicate 4 0 ++ List.replicate 4 (0 : UInt8)).length - 8 = a.length := by
    rw [List.length_append, List.length_append, hfour]
    omega
  have h4 : (a ++ wordBytes (blocks / 0x100000000) ++ List.replicate 4 (0 : UInt8)).length - 4 =
      (a ++ wordBytes (blocks / 0x100000000)).length := by
    rw [List.length_append, hfour, Nat.add_sub_cancel]
  have hsecond := write_append (a := a ++ wordBytes (blocks / 0x100000000)) (c := []) (Nat.mod_lt blocks (show 2 ^ 32 > 0 by decide)) hfour
  rw [List.append_nil, List.append_nil] at hsecond
  rw [h8, write_append (by omega) hfour]
  change writeUInt32BE (a ++ wordBytes (blocks / 0x100000000) ++ List.replicate 4 0) _ _ = _
  rw [h4, hsecond, List.append_assoc]

theorem length_offsets (n : Nat) : (offsets n).length = n / 128 := by
  rw [offsets, List.length_map, List.length_range, BLOCK_BYTES]

/-- What the length of the tail has to be. -/
theorem blocks_eq {n rest pad : Nat} (hrest : rest = n - 128 * (n / 128))
    (hpad : pad = if rest < 120 then 128 - rest else 256 - rest) : 9 ≤ pad ∧ (rest + pad) % 128 = 0 ∧
      n / 128 + (if rest < 120 then 1 else 2) = n / 128 + (rest + pad) / 128 := by
  by_cases h : rest < 120
  · rw [if_pos h] at hpad ⊢
    omega
  · rw [if_neg h] at hpad ⊢
    omega

/-- The tail, whatever the length of what is left: the message, `0x80`, zeros and the length field. -/
theorem paddedTail_eq (data : Buffer) : ∃ tail zeros field, paddedTail data = some tail ∧ tail.length % 128 = 0 ∧
    tail = data.bytes.drop (128 * (offsets data.bytes.length).length) ++ 0x80 :: List.replicate zeros 0 ++ field ∧
    field.length = 8 ∧ Bytes.ofLE field.reverse = (offsets data.bytes.length).length + (offsets tail.length).length := by
  have hlt := data.length_lt
  let rest := data.bytes.drop (128 * (data.bytes.length / 128))
  let pad := if rest.length < 120 then 128 - rest.length else 256 - rest.length
  let blocks := data.bytes.length / 128 + (if rest.length < 120 then 1 else 2)
  have hrest : rest.length = data.bytes.length - 128 * (data.bytes.length / 128) := List.length_drop
  obtain ⟨hpad, hmod, hblocks⟩ := blocks_eq hrest (show pad = if rest.length < 120 then 128 - rest.length else 256 - rest.length from rfl)
  have hb : blocks < 2 ^ 64 := by
    change data.bytes.length / 128 + _ < _
    split <;> omega
  have htail : paddedTail data = some (rest ++ 0x80 :: List.replicate (pad - 9) 0 ++
      (wordBytes (blocks / 0x100000000) ++ wordBytes (blocks % 2 ^ 32))) := by
    have hdiv : 128 * (data.bytes.length / 128) / 128 = data.bytes.length / 128 := Nat.mul_div_cancel_left _ (by decide)
    have h8 : 128 - 8 = 120 := rfl
    have h2 : 2 * 128 = 256 := rfl
    have hfield := write_field (rest ++ 0x80 :: List.replicate (pad - 9) 0) hb
    rw [← put_rest rest hpad] at hfield
    simp only [paddedTail, length_offsets, BLOCK_BYTES, hdiv, h8, h2, ← hrest]
    exact hfield
  have hlength : (rest ++ 0x80 :: List.replicate (pad - 9) 0 ++
      (wordBytes (blocks / 0x100000000) ++ wordBytes (blocks % 2 ^ 32))).length = rest.length + pad := by
    simp only [List.length_append, List.length_cons, List.length_replicate, length_wordBytes]
    omega
  refine ⟨_, pad - 9, wordBytes (blocks / 0x100000000) ++ wordBytes (blocks % 2 ^ 32), htail, ?_, ?_, rfl, ?_⟩
  · rw [hlength, hmod]
  · rw [length_offsets]
  · rw [ofLE_wordBytes (by omega) (Nat.mod_lt _ (by decide)), length_offsets, length_offsets, hlength, ← hblocks]
    exact Nat.div_add_mod' blocks (2 ^ 32)

/-- For every state, which its matrix determines, `permute` is the specified permutation; and for every message the tail is
whole blocks, with `0x80` after the message, zeros, and in its last eight bytes the number of blocks hashed. -/
theorem specified_groestl : Function.Injective State.matrix ∧
    (∀ s, (permute P_SHIFT false s).matrix = specified σP false s.matrix) ∧
    (∀ s, (permute Q_SHIFT true s).matrix = specified σQ true s.matrix) ∧
    ∀ data : Buffer, ∃ tail zeros field, paddedTail data = some tail ∧ tail.length % 128 = 0 ∧
      tail = data.bytes.drop (128 * (offsets data.bytes.length).length) ++ 0x80 :: List.replicate zeros 0 ++ field ∧
      field.length = 8 ∧ Bytes.ofLE field.reverse = (offsets data.bytes.length).length + (offsets tail.length).length :=
  ⟨matrix_injective, matrix_permute (by decide) false, matrix_permute (by decide) true, paddedTail_eq⟩

end Groestl
