import MnoVerify.Verifier
import MnoVerify.MerklePath

/-!
# One spelling for each element

`isCanonicalField` of `common/field.js` and `signalsAreCanonical` of `core/verifier.js` on any JavaScript value, a string
being its UTF-16 units and an array having holes. `one_spelling`: each residue has one accepted spelling. `ofJson_canonical`
and `ofJson_signals` connect the two with the checks on what a request carries.
-/

namespace FieldSignals

open Field (Scalar FIELD_PRIME)

/-- A value, by its `typeof`; `object` stands for every object that is no array, and for null. -/
inductive Value
  | undefined
  | boolean (b : Bool)
  | number (n : Js.Num)
  | bigint (n : Int)
  | symbol
  | function
  | string (units : List UInt16)
  /-- A hole is none. -/
  | array (l : List (Option Value))
  | object

/-- The character of a unit; a surrogate is no digit. -/
def charOf (u : UInt16) : Char := Json.unitChar u.toNat

def isCanonicalField : Value → Bool
  | .string units => Field.isCanonical (units.map charOf)
  | _ => false

/-- `every` goes past a hole. -/
def every (p : Value → Bool) (l : List (Option Value)) : Bool := l.all fun v => v.all p

def signalsAreCanonical (publicSignals : Value) (count : Nat) : Bool :=
  match publicSignals with
  | .array l => decide (l.length = count) && every isCanonicalField l
  | _ => false

/-- `publicSignals[i]` -/
def Value.item : Value → Nat → Value
  | .array l, i => (l[i]?.join).getD .undefined
  | _, _ => .undefined

/-- `BigInt(v)` of an accepted value, in the field. -/
def residue : Value → Option Scalar
  | .string units => some (Field.value (units.map charOf) : Scalar)
  | _ => none

/-- The shortest decimal form of a number. -/
def shortest (n : Nat) : Value := .string ((Nat.toDigits 10 n).map fun c => UInt16.ofNat c.toNat)

/-! ## What a request carries -/

/-- The UTF-16 units of a character. -/
def units (c : Char) : List UInt16 :=
  if c.toNat < 0x10000 then [UInt16.ofNat c.toNat]
  else [UInt16.ofNat (0xD800 + (c.toNat - 0x10000) / 0x400), UInt16.ofNat (0xDC00 + (c.toNat - 0x10000) % 0x400)]

mutual

def ofJson : Json → Value
  | .null => .object
  | .bool b => .boolean b
  | .num d => .number (.dec d)
  | .str s => .string (s.toList.flatMap units)
  | .arr l => .array (ofElements l)
  | .obj _ => .object

def ofElements : List Json → List (Option Value)
  | [] => []
  | j :: l => some (ofJson j) :: ofElements l

end

/-! ## Digits -/

theorem toNat_ofNat {n : Nat} (h : n < 0x10000) : (UInt16.ofNat n).toNat = n := UInt16.toNat_ofNat_of_lt' h

theorem charOf_ofNat {c : Char} (h : c.toNat < 0x10000) : charOf (UInt16.ofNat c.toNat) = c := by
  have hv : ¬ (0xD800 ≤ c.toNat ∧ c.toNat < 0xE000) := (Utf8.scalar c).2
  have hh : Json.isHigh c.toNat = false := by simp [Json.isHigh]; omega
  have hl : Json.isLow c.toNat = false := by simp [Json.isLow]; omega
  rw [charOf, toNat_ofNat h, Json.unitChar, hh, hl, Bool.false_or, if_neg Bool.false_ne_true, Char.ofNat_toNat]

theorem charOf_surrogate {n : Nat} (h : 0xD800 ≤ n) (h' : n < 0xE000) : charOf (UInt16.ofNat n) = '\uFFFD' := by
  have hs : (Json.isHigh n || Json.isLow n) = true := by
    simp only [Json.isHigh, Json.isLow, Bool.or_eq_true, Bool.and_eq_true, decide_eq_true_eq]
    omega
  rw [charOf, toNat_ofNat (by omega), Json.unitChar, hs, if_pos rfl]

theorem toNat_charOfNat {n : Nat} (h : n.isValidChar) : (Char.ofNat n).toNat = n := by
  rw [Char.ofNat, dif_pos h]
  rfl

/-- Only the unit of a digit is read as that digit. -/
theorem ofNat_charOf {u : UInt16} (h : (charOf u).isDigit = true) : UInt16.ofNat (charOf u).toNat = u := by
  have hu : u.toNat < 0x10000 := u.toNat_lt
  by_cases hs : 0xD800 ≤ u.toNat ∧ u.toNat < 0xE000
  · rw [← UInt16.ofNat_toNat (x := u), charOf_surrogate hs.1 hs.2] at h
    exact absurd h (by decide)
  · have hh : Json.isHigh u.toNat = false := by simp [Json.isHigh]; omega
    have hl : Json.isLow u.toNat = false := by simp [Json.isLow]; omega
    have hv : u.toNat.isValidChar := by rw [Nat.isValidChar]; omega
    have hc : (charOf u).toNat = u.toNat := by
      rw [charOf, Json.unitChar, hh, hl, Bool.false_or, if_neg Bool.false_ne_true]
      exact toNat_charOfNat hv
    rw [hc, UInt16.ofNat_toNat]

theorem digit_lt {c : Char} (h : c.isDigit = true) : c.toNat < 0x10000 := by
  have hd := Char.isDigit_iff_toNat.1 h
  have h9 : '9'.toNat = 57 := rfl
  omega

theorem map_charOf_shortest (n : Nat) :
    ((Nat.toDigits 10 n).map fun c => UInt16.ofNat c.toNat).map charOf = Nat.toDigits 10 n := by
  rw [List.map_map]
  exact (List.map_congr_left fun c hc => charOf_ofNat (digit_lt (Js.Dec.isDigit_toDigits n c hc))).trans (List.map_id _)

theorem value_toDigits (n : Nat) : Field.value (Nat.toDigits 10 n) = n := Nat.ofDigitChars_ten_toDigits

/-! ## Elements -/

/-- Accepted are the shortest decimal forms below the modulus, and nothing else. -/
theorem isCanonicalField_iff (v : Value) : isCanonicalField v = true ↔ ∃ n < FIELD_PRIME, v = shortest n := by
  constructor
  · intro h
    cases v with
    | string units =>
      rw [isCanonicalField] at h
      have hd := Field.isDecimal_of_isCanonical h
      have hu : ∀ u ∈ units, UInt16.ofNat (charOf u).toNat = u := fun u hu =>
        ofNat_charOf (Field.isDigit_of_isDecimal hd _ (List.mem_map_of_mem hu))
      refine ⟨_, Field.value_lt_of_isCanonical h, ?_⟩
      rw [shortest, Field.toDigits_value hd, List.map_map]
      exact congrArg Value.string ((List.map_congr_left hu).trans (List.map_id _)).symm
    | _ => cases h
  · rintro ⟨n, hn, rfl⟩
    rw [shortest, isCanonicalField, map_charOf_shortest]
    exact Field.isCanonical_toDigits hn

theorem residue_shortest (n : Nat) : residue (shortest n) = some (n : Scalar) := by
  rw [shortest, residue, map_charOf_shortest, value_toDigits]

/-- Each residue has one accepted spelling, its shortest decimal form. -/
theorem one_spelling (r : Scalar) (v : Value) :
    isCanonicalField v = true ∧ residue v = some r ↔ v = shortest r.val := by
  constructor
  · rintro ⟨h, hr⟩
    obtain ⟨n, hn, rfl⟩ := (isCanonicalField_iff v).1 h
    rw [residue_shortest, Option.some_inj] at hr
    rw [← hr, ZMod.val_natCast, Nat.mod_eq_of_lt hn]
  · rintro rfl
    refine ⟨(isCanonicalField_iff _).2 ⟨_, ZMod.val_lt r, rfl⟩, ?_⟩
    rw [residue_shortest, ZMod.natCast_zmod_val]

theorem residue_of_canonical {v : Value} (h : isCanonicalField v = true) : ∃ r, residue v = some r := by
  obtain ⟨n, -, rfl⟩ := (isCanonicalField_iff v).1 h
  exact ⟨_, residue_shortest n⟩

theorem residue_inj {v w : Value} (hv : isCanonicalField v = true) (hw : isCanonicalField w = true)
    (h : residue v = residue w) : v = w := by
  obtain ⟨r, hr⟩ := residue_of_canonical hv
  rw [(one_spelling r v).1 ⟨hv, hr⟩, (one_spelling r w).1 ⟨hw, h ▸ hr⟩]

/-! ## Arrays -/

theorem accepted {v : Value} {count : Nat} (h : signalsAreCanonical v count = true) :
    ∃ l, v = .array l ∧ l.length = count ∧ ∀ o ∈ l, ∀ w ∈ o, isCanonicalField w = true := by
  cases v with
  | array l =>
    rw [signalsAreCanonical, every, Bool.and_eq_true, decide_eq_true_eq, List.all_eq_true] at h
    refine ⟨l, rfl, h.1, fun o ho w hw => ?_⟩
    have := h.2 o ho
    rw [Option.mem_def.1 hw] at this
    exact this
  | _ => cases h

/-- What stands at an index of an accepted array, or none at a hole and past its end. -/
theorem item_accepted {v : Value} {count : Nat} (h : signalsAreCanonical v count = true) (i : Nat) :
    v.item i = .undefined ∨ isCanonicalField (v.item i) = true := by
  obtain ⟨l, rfl, -, hl⟩ := accepted h
  rw [Value.item]
  rcases hi : l[i]? with _ | _ | w
  · exact Or.inl rfl
  · exact Or.inl rfl
  · exact Or.inr (hl _ (List.mem_of_getElem? hi) w rfl)

theorem item_inj {a b : Value} {count count' : Nat} (ha : signalsAreCanonical a count = true)
    (hb : signalsAreCanonical b count' = true) {i : Nat} (h : residue (a.item i) = residue (b.item i)) :
    a.item i = b.item i := by
  rcases item_accepted ha i with ha | ha <;> rcases item_accepted hb i with hb | hb
  · rw [ha, hb]
  · obtain ⟨r, hr⟩ := residue_of_canonical hb
    rw [ha, hr] at h
    cases h
  · obtain ⟨r, hr⟩ := residue_of_canonical ha
    rw [hb, hr] at h
    cases h
  · exact residue_inj ha hb h

/-- An accepted array is what stands at its indices. -/
theorem eq_of_items {a b : Value} {count : Nat} (ha : signalsAreCanonical a count = true)
    (hb : signalsAreCanonical b count = true) (h : ∀ i < count, a.item i = b.item i) : a = b := by
  obtain ⟨l, rfl, hl, hlc⟩ := accepted ha
  obtain ⟨m, rfl, hm, hmc⟩ := accepted hb
  have hu : isCanonicalField .undefined = false := rfl
  refine congrArg Value.array (List.ext_getElem (hl.trans hm.symm) fun i hi hi' => ?_)
  have hx := h i (hl ▸ hi)
  rw [Value.item, Value.item, List.getElem?_eq_getElem hi, List.getElem?_eq_getElem hi'] at hx
  have hli := hlc _ (List.getElem_mem hi)
  have hmi := hmc _ (List.getElem_mem hi')
  rcases hv : l[i] with _ | v <;> rcases hw : m[i] with _ | w <;> rw [hv, hw] at hx <;> rw [hv] at hli <;> rw [hw] at hmi
  · have hw' := hmi w rfl
    rw [show w = .undefined from hx.symm, hu] at hw'
    cases hw'
  · have hv' := hli v rfl
    rw [show v = .undefined from hx, hu] at hv'
    cases hv'
  · exact congrArg some hx

/-! ## The two checks on what a request carries -/

theorem units_digit {c : Char} (h : c.toNat < 0x10000) : (units c).map charOf = [c] := by
  rw [units, if_pos h, List.map_singleton, charOf_ofNat h]

theorem units_astral {c : Char} (h : ¬ c.toNat < 0x10000) : '\uFFFD' ∈ (units c).map charOf := by
  have hc := (Utf8.scalar c).1
  rw [units, if_neg h, List.map_cons, charOf_surrogate (by omega) (by omega)]
  exact List.mem_cons_self

theorem flatMap_units {s : List Char} (h : ∀ c ∈ s, c.toNat < 0x10000) : (s.flatMap units).map charOf = s := by
  induction s with
  | nil => rfl
  | cons c s ih =>
    rw [List.flatMap_cons, List.map_append, units_digit (h c List.mem_cons_self),
      ih fun d hd => h d (List.mem_cons_of_mem c hd), List.singleton_append]

theorem isCanonical_units (s : List Char) : Field.isCanonical ((s.flatMap units).map charOf) = Field.isCanonical s := by
  have digits : ∀ {t : List Char}, Field.isCanonical t = true → ∀ c ∈ t, c.isDigit = true := fun h =>
    Field.isDigit_of_isDecimal (Field.isDecimal_of_isCanonical h)
  by_cases h : ∀ c ∈ s, c.toNat < 0x10000
  · rw [flatMap_units h]
  · obtain ⟨c, hc, hn⟩ : ∃ c ∈ s, ¬ c.toNat < 0x10000 := by simpa using h
    have hx : '\uFFFD' ∈ (s.flatMap units).map charOf := by
      obtain ⟨u, hu, he⟩ := List.mem_map.1 (units_astral hn)
      exact List.mem_map.2 ⟨u, List.mem_flatMap.2 ⟨c, hc, hu⟩, he⟩
    have hl : Field.isCanonical ((s.flatMap units).map charOf) = false := Bool.eq_false_iff.2 fun h =>
      absurd (digits h _ hx) (by decide)
    have hr : Field.isCanonical s = false := Bool.eq_false_iff.2 fun h => hn (digit_lt (digits h c hc))
    rw [hl, hr]

theorem ofJson_canonical (j : Json) : isCanonicalField (ofJson j) = Field.isCanonicalField j := by
  cases j with
  | str s => rw [ofJson, isCanonicalField, isCanonical_units, Field.isCanonicalField]
  | _ => rfl

theorem length_ofElements (l : List Json) : (ofElements l).length = l.length := by
  induction l with
  | nil => rfl
  | cons j l ih => rw [ofElements, List.length_cons, List.length_cons, ih]

theorem every_ofElements (l : List Json) : every isCanonicalField (ofElements l) = l.all Field.isCanonicalField := by
  induction l with
  | nil => rfl
  | cons j l ih =>
    rw [ofElements, every, List.all_cons, List.all_cons, ← ih, Option.all_some, ofJson_canonical]
    rfl

theorem ofJson_signals (j : Json) (count : Nat) :
    signalsAreCanonical (ofJson j) count = Verifier.signalsAreCanonical j count := by
  cases j with
  | arr l => rw [ofJson, signalsAreCanonical, length_ofElements, every_ofElements, Verifier.signalsAreCanonical]
  | _ => rfl

/-! ## No aliasing -/

theorem elements_inj {a b : Element} : (a.value : Scalar) = b.value ↔ a = b := by
  constructor
  · intro h
    exact Element.eq_of_fieldEq ((ZMod.natCast_eq_natCast_iff' _ _ _).1 h)
  · rintro rfl
    rfl

/-- The last part is the key under which the store keeps a proof. -/
theorem no_aliasing :
    (∀ (r : Scalar) (v : Value), isCanonicalField v = true ∧ residue v = some r ↔ v = shortest r.val) ∧
      (∀ v, isCanonicalField v = true → ∃ r, residue v = some r) ∧
      (∀ (a b : Value) (count : Nat), signalsAreCanonical a count = true → signalsAreCanonical b count = true →
        (a = b ↔ ∀ i < count, residue (a.item i) = residue (b.item i)) ∧
          ∀ i, a.item i = b.item i ↔ residue (a.item i) = residue (b.item i)) ∧
      ∀ (p q : Json) (s t : Verifier.Signals), Verifier.readSignals p = some s → Verifier.readSignals q = some t →
        signalsAreCanonical (ofJson p) 5 = true ∧ signalsAreCanonical (ofJson q) 5 = true ∧
          (s.tag = t.tag ↔ (s.epoch.value : Scalar) = t.epoch.value ∧ (s.contextHash.value : Scalar) = t.contextHash.value ∧
            (s.nullifier.value : Scalar) = t.nullifier.value) := by
  refine ⟨one_spelling, fun v => residue_of_canonical, fun a b count ha hb => ⟨⟨?_, ?_⟩, fun i => ⟨?_, item_inj ha hb⟩⟩, ?_⟩
  · rintro rfl i -
    rfl
  · exact fun h => eq_of_items ha hb fun i hi => item_inj ha hb (h i hi)
  · exact congrArg residue
  · intro p q s t hp hq
    have accepts : ∀ {j : Json} {s : Verifier.Signals}, Verifier.readSignals j = some s →
        signalsAreCanonical (ofJson j) 5 = true := fun {j s} h => by
      rw [ofJson_signals, ← Verifier.isSome_readSignals, h, Option.isSome_some]
    refine ⟨accepts hp, accepts hq, ?_⟩
    rw [elements_inj, elements_inj, elements_inj]
    exact Tag.ext_iff

theorem no_aliasing_seven :
    signalsAreCanonical (.array [some (shortest 7)]) 1 = true ∧
      (Value.array [some (shortest 7)] = .array [some (shortest 7)] ↔
        ∀ i < 1, residue ((Value.array [some (shortest 7)]).item i) = residue ((Value.array [some (shortest 7)]).item i)) := by
  have h : signalsAreCanonical (.array [some (shortest 7)]) 1 = true := by decide
  exact ⟨h, (no_aliasing.2.2.1 _ _ 1 h h).1⟩

end FieldSignals
