import MnoVerify.Json

/-!
# Reading back a JSON text

`parse_stringify`: what `stringify` writes, `parse` reads back.
-/

namespace Json

/-! ## Strings -/

def unitOf (c : Char) : CodeUnit :=
  if c.toNat < 32 ∧ c ≠ '\x08' ∧ c ≠ '\x0c' ∧ c ≠ '\n' ∧ c ≠ '\r' ∧ c ≠ '\t' then .unit c.toNat else .char c

theorem hexVal_hexDigit : ∀ n < 16, hexVal (hexDigit n) = some n := by decide

theorem readUnits_escape (c : Char) (r : List Char) {us : List CodeUnit} {t : List Char}
    (h : readUnits r = some (us, t)) : readUnits (escape c ++ r) = some (unitOf c :: us, t) := by
  unfold escape
  split
  · rename_i hc; subst hc; simp [readUnits, h, unescape, unitOf]
  split
  · rename_i hc; subst hc; simp [readUnits, h, unescape, unitOf]
  split
  · rename_i hc; subst hc; simp [readUnits, h, unescape, unitOf]
  split
  · rename_i hc; subst hc; simp [readUnits, h, unescape, unitOf]
  split
  · rename_i hc; subst hc; simp [readUnits, h, unescape, unitOf]
  split
  · rename_i hc; subst hc; simp [readUnits, h, unescape, unitOf]
  split
  · rename_i hc; subst hc; simp [readUnits, h, unescape, unitOf]
  rename_i hq hb h8 hc h10 h13 h9
  split
  · rename_i h32
    have hx : hex4 '0' '0' (hexDigit (c.toNat / 16)) (hexDigit (c.toNat % 16)) = some c.toNat := by
      simp [hex4, hexVal_hexDigit _ (show c.toNat / 16 < 16 by omega), hexVal_hexDigit _ (show c.toNat % 16 < 16 by omega),
        show hexVal '0' = some 0 from rfl]
      omega
    simp [readUnits, hx, h, unitOf, h32, h8, hc, h10, h13, h9]
  · rename_i h32
    rw [List.singleton_append]
    unfold readUnits
    split
    · rename_i heq; cases heq
    · rename_i heq; exact absurd (List.cons.inj heq).1 hq
    · rename_i heq; exact absurd (List.cons.inj heq).1 hb
    · rename_i heq; exact absurd (List.cons.inj heq).1 hb
    · rename_i heq; cases heq; simp [h, hb, h32, unitOf]

theorem joinUnits_unitOf : ∀ s : List Char, joinUnits (s.map unitOf) = s
  | [] => rfl
  | c :: s => by
    have ih := joinUnits_unitOf s
    rw [List.map_cons]
    by_cases hc : c.toNat < 32 ∧ c ≠ '\x08' ∧ c ≠ '\x0c' ∧ c ≠ '\n' ∧ c ≠ '\r' ∧ c ≠ '\t'
    · have hu : unitOf c = .unit c.toNat := by simp [unitOf, hc]
      have hh : isHigh c.toNat = false := by simp [isHigh]; omega
      have hl : isLow c.toNat = false := by simp [isLow]; omega
      have hch : unitChar c.toNat = c := by simp [unitChar, hh, hl]
      rw [hu]
      cases s with
      | nil => simp [joinUnits, hch]
      | cons d s =>
        rw [List.map_cons] at ih ⊢
        cases hd : unitOf d with
        | char x => rw [joinUnits, hch, ← hd, ih]; simp
        | unit x => rw [joinUnits, hh, Bool.false_and, if_neg (by decide), hch, ← hd, ih]
    · have hu : unitOf c = .char c := by simp [unitOf, hc]
      rw [hu, joinUnits, ih]

theorem readUnits_quote : ∀ (s r : List Char), readUnits (s.flatMap escape ++ '"' :: r) = some (s.map unitOf, r)
  | [], r => rfl
  | c :: s, r => by
    rw [List.flatMap_cons, List.append_assoc, List.map_cons]
    exact readUnits_escape c _ (readUnits_quote s r)

theorem readString_quote (s : String) (r : List Char) :
    readString (s.toList.flatMap escape ++ '"' :: r) = some (s, r) := by
  simp [readString, readUnits_quote, joinUnits_unitOf]

/-! ## Values -/

/-- A text that a value can be followed by. -/
def Follows (r : List Char) : Prop := ∀ c ∈ r.head?, c = ',' ∨ c = ']' ∨ c = '}' ∨ isWs c = true

theorem Follows.stops {r : List Char} (h : Follows r) : Js.Dec.Stops r := by
  intro c hc
  rcases h c hc with rfl | rfl | rfl | hw
  · decide
  · decide
  · decide
  · simp only [isWs, Bool.or_eq_true, beq_iff_eq] at hw
    rcases hw with ((rfl | rfl) | rfl) | rfl <;> decide

theorem follows_comma (r : List Char) : Follows (',' :: r) := by
  intro c hc; simp only [List.head?_cons, Option.mem_some_iff] at hc; exact .inl hc.symm

theorem follows_elements (l : List Json) (r : List Char) : Follows (stringifyElements l ++ r) := by
  cases l with
  | nil => intro c hc; simp only [stringifyElements, List.singleton_append, List.head?_cons, Option.mem_some_iff] at hc
           exact .inr (.inl hc.symm)
  | cons v l => rw [stringifyElements]; exact follows_comma _

theorem follows_members (m : List (String × Json)) (r : List Char) : Follows (stringifyMembers m ++ r) := by
  cases m with
  | nil => intro c hc; simp only [stringifyMembers, List.singleton_append, List.head?_cons, Option.mem_some_iff] at hc
           exact .inr (.inr (.inl hc.symm))
  | cons p m => obtain ⟨k, v⟩ := p; rw [stringifyMembers]; exact follows_comma _

theorem skipWs_cons {c : Char} (r : List Char) (h : isWs c = false) : skipWs (c :: r) = c :: r := by
  rw [skipWs, List.dropWhile_cons_of_neg (by simp [h])]

/-- No value starts with white space or with a closing bracket. -/
theorem stringify_head (v : Json) : ∃ c r, stringify v = c :: r ∧ isWs c = false ∧ c ≠ ']' ∧ c ≠ '}' := by
  match v with
  | null => exact ⟨'n', _, rfl, by decide⟩
  | bool true => exact ⟨'t', _, rfl, by decide⟩
  | bool false => exact ⟨'f', _, rfl, by decide⟩
  | str s => exact ⟨'"', _, by rw [stringify, quote], by decide⟩
  | arr [] => exact ⟨'[', _, by rw [stringify], by decide⟩
  | arr (v :: l) => exact ⟨'[', _, by rw [stringify], by decide⟩
  | obj [] => exact ⟨'{', _, by rw [stringify], by decide⟩
  | obj ((k, v) :: m) => exact ⟨'{', _, by rw [stringify], by decide⟩
  | num d =>
    obtain ⟨c, r, hb, hc⟩ := Js.Dec.body_head d
    rw [stringify, Js.Dec.toText]
    split
    · exact ⟨'-', _, rfl, by decide⟩
    · refine ⟨c, r, hb, ?_, fun h => ?_, fun h => ?_⟩
      · by_contra hw
        simp only [isWs, Bool.not_eq_false, Bool.or_eq_true, beq_iff_eq] at hw
        rcases hw with ((rfl | rfl) | rfl) | rfl <;> exact absurd hc (by decide)
      · subst h; exact absurd hc (by decide)
      · subst h; exact absurd hc (by decide)

theorem skipWs_stringify (v : Json) (r : List Char) : skipWs (stringify v ++ r) = stringify v ++ r := by
  obtain ⟨c, t, h, hw, -⟩ := stringify_head v
  rw [h, List.cons_append, skipWs_cons _ hw]

/-- A number read as a value: its first character selects no other form. -/
theorem readValue_num {n : Nat} {d : Js.Dec} {r : List Char} (hr : Follows r) :
    readValue (n + 1) (d.toText ++ r) = some (num d, r) := by
  have hread := Js.Dec.readNumber_toText d hr.stops
  have hhead : ∃ c t, d.toText = c :: t ∧ (c = '-' ∨ c.isDigit = true) := by
    obtain ⟨c, t, hb, hc⟩ := Js.Dec.body_head d
    unfold Js.Dec.toText
    cases d.neg
    · exact ⟨c, t, hb, .inr hc⟩
    · exact ⟨'-', _, rfl, .inl rfl⟩
  obtain ⟨c, t, ht, hc⟩ := hhead
  rw [ht, List.cons_append] at hread ⊢
  have hne : ∀ x : Char, x.isDigit = false → x ≠ '-' → c ≠ x := by
    rintro x hx hx' rfl
    rcases hc with rfl | hc
    · exact hx' rfl
    · rw [hx] at hc; cases hc
  unfold readValue
  split
  · rename_i heq; exact absurd (List.cons.inj heq).1 (hne _ (by decide) (by decide))
  · rename_i heq; exact absurd (List.cons.inj heq).1 (hne _ (by decide) (by decide))
  · rename_i heq; exact absurd (List.cons.inj heq).1 (hne _ (by decide) (by decide))
  · rename_i heq; exact absurd (List.cons.inj heq).1 (hne _ (by decide) (by decide))
  · rename_i heq; exact absurd (List.cons.inj heq).1 (hne _ (by decide) (by decide))
  · rename_i heq; exact absurd (List.cons.inj heq).1 (hne _ (by decide) (by decide))
  · simp [hread]

theorem readValue_arr {n : Nat} {s s' t : List Char} {l : List Json} (h : skipWs s = s') (hb : s'.head? ≠ some ']')
    (hl : readElements n s' = some (l, t)) : readValue (n + 1) ('[' :: s) = some (arr l, t) := by
  rw [readValue]
  simp only [h]
  split
  · exact absurd rfl hb
  · simp [hl]

theorem readValue_obj {n : Nat} {s s' t : List Char} {m : List (String × Json)} (h : skipWs s = s')
    (hb : s'.head? ≠ some '}') (hm : readMembers n s' = some (m, t)) : readValue (n + 1) ('{' :: s) = some (obj m, t) := by
  rw [readValue]
  simp only [h]
  split
  · exact absurd rfl hb
  · simp [hm]

mutual

theorem readValue_stringify : ∀ (v : Json) (n : Nat) (r : List Char), (stringify v).length ≤ n → Follows r →
    readValue n (stringify v ++ r) = some (v, r)
  | v, 0, r, hn, _ => by
    obtain ⟨c, t, h, -⟩ := stringify_head v
    rw [h] at hn; simp at hn
  | null, n + 1, r, _, _ => rfl
  | bool true, n + 1, r, _, _ => rfl
  | bool false, n + 1, r, _, _ => rfl
  | num d, n + 1, r, _, hr => by rw [stringify]; exact readValue_num hr
  | str s, n + 1, r, _, _ => by
    rw [stringify, quote, List.cons_append, List.append_assoc, List.singleton_append, readValue]
    simp [readString_quote]
  | arr [], n + 1, r, _, _ => by simp [stringify, readValue, skipWs, isWs]
  | arr (v :: l), n + 1, r, hn, hr => by
    rw [stringify, List.cons_append, List.append_assoc]
    rw [stringify, List.length_cons, List.length_append] at hn
    refine readValue_arr (skipWs_stringify v _) ?_ (readElements_stringify v l n r (by omega))
    obtain ⟨c, t, h, -, hb, -⟩ := stringify_head v
    rw [h]; simpa using hb
  | obj [], n + 1, r, _, _ => by simp [stringify, readValue, skipWs, isWs]
  | obj ((k, v) :: m), n + 1, r, hn, hr => by
    rw [stringify] at hn ⊢
    rw [List.cons_append]
    refine readValue_obj ?_ ?_ (readMembers_stringify k v m n r ?_)
    · rw [quote, List.cons_append, List.cons_append, skipWs_cons _ (by decide)]
    · rw [quote]; simp
    · simp only [List.length_cons] at hn; omega

theorem readElements_stringify : ∀ (v : Json) (l : List Json) (n : Nat) (r : List Char),
    (stringify v).length + (stringifyElements l).length ≤ n →
    readElements n (stringify v ++ (stringifyElements l ++ r)) = some (v :: l, r)
  | v, l, 0, r, hn => by
    obtain ⟨c, t, h, -⟩ := stringify_head v
    rw [h] at hn; simp at hn
  | v, [], n + 1, r, hn => by
    rw [stringifyElements, List.length_singleton] at hn
    rw [readElements, readValue_stringify v n _ (by omega) (follows_elements [] r)]
    simp [stringifyElements, skipWs, isWs]
  | v, w :: l, n + 1, r, hn => by
    rw [stringifyElements, List.length_cons, List.length_append] at hn
    rw [readElements, readValue_stringify v n _ (by omega) (follows_elements (w :: l) r)]
    have ih := readElements_stringify w l n r (by omega)
    have hs : skipWs (',' :: (stringify w ++ (stringifyElements l ++ r))) =
        ',' :: (stringify w ++ (stringifyElements l ++ r)) := skipWs_cons _ (by decide)
    simp [stringifyElements, hs, skipWs_stringify, ih]

theorem readMembers_stringify : ∀ (k : String) (v : Json) (m : List (String × Json)) (n : Nat) (r : List Char),
    (quote k.toList ++ ':' :: (stringify v ++ stringifyMembers m)).length ≤ n →
    readMembers n ((quote k.toList ++ ':' :: (stringify v ++ stringifyMembers m)) ++ r) = some ((k, v) :: m, r)
  | k, v, m, 0, r, hn => by simp [quote] at hn
  | k, v, m, n + 1, r, hn => by
    have hlen : (stringify v).length + (stringifyMembers m).length ≤ n := by
      simp only [List.length_append, List.length_cons] at hn; omega
    have hv := readValue_stringify v n (stringifyMembers m ++ r) (by omega) (follows_members m r)
    have hcol : skipWs (':' :: (stringify v ++ (stringifyMembers m ++ r))) =
        ':' :: (stringify v ++ (stringifyMembers m ++ r)) := skipWs_cons _ (by decide)
    have hstart : (quote k.toList ++ ':' :: (stringify v ++ stringifyMembers m)) ++ r =
        '"' :: (k.toList.flatMap escape ++ '"' :: (':' :: (stringify v ++ (stringifyMembers m ++ r)))) := by
      simp [quote]
    rw [hstart, readMembers]
    cases m with
    | nil =>
      rw [stringifyMembers, List.singleton_append] at hv hcol ⊢
      have hbr : skipWs ('}' :: r) = '}' :: r := skipWs_cons r (by decide)
      simp only [readString_quote, hcol, skipWs_stringify, hv, hbr, Option.bind_eq_bind, Option.bind_some]
    | cons p m =>
      obtain ⟨k', v'⟩ := p
      rw [stringifyMembers] at hn hv hcol ⊢
      have ih := readMembers_stringify k' v' m n r (by
        simp only [List.length_append, List.length_cons] at hn ⊢; omega)
      have hsk : skipWs ((quote k'.toList ++ ':' :: (stringify v' ++ stringifyMembers m)) ++ r) =
          (quote k'.toList ++ ':' :: (stringify v' ++ stringifyMembers m)) ++ r := by
        rw [quote, List.cons_append, List.cons_append, skipWs_cons _ (by decide)]
      rw [List.cons_append] at hv hcol ⊢
      have hcomma : ∀ t, skipWs (',' :: t) = ',' :: t := fun t => skipWs_cons t (by decide)
      simp only [readString_quote, hcol, skipWs_stringify, hv, hcomma, hsk, ih, Option.bind_eq_bind, Option.bind_some]

end

/-- What is written is read back. -/
theorem parse_stringify (v : Json) : parse (stringify v) = some v := by
  have h := readValue_stringify v ((stringify v).length + 1) [] (by omega) (fun c hc => by cases hc)
  have hs := skipWs_stringify v []
  rw [List.append_nil] at h hs
  simp only [parse, hs, h, Option.bind_eq_bind, Option.bind_some]
  rfl

/-! ## One line -/

theorem printable_of_all {s : List Char} (h : (s.all fun c => decide (32 ≤ c.toNat)) = true) : ∀ x ∈ s, 32 ≤ x.toNat := by
  simpa using h

theorem escape_printable (c : Char) : ∀ x ∈ escape c, 32 ≤ x.toNat := by
  have hx : ∀ n < 16, 32 ≤ (hexDigit n).toNat := by decide
  unfold escape
  repeat' split
  case isFalse.isFalse.isFalse.isFalse.isFalse.isFalse.isFalse.isTrue h =>
    simpa using ⟨hx _ (by omega), hx _ (by omega)⟩
  case isFalse.isFalse.isFalse.isFalse.isFalse.isFalse.isFalse.isFalse h =>
    simpa using h
  all_goals exact printable_of_all (by decide)

theorem quote_printable (s : List Char) : ∀ x ∈ quote s, 32 ≤ x.toNat := by
  intro x hx
  rw [quote, List.mem_cons, List.mem_append, List.mem_singleton, List.mem_flatMap] at hx
  rcases hx with rfl | ⟨c, -, hc⟩ | rfl
  · decide
  · exact escape_printable c x hc
  · decide

theorem toText_printable (d : Js.Dec) : ∀ x ∈ d.toText, 32 ≤ x.toNat := by
  intro x hx
  rcases d.numberChar_toText x hx with h | h
  · have h48 : 48 ≤ x.toNat := (Char.isDigit_iff_toNat.1 h).1
    omega
  · simp only [List.mem_cons, List.not_mem_nil, or_false] at h
    rcases h with rfl | rfl | rfl | rfl <;> decide

mutual

/-- What is written has no control character, and so no line break. -/
theorem stringify_printable : ∀ (v : Json), ∀ x ∈ stringify v, 32 ≤ x.toNat
  | null => by rw [stringify]; exact printable_of_all (by decide)
  | bool true => by rw [stringify]; exact printable_of_all (by decide)
  | bool false => by rw [stringify]; exact printable_of_all (by decide)
  | num d => by rw [stringify]; exact toText_printable d
  | str s => by rw [stringify]; exact quote_printable _
  | arr [] => by rw [stringify]; exact printable_of_all (by decide)
  | arr (v :: l) => by
    rw [stringify, List.forall_mem_cons, List.forall_mem_append]
    exact ⟨by decide, stringify_printable v, stringifyElements_printable l⟩
  | obj [] => by rw [stringify]; exact printable_of_all (by decide)
  | obj ((k, v) :: m) => by
    rw [stringify, List.forall_mem_cons, List.forall_mem_append, List.forall_mem_cons, List.forall_mem_append]
    exact ⟨by decide, quote_printable _, by decide, stringify_printable v, stringifyMembers_printable m⟩

theorem stringifyElements_printable : ∀ (l : List Json), ∀ x ∈ stringifyElements l, 32 ≤ x.toNat
  | [] => by rw [stringifyElements]; exact printable_of_all (by decide)
  | v :: l => by
    rw [stringifyElements, List.forall_mem_cons, List.forall_mem_append]
    exact ⟨by decide, stringify_printable v, stringifyElements_printable l⟩

theorem stringifyMembers_printable : ∀ (m : List (String × Json)), ∀ x ∈ stringifyMembers m, 32 ≤ x.toNat
  | [] => by rw [stringifyMembers]; exact printable_of_all (by decide)
  | (k, v) :: m => by
    rw [stringifyMembers, List.forall_mem_cons, List.forall_mem_append, List.forall_mem_cons, List.forall_mem_append]
    exact ⟨by decide, quote_printable _, by decide, stringify_printable v, stringifyMembers_printable m⟩

end

theorem newline_notMem_stringify (v : Json) : '\n' ∉ stringify v := fun h => by
  have := stringify_printable v _ h
  revert this; decide

end Json
