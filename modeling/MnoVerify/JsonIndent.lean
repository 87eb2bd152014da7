import MnoVerify.JsonTorn

/-!
# Indented JSON texts

`pretty` writes a value the way `JSON.stringify(v, null, 2)` does. `parse_pretty`: what is written is read back;
`parse_pretty_torn`: a written object that is cut short is not a JSON text.
-/

namespace Json

/-- A new line at a depth. -/
def newline (n : Nat) : List Char := '\n' :: List.replicate (2 * n) ' '

mutual

/-- `JSON.stringify`, with an indent of two spaces, at a depth. -/
def pretty (n : Nat) : Json → List Char
  | null => "null".toList
  | bool true => "true".toList
  | bool false => "false".toList
  | num d => d.toText
  | str s => quote s.toList
  | arr [] => ['[', ']']
  | arr (v :: l) => '[' :: (newline (n + 1) ++ (pretty (n + 1) v ++ prettyElements n l))
  | obj [] => ['{', '}']
  | obj ((k, v) :: m) =>
    '{' :: (newline (n + 1) ++ (quote k.toList ++ ':' :: ' ' :: (pretty (n + 1) v ++ prettyMembers n m)))

/-- The elements after the first, and the closing bracket. -/
def prettyElements (n : Nat) : List Json → List Char
  | [] => newline n ++ [']']
  | v :: l => ',' :: (newline (n + 1) ++ (pretty (n + 1) v ++ prettyElements n l))

/-- The members after the first, and the closing brace. -/
def prettyMembers (n : Nat) : List (String × Json) → List Char
  | [] => newline n ++ ['}']
  | (k, v) :: m =>
    ',' :: (newline (n + 1) ++ (quote k.toList ++ ':' :: ' ' :: (pretty (n + 1) v ++ prettyMembers n m)))

end

/-! ## Reading back -/

theorem newline_isWs (n : Nat) : ∀ c ∈ newline n, isWs c = true := by
  intro c hc
  rcases List.mem_cons.mp hc with rfl | hc
  · decide
  · rw [(List.mem_replicate.mp hc).2]
    decide

theorem skipWs_append {s : List Char} (h : ∀ c ∈ s, isWs c = true) (t : List Char) : skipWs (s ++ t) = skipWs t := by
  rw [skipWs]
  exact List.dropWhile_append_of_pos h

@[simp] theorem skipWs_newline (n : Nat) (t : List Char) : skipWs (newline n ++ t) = skipWs t :=
  skipWs_append (newline_isWs n) t

@[simp] theorem skipWs_space (t : List Char) : skipWs (' ' :: t) = skipWs t := rfl

theorem follows_newline (n : Nat) (r : List Char) : Follows (newline n ++ r) := by
  intro c hc
  rw [newline, List.cons_append, List.head?_cons, Option.mem_some_iff] at hc
  subst hc
  decide

/-- No value starts with white space or with a closing bracket. -/
theorem pretty_head (n : Nat) (v : Json) : ∃ c r, pretty n v = c :: r ∧ isWs c = false ∧ c ≠ ']' ∧ c ≠ '}' := by
  match v with
  | null => exact ⟨'n', _, rfl, by decide⟩
  | bool true => exact ⟨'t', _, rfl, by decide⟩
  | bool false => exact ⟨'f', _, rfl, by decide⟩
  | str s => exact ⟨'"', _, by rw [pretty, quote], by decide⟩
  | arr [] => exact ⟨'[', _, by rw [pretty], by decide⟩
  | arr (v :: l) => exact ⟨'[', _, by rw [pretty], by decide⟩
  | obj [] => exact ⟨'{', _, by rw [pretty], by decide⟩
  | obj ((k, v) :: m) => exact ⟨'{', _, by rw [pretty], by decide⟩
  | num d =>
    obtain ⟨c, r, h, hc⟩ := stringify_head (num d)
    exact ⟨c, r, by rw [pretty, ← h, stringify], hc⟩

theorem skipWs_pretty (n : Nat) (v : Json) (r : List Char) : skipWs (pretty n v ++ r) = pretty n v ++ r := by
  obtain ⟨c, t, h, hw, -⟩ := pretty_head n v
  rw [h, List.cons_append, skipWs_cons _ hw]

theorem follows_prettyElements (n : Nat) (l : List Json) (r : List Char) : Follows (prettyElements n l ++ r) := by
  cases l with
  | nil =>
    rw [prettyElements, List.append_assoc]
    exact follows_newline n _
  | cons v l =>
    rw [prettyElements]
    exact follows_comma _

theorem follows_prettyMembers (n : Nat) (m : List (String × Json)) (r : List Char) : Follows (prettyMembers n m ++ r) := by
  cases m with
  | nil =>
    rw [prettyMembers, List.append_assoc]
    exact follows_newline n _
  | cons p m =>
    obtain ⟨k, v⟩ := p
    rw [prettyMembers]
    exact follows_comma _

/-- A member and what follows its value. -/
def prettyMember (n : Nat) (k : String) (v : Json) (rest : List Char) : List Char :=
  quote k.toList ++ ':' :: ' ' :: (pretty (n + 1) v ++ rest)

theorem skipWs_prettyMember (n : Nat) (k : String) (v : Json) (rest : List Char) :
    skipWs (prettyMember n k v rest) = prettyMember n k v rest := by
  rw [prettyMember, quote, List.cons_append, skipWs_cons _ (by decide)]

mutual

theorem readValue_pretty : ∀ (v : Json) (d n : Nat) (r : List Char), (pretty d v).length ≤ n → Follows r →
    readValue n (pretty d v ++ r) = some (v, r)
  | v, d, 0, r, hn, _ => by
    obtain ⟨c, t, h, -⟩ := pretty_head d v
    rw [h] at hn
    simp at hn
  | null, d, n + 1, r, _, _ => rfl
  | bool true, d, n + 1, r, _, _ => rfl
  | bool false, d, n + 1, r, _, _ => rfl
  | num x, d, n + 1, r, _, hr => by
    rw [pretty]
    exact readValue_num hr
  | str s, d, n + 1, r, _, _ => by
    rw [pretty, quote, List.cons_append, List.append_assoc, List.singleton_append, readValue]
    simp [readString_quote]
  | arr [], d, n + 1, r, _, _ => by simp [pretty, readValue, skipWs, isWs]
  | arr (v :: l), d, n + 1, r, hn, hr => by
    rw [pretty] at hn ⊢
    rw [List.cons_append, List.append_assoc, List.append_assoc]
    simp only [List.length_cons, List.length_append] at hn
    refine readValue_arr ?_ ?_ (readElements_pretty v l d n r (by omega))
    · rw [skipWs_newline, skipWs_pretty]
    · obtain ⟨c, t, h, -, hb, -⟩ := pretty_head (d + 1) v
      rw [h]
      simpa using hb
  | obj [], d, n + 1, r, _, _ => by simp [pretty, readValue, skipWs, isWs]
  | obj ((k, v) :: m), d, n + 1, r, hn, hr => by
    rw [pretty] at hn ⊢
    simp only [List.length_cons, List.length_append] at hn
    have hshape : (newline (d + 1) ++ (quote k.toList ++ ':' :: ' ' :: (pretty (d + 1) v ++ prettyMembers d m))) ++ r =
        newline (d + 1) ++ prettyMember d k v (prettyMembers d m ++ r) := by simp [prettyMember]
    rw [List.cons_append, hshape]
    refine readValue_obj ?_ ?_ (readMembers_pretty k v m d n r (by omega))
    · rw [skipWs_newline, skipWs_prettyMember]
    · rw [prettyMember, quote]
      simp

theorem readElements_pretty : ∀ (v : Json) (l : List Json) (d n : Nat) (r : List Char),
    (pretty (d + 1) v).length + (prettyElements d l).length ≤ n →
    readElements n (pretty (d + 1) v ++ (prettyElements d l ++ r)) = some (v :: l, r)
  | v, l, d, 0, r, hn => by
    obtain ⟨c, t, h, -⟩ := pretty_head (d + 1) v
    rw [h] at hn
    simp at hn
  | v, [], d, n + 1, r, hn => by
    have hlen : 1 ≤ (prettyElements d []).length := by rw [prettyElements]; simp
    rw [readElements, readValue_pretty v (d + 1) n _ (by omega) (follows_prettyElements d [] r), prettyElements,
      List.append_assoc]
    have hbr : ∀ t, skipWs (']' :: t) = ']' :: t := fun t => skipWs_cons t (by decide)
    simp only [Option.bind_eq_bind, Option.bind_some, skipWs_newline, List.singleton_append, hbr]
  | v, w :: l, d, n + 1, r, hn => by
    have hlen : (pretty (d + 1) w).length + (prettyElements d l).length + 1 ≤ (prettyElements d (w :: l)).length := by
      rw [prettyElements]
      simp only [List.length_cons, List.length_append]
      omega
    obtain ⟨c, t, hp, -⟩ := pretty_head (d + 1) v
    have hpos : 1 ≤ (pretty (d + 1) v).length := by rw [hp]; simp
    rw [readElements, readValue_pretty v (d + 1) n _ (by omega) (follows_prettyElements d (w :: l) r), prettyElements,
      List.cons_append, List.append_assoc, List.append_assoc]
    have ih := readElements_pretty w l d n r (by omega)
    have hs : ∀ t, skipWs (',' :: t) = ',' :: t := fun t => skipWs_cons t (by decide)
    simp only [Option.bind_eq_bind, Option.bind_some, hs, skipWs_newline, skipWs_pretty, ih]

theorem readMembers_pretty : ∀ (k : String) (v : Json) (m : List (String × Json)) (d n : Nat) (r : List Char),
    (quote k.toList).length + (pretty (d + 1) v).length + (prettyMembers d m).length ≤ n →
    readMembers n (prettyMember d k v (prettyMembers d m ++ r)) = some ((k, v) :: m, r)
  | k, v, m, d, 0, r, hn => by simp [quote] at hn
  | k, v, m, d, n + 1, r, hn => by
    have hq : 2 ≤ (quote k.toList).length := by rw [quote]; simp
    have hv := readValue_pretty v (d + 1) n (prettyMembers d m ++ r) (by omega) (follows_prettyMembers d m r)
    have hcol : ∀ t, skipWs (':' :: t) = ':' :: t := fun t => skipWs_cons t (by decide)
    have hstart : prettyMember d k v (prettyMembers d m ++ r) =
        '"' :: (k.toList.flatMap escape ++ '"' :: (':' :: ' ' :: (pretty (d + 1) v ++ (prettyMembers d m ++ r)))) := by
      simp [prettyMember, quote]
    rw [hstart, readMembers]
    cases m with
    | nil =>
      have hbr : ∀ t, skipWs ('}' :: t) = '}' :: t := fun t => skipWs_cons t (by decide)
      rw [prettyMembers, List.append_assoc, List.singleton_append] at hv ⊢
      simp only [readString_quote, hcol, skipWs_space, skipWs_pretty, hv, skipWs_newline, hbr, Option.bind_eq_bind,
        Option.bind_some]
    | cons p m =>
      obtain ⟨k', v'⟩ := p
      have hlen : (quote k'.toList).length + (pretty (d + 1) v').length + (prettyMembers d m).length + 1 ≤
          (prettyMembers d ((k', v') :: m)).length := by
        rw [prettyMembers]
        simp only [List.length_cons, List.length_append]
        omega
      have ih := readMembers_pretty k' v' m d n r (by omega)
      have hshape : prettyMembers d ((k', v') :: m) ++ r =
          ',' :: (newline (d + 1) ++ prettyMember d k' v' (prettyMembers d m ++ r)) := by
        simp [prettyMembers, prettyMember]
      have hcomma : ∀ t, skipWs (',' :: t) = ',' :: t := fun t => skipWs_cons t (by decide)
      rw [hshape] at hv ⊢
      simp only [readString_quote, hcol, skipWs_space, skipWs_pretty, hv, hcomma, skipWs_newline, skipWs_prettyMember, ih,
        Option.bind_eq_bind, Option.bind_some]

end

/-- What is written is read back. -/
theorem parse_pretty (n : Nat) (v : Json) : parse (pretty n v) = some v := by
  have h := readValue_pretty v n ((pretty n v).length + 1) [] (by omega) (fun c hc => by cases hc)
  have hs := skipWs_pretty n v []
  rw [List.append_nil] at h hs
  simp only [parse, hs, h, Option.bind_eq_bind, Option.bind_some]
  rfl

/-! ## A written object, cut -/

theorem moves_newline (n : Nat) : Moves 0 (newline n) := moves_plain fun c hc => plain_of_isWs (newline_isWs n c hc)

theorem moves_sep : Moves 0 [','] ∧ Moves 0 [':', ' '] :=
  ⟨moves_plain (plain_of_all (by decide)), moves_plain (plain_of_all (by decide))⟩

theorem moves_open : Moves 1 ['{'] ∧ Moves 1 ['['] := ⟨moves_char fun _ => rfl, moves_char fun _ => rfl⟩

theorem moves_close : Moves (-1) ['}'] ∧ Moves (-1) [']'] := ⟨moves_char fun _ => rfl, moves_char fun _ => rfl⟩

mutual

theorem moves_pretty : ∀ (n : Nat) (v : Json), Moves 0 (pretty n v)
  | n, null => by rw [pretty]; exact moves_plain (plain_of_all (by decide))
  | n, bool true => by rw [pretty]; exact moves_plain (plain_of_all (by decide))
  | n, bool false => by rw [pretty]; exact moves_plain (plain_of_all (by decide))
  | n, num d => by rw [pretty]; exact moves_plain (plain_toText d)
  | n, str s => by rw [pretty]; exact moves_quote _
  | n, arr [] => by rw [pretty]; exact moves_open.2.append moves_close.2 (by decide)
  | n, arr (v :: l) => by
    rw [pretty]
    exact moves_open.2.append ((moves_newline _).append
      ((moves_pretty (n + 1) v).append (moves_prettyElements n l) (by decide)) (by decide)) (by decide)
  | n, obj [] => by rw [pretty]; exact moves_open.1.append moves_close.1 (by decide)
  | n, obj ((k, v) :: m) => by
    rw [pretty]
    exact moves_open.1.append ((moves_newline _).append ((moves_quote _).append (moves_sep.2.append
      ((moves_pretty (n + 1) v).append (moves_prettyMembers n m) (by decide)) (by decide)) (by decide)) (by decide)) (by decide)

theorem moves_prettyElements : ∀ (n : Nat) (l : List Json), Moves (-1) (prettyElements n l)
  | n, [] => by
    rw [prettyElements]
    exact (moves_newline n).append moves_close.2 (by decide)
  | n, v :: l => by
    rw [prettyElements]
    exact moves_sep.1.append ((moves_newline _).append
      ((moves_pretty (n + 1) v).append (moves_prettyElements n l) (by decide)) (by decide)) (by decide)

theorem moves_prettyMembers : ∀ (n : Nat) (m : List (String × Json)), Moves (-1) (prettyMembers n m)
  | n, [] => by
    rw [prettyMembers]
    exact (moves_newline n).append moves_close.1 (by decide)
  | n, (k, v) :: m => by
    rw [prettyMembers]
    exact moves_sep.1.append ((moves_newline _).append ((moves_quote _).append (moves_sep.2.append
      ((moves_pretty (n + 1) v).append (moves_prettyMembers n m) (by decide)) (by decide)) (by decide)) (by decide)) (by decide)

end

/-- What follows the opening brace of a written object. -/
theorem moves_prettyObject (n : Nat) (m : List (String × Json)) : ∃ t, pretty n (obj m) = '{' :: t ∧ Moves (-1) t := by
  cases m with
  | nil => exact ⟨['}'], by rw [pretty], moves_close.1⟩
  | cons p m =>
    obtain ⟨k, v⟩ := p
    refine ⟨_, by rw [pretty], ?_⟩
    exact (moves_newline _).append ((moves_quote _).append (moves_sep.2.append
      ((moves_pretty (n + 1) v).append (moves_prettyMembers n m) (by decide)) (by decide)) (by decide)) (by decide)

/-- A written object that is cut short is not a JSON text. -/
theorem parse_pretty_torn {n : Nat} {m : List (String × Json)} {p q : List Char} (h : pretty n (obj m) = p ++ q)
    (hq : q ≠ []) : parse p = none := by
  obtain ⟨t, ht, hm⟩ := moves_prettyObject n m
  exact parse_cut (ht.symm.trans h) hm hq

end Json
