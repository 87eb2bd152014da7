import MnoVerify.JsonSound

/-!
# Torn JSON texts

`parse_torn`: no proper prefix of a written object is a JSON text, because a
bracket or a quote is still open in it. The depth of brackets is counted by a
scan that steps over strings.
-/

namespace Json

/-! ## Open brackets and quotes -/

inductive Mode
  | out
  | str
  | esc
deriving DecidableEq

/-- How deep in brackets a text stands, and whether it stands inside a string. -/
structure Lex where
  depth : Int
  mode : Mode
deriving DecidableEq

def lex (σ : Lex) (c : Char) : Lex :=
  match σ.mode with
  | .out =>
    if c = '"' then ⟨σ.depth, .str⟩
    else if c = '{' ∨ c = '[' then ⟨σ.depth + 1, .out⟩
    else if c = '}' ∨ c = ']' then ⟨σ.depth - 1, .out⟩
    else ⟨σ.depth, .out⟩
  | .str => if c = '"' then ⟨σ.depth, .out⟩ else if c = '\\' then ⟨σ.depth, .esc⟩ else ⟨σ.depth, .str⟩
  | .esc => ⟨σ.depth, .str⟩

def lexAll (σ : Lex) (s : List Char) : Lex := s.foldl lex σ

@[simp] theorem lexAll_nil (σ : Lex) : lexAll σ [] = σ := rfl

@[simp] theorem lexAll_cons (σ : Lex) (c : Char) (s : List Char) : lexAll σ (c :: s) = lexAll (lex σ c) s := rfl

@[simp] theorem lexAll_append (σ : Lex) (s t : List Char) : lexAll σ (s ++ t) = lexAll (lexAll σ s) t :=
  List.foldl_append

/-- A character that changes nothing outside a string. -/
def Plain (c : Char) : Prop := c ≠ '"' ∧ c ≠ '{' ∧ c ≠ '[' ∧ c ≠ '}' ∧ c ≠ ']'

instance (c : Char) : Decidable (Plain c) := inferInstanceAs (Decidable (_ ∧ _))

theorem plain_of_all {s : List Char} (h : (s.all fun c => decide (Plain c)) = true) : ∀ c ∈ s, Plain c := by
  simpa using h

theorem plain_of_isDigit {c : Char} (h : c.isDigit = true) : Plain c := by
  refine ⟨?_, ?_, ?_, ?_, ?_⟩ <;> (rintro rfl; exact absurd h (by decide))

theorem plain_of_isWs {c : Char} (h : isWs c = true) : Plain c := by
  refine ⟨?_, ?_, ?_, ?_, ?_⟩ <;> (rintro rfl; exact absurd h (by decide))

/-- The scan of `s` from depth `d` stays at depth `b` or more, or inside a string, before its end. -/
def Above (b : Int) : Lex → List Char → Prop
  | _, [] => True
  | σ, c :: s => (b ≤ σ.depth ∨ σ.mode ≠ .out) ∧ Above b (lex σ c) s

theorem above_append (b : Int) : ∀ (s t : List Char) (σ : Lex),
    Above b σ (s ++ t) ↔ Above b σ s ∧ Above b (lexAll σ s) t
  | [], t, σ => by simp [Above]
  | c :: s, t, σ => by simp only [List.cons_append, Above, lexAll_cons, above_append b s t, and_assoc]

theorem Above.mono {b b' : Int} (hb : b' ≤ b) : ∀ {s : List Char} {σ : Lex}, Above b σ s → Above b' σ s
  | [], _, _ => trivial
  | _ :: _, _, h => ⟨h.1.imp (fun h => hb.trans h) id, h.2.mono hb⟩

theorem Above.of_append {b : Int} : ∀ {p q : List Char} {σ : Lex}, Above b σ (p ++ q) → q ≠ [] →
    b ≤ (lexAll σ p).depth ∨ (lexAll σ p).mode ≠ .out
  | [], [], _, _, hq => absurd rfl hq
  | [], _ :: _, _, h, _ => h.1
  | _ :: _, _, _, h, hq => h.2.of_append hq

/-- A text that moves the depth by `k` and does not fall below the depth it started from. -/
def Moves (k : Int) (s : List Char) : Prop :=
  ∀ d, lexAll ⟨d, .out⟩ s = ⟨d + k, .out⟩ ∧ Above d ⟨d, .out⟩ s

theorem Moves.append {k l : Int} {s t : List Char} (h : Moves k s) (h' : Moves l t) (hk : 0 ≤ k) :
    Moves (k + l) (s ++ t) := fun d => by
  obtain ⟨h1, h2⟩ := h d
  obtain ⟨h3, h4⟩ := h' (d + k)
  refine ⟨by rw [lexAll_append, h1, h3, Int.add_assoc], ?_⟩
  rw [above_append, h1]
  exact ⟨h2, h4.mono (by omega)⟩

theorem moves_plain {s : List Char} (h : ∀ c ∈ s, Plain c) : Moves 0 s := by
  induction s with
  | nil => intro d; simp [Above]
  | cons c s ih =>
    intro d
    have hc : lex ⟨d, .out⟩ c = ⟨d, .out⟩ := by
      obtain ⟨h1, h2, h3, h4, h5⟩ := h c List.mem_cons_self
      simp [lex, h1, h2, h3, h4, h5]
    obtain ⟨h1, h2⟩ := ih (fun x hx => h x (List.mem_cons_of_mem _ hx)) d
    rw [lexAll_cons, hc]
    exact ⟨h1, .inl (Int.le_refl d), by rw [hc]; exact h2⟩

theorem moves_char {c : Char} {k : Int} (h : ∀ d, lex ⟨d, .out⟩ c = ⟨d + k, .out⟩) : Moves k [c] := fun d =>
  ⟨h d, .inl (Int.le_refl d), trivial⟩

/-- `s` goes on as `r` after a part that moves the depth by `k`. -/
def Eats (k : Int) (s r : List Char) : Prop := ∃ u, s = u ++ r ∧ Moves k u

theorem Eats.trans {k l : Int} {s r t : List Char} (h : Eats k s r) (h' : Eats l r t) (hk : 0 ≤ k := by decide) :
    Eats (k + l) s t := by
  obtain ⟨u, rfl, hu⟩ := h
  obtain ⟨v, rfl, hv⟩ := h'
  exact ⟨u ++ v, by rw [List.append_assoc], hu.append hv hk⟩

theorem eats_cons {c : Char} (s : List Char) {k : Int} (h : ∀ d, lex ⟨d, .out⟩ c = ⟨d + k, .out⟩) : Eats k (c :: s) s :=
  ⟨[c], rfl, moves_char h⟩

theorem eats_plain (u s : List Char) (h : ∀ c ∈ u, Plain c) : Eats 0 (u ++ s) s := ⟨u, rfl, moves_plain h⟩

theorem eats_open (s : List Char) : Eats 1 ('{' :: s) s ∧ Eats 1 ('[' :: s) s :=
  ⟨eats_cons s fun _ => rfl, eats_cons s fun _ => rfl⟩

theorem eats_close (s : List Char) : Eats (-1) ('}' :: s) s ∧ Eats (-1) (']' :: s) s :=
  ⟨eats_cons s fun _ => rfl, eats_cons s fun _ => rfl⟩

theorem eats_sep (s : List Char) : Eats 0 (',' :: s) s ∧ Eats 0 (':' :: s) s :=
  ⟨eats_cons s fun d => by rw [Int.add_zero]; rfl, eats_cons s fun d => by rw [Int.add_zero]; rfl⟩

theorem eats_skipWs (s : List Char) : Eats 0 s (skipWs s) := by
  have h := eats_plain (s.takeWhile isWs) (skipWs s) fun c hc => plain_of_isWs (List.mem_takeWhile_imp hc)
  rwa [skipWs, List.takeWhile_append_dropWhile] at h

theorem str_ne_out : Mode.str ≠ .out := by decide

theorem esc_ne_out : Mode.esc ≠ .out := by decide

theorem readUnits_lex : ∀ (s : List Char) {us : List CodeUnit} {r : List Char}, readUnits s = some (us, r) →
    ∃ u, s = u ++ r ∧ ∀ b d, lexAll ⟨d, .str⟩ u = ⟨d, .out⟩ ∧ Above b ⟨d, .str⟩ u := by
  intro s
  induction s using readUnits.induct with
  | case1 => intro us r h; cases h
  | case2 t =>
    intro us r h
    simp only [readUnits, Option.some.injEq, Prod.mk.injEq] at h
    obtain ⟨rfl, rfl⟩ := h
    exact ⟨['"'], rfl, fun b d => ⟨rfl, .inr str_ne_out, trivial⟩⟩
  | case3 a b c d t ih =>
    intro us r h
    simp only [readUnits, Option.bind_eq_bind, Option.bind_eq_some_iff] at h
    obtain ⟨x, hx, p, hp, h⟩ := h
    cases h
    obtain ⟨u, rfl, hu⟩ := ih hp
    have hd : ∀ y : Char, ∀ x, hexVal y = some x → y ≠ '"' ∧ y ≠ '\\' := by
      rintro y x hy
      constructor <;> (rintro rfl; exact absurd hy (by decide +revert))
    simp only [hex4, Option.bind_eq_bind, Option.bind_eq_some_iff] at hx
    obtain ⟨xa, ha, xb, hb, xc, hc, xd, hdd, -⟩ := hx
    refine ⟨'\\' :: 'u' :: a :: b :: c :: d :: u, rfl, fun l e => ?_⟩
    have hstep : ∀ y : Char, y ≠ '"' ∧ y ≠ '\\' → lex ⟨e, .str⟩ y = ⟨e, .str⟩ := by
      rintro y ⟨h1, h2⟩; simp [lex, h1, h2]
    have h0 : lex (lex ⟨e, .str⟩ '\\') 'u' = ⟨e, .str⟩ := rfl
    simp only [lexAll_cons, Above, h0, hstep a (hd a _ ha), hstep b (hd b _ hb), hstep c (hd c _ hc), hstep d (hd d _ hdd)]
    obtain ⟨h1, h2⟩ := hu l e
    exact ⟨h1, .inr str_ne_out, .inr esc_ne_out, .inr str_ne_out, .inr str_ne_out, .inr str_ne_out, .inr str_ne_out, h2⟩
  | case4 c t hne ih =>
    intro us r h
    rw [readUnits] at h
    · simp only [Option.bind_eq_bind, Option.bind_eq_some_iff] at h
      obtain ⟨x, hx, p, hp, h⟩ := h
      cases h
      obtain ⟨u, rfl, hu⟩ := ih hp
      exact ⟨'\\' :: c :: u, rfl, fun b d => ⟨by rw [lexAll_cons, lexAll_cons]; exact (hu b d).1, .inr str_ne_out, .inr esc_ne_out,
        (hu b d).2⟩⟩
    · exact hne
  | case5 c t h1 h2 h3 hc =>
    intro us r h
    rw [readUnits] at h
    · rw [if_pos hc] at h; cases h
    · exact h1
    · exact h2
    · exact h3
  | case6 c t h1 h2 h3 hc ih =>
    intro us r h
    rw [readUnits] at h
    · rw [if_neg hc] at h
      simp only [Option.bind_eq_bind, Option.bind_eq_some_iff] at h
      obtain ⟨p, hp, h⟩ := h
      cases h
      obtain ⟨u, rfl, hu⟩ := ih hp
      refine ⟨c :: u, rfl, fun b d => ?_⟩
      have hq : c ≠ '"' := h1
      have hb : c ≠ '\\' := fun h => hc (.inl h)
      have : lex ⟨d, .str⟩ c = ⟨d, .str⟩ := by simp [lex, hq, hb]
      rw [lexAll_cons, Above, this]
      exact ⟨(hu b d).1, .inr str_ne_out, (hu b d).2⟩
    · exact h1
    · exact h2
    · exact h3

theorem eats_string {s r : List Char} {k : String} (h : readString s = some (k, r)) : Eats 0 ('"' :: s) r := by
  simp only [readString, Option.bind_eq_bind, Option.bind_eq_some_iff] at h
  obtain ⟨p, hp, h⟩ := h
  cases h
  obtain ⟨u, rfl, hu⟩ := readUnits_lex s hp
  exact ⟨'"' :: u, rfl, fun d => ⟨by rw [lexAll_cons, Int.add_zero]; exact (hu d d).1, .inl (Int.le_refl d), (hu d d).2⟩⟩

/-! ## What a read consumes -/

theorem eats_refl (s : List Char) : Eats 0 s s := ⟨[], rfl, moves_plain nofun⟩

theorem eats_one {c : Char} (s : List Char) (h : Plain c) : Eats 0 (c :: s) s :=
  eats_plain [c] s (by simpa using h)

theorem eats_span {s ds r : List Char} (h : s.span Char.isDigit = (ds, r)) : Eats 0 s r := by
  rw [List.span_eq_takeWhile_dropWhile, Prod.mk.injEq] at h
  obtain ⟨rfl, rfl⟩ := h
  have h := eats_plain (s.takeWhile Char.isDigit) (s.dropWhile Char.isDigit) fun c hc =>
    plain_of_isDigit (List.mem_takeWhile_imp hc)
  rwa [List.takeWhile_append_dropWhile] at h

theorem eats_readSign (s : List Char) : Eats 0 s (Js.Dec.readSign s).2 := by
  unfold Js.Dec.readSign
  split
  · exact eats_one _ (by decide)
  · exact eats_refl s

theorem eats_readInt {s ds r : List Char} (h : Js.Dec.readInt s = some (ds, r)) : Eats 0 s r := by
  unfold Js.Dec.readInt at h
  split at h
  · cases h; exact eats_one _ (by decide)
  · split at h
    rename_i hs
    split at h
    · cases h
    · cases h; exact eats_span hs

theorem eats_readFrac {s ds r : List Char} (h : Js.Dec.readFrac s = some (ds, r)) : Eats 0 s r := by
  unfold Js.Dec.readFrac at h
  split at h
  · split at h
    rename_i hs
    split at h
    · cases h
    · cases h; exact (eats_one _ (by decide)).trans (eats_span hs)
  · cases h; exact eats_refl _

theorem eats_readExp {s r : List Char} {e : Int} (h : Js.Dec.readExp s = some (e, r)) : Eats 0 s r := by
  unfold Js.Dec.readExp at h
  split at h
  · rename_i c t
    split at h
    · rename_i hc
      have h1 : Eats 0 (c :: t) t := eats_one _ (by rcases hc with rfl | rfl <;> decide)
      split at h
      rename_i neg s' hs
      have h2 : Eats 0 t s' := by
        split at hs <;> cases hs
        · exact eats_one _ (by decide)
        · exact eats_one _ (by decide)
        · exact eats_refl _
      split at h
      rename_i hs
      split at h
      · cases h
      · cases h; exact (h1.trans h2).trans (eats_span hs)
    · cases h; exact eats_refl _
  · cases h; exact eats_refl _

theorem eats_number {s r : List Char} {d : Js.Dec} (h : Js.Dec.readNumber s = some (d, r)) : Eats 0 s r := by
  simp only [Js.Dec.readNumber, Option.bind_eq_bind, Option.bind_eq_some_iff, Prod.exists] at h
  obtain ⟨int, s₁, h1, frac, s₂, h2, e, s₃, h3, h⟩ := h
  cases h
  exact (((eats_readSign s).trans (eats_readInt h1)).trans (eats_readFrac h2)).trans (eats_readExp h3)

/-- A value leaves the depth as it is; the rest of an array or an object closes its bracket. -/
theorem read_eats : ∀ n : Nat,
    (∀ {s v r}, readValue n s = some (v, r) → Eats 0 s r) ∧
    (∀ {s l r}, readElements n s = some (l, r) → Eats (-1) s r) ∧
    (∀ {s m r}, readMembers n s = some (m, r) → Eats (-1) s r) := by
  intro n
  induction n with
  | zero =>
    refine ⟨?_, ?_, ?_⟩ <;> (intro s v r h; simp [readValue, readElements, readMembers] at h)
  | succ n ih =>
    obtain ⟨ihv, ihe, ihm⟩ := ih
    refine ⟨fun {s v r} h => ?_, fun {s l r} h => ?_, fun {s m r} h => ?_⟩
    · unfold readValue at h
      split at h
      · rename_i t
        have hw := (eats_open t).1.trans (eats_skipWs t)
        split at h
        · rename_i hs; rw [hs] at hw; cases h; exact hw.trans (eats_close _).1
        · simp only [Option.bind_eq_bind, Option.bind_eq_some_iff, Prod.exists] at h
          obtain ⟨m, r', hm, h⟩ := h
          cases h; exact hw.trans (ihm hm)
      · rename_i t
        have hw := (eats_open t).2.trans (eats_skipWs t)
        split at h
        · rename_i hs; rw [hs] at hw; cases h; exact hw.trans (eats_close _).2
        · simp only [Option.bind_eq_bind, Option.bind_eq_some_iff, Prod.exists] at h
          obtain ⟨m, r', hm, h⟩ := h
          cases h; exact hw.trans (ihe hm)
      · simp only [Option.bind_eq_bind, Option.bind_eq_some_iff, Prod.exists] at h
        obtain ⟨k, r', hk, h⟩ := h
        cases h; exact eats_string hk
      · cases h; exact eats_plain ['n', 'u', 'l', 'l'] _ (plain_of_all (by decide))
      · cases h; exact eats_plain ['t', 'r', 'u', 'e'] _ (plain_of_all (by decide))
      · cases h; exact eats_plain ['f', 'a', 'l', 's', 'e'] _ (plain_of_all (by decide))
      · simp only [Option.bind_eq_bind, Option.bind_eq_some_iff, Prod.exists] at h
        obtain ⟨d, r', hd, h⟩ := h
        cases h; exact eats_number hd
    · simp only [readElements, Option.bind_eq_bind, Option.bind_eq_some_iff, Prod.exists] at h
      obtain ⟨v, t, hv, h⟩ := h
      have hw := (ihv hv).trans (eats_skipWs t)
      split at h
      · rename_i hs; rw [hs] at hw; cases h; exact hw.trans (eats_close _).2
      · rename_i hs; rw [hs] at hw
        simp only [Option.bind_eq_some_iff, Prod.exists] at h
        obtain ⟨l', r', hl, h⟩ := h
        cases h
        exact ((hw.trans (eats_sep _).1).trans (eats_skipWs _)).trans (ihe hl)
      · cases h
    · unfold readMembers at h
      split at h
      · simp only [Option.bind_eq_bind, Option.bind_eq_some_iff, Prod.exists] at h
        obtain ⟨k, t, hk, h⟩ := h
        have hw := (eats_string hk).trans (eats_skipWs t)
        split at h
        · rename_i hs; rw [hs] at hw
          simp only [Option.bind_eq_some_iff, Prod.exists] at h
          obtain ⟨v, t', hv, h⟩ := h
          have hw := (((hw.trans (eats_sep _).2).trans (eats_skipWs _)).trans (ihv hv)).trans (eats_skipWs t')
          split at h
          · rename_i hs; rw [hs] at hw; cases h; exact hw.trans (eats_close _).1
          · rename_i hs; rw [hs] at hw
            simp only [Option.bind_eq_some_iff, Prod.exists] at h
            obtain ⟨l', r', hl, h⟩ := h
            cases h
            exact ((hw.trans (eats_sep _).1).trans (eats_skipWs _)).trans (ihm hl)
          · cases h
        · cases h
      · cases h

/-- An accepted text ends outside of every bracket and string. -/
theorem lexAll_parse {s : List Char} {v : Json} (h : parse s = some v) : lexAll ⟨0, .out⟩ s = ⟨0, .out⟩ := by
  simp only [parse, Option.bind_eq_bind, Option.bind_eq_some_iff, Prod.exists] at h
  obtain ⟨w, r, hv, h⟩ := h
  split at h
  · rename_i hr
    have he := ((eats_skipWs s).trans ((read_eats _).1 hv)).trans (eats_skipWs r)
    rw [List.isEmpty_iff.1 hr] at he
    obtain ⟨u, rfl, hu⟩ := he
    rw [List.append_nil, (hu 0).1]; rfl
  · cases h

/-! ## A written object, cut -/

/-- Nothing that `escape` writes ends the string it stands in. -/
theorem escape_lex (c : Char) (d : Int) (b : Int) :
    lexAll ⟨d, .str⟩ (escape c) = ⟨d, .str⟩ ∧ Above b ⟨d, .str⟩ (escape c) := by
  unfold escape
  split
  · simp [lex, Above]
  split
  · simp [lex, Above]
  split
  · simp [lex, Above]
  split
  · simp [lex, Above]
  split
  · simp [lex, Above]
  split
  · simp [lex, Above]
  split
  · simp [lex, Above]
  rename_i hq hb _ _ _ _ _
  split
  · rename_i h32
    have hx : ∀ n < 16, hexDigit n ≠ '"' ∧ hexDigit n ≠ '\\' := by decide
    have h1 := hx (c.toNat / 16) (by omega)
    have h2 := hx (c.toNat % 16) (by omega)
    simp [lex, Above, h1, h2]
  · simp [lex, Above, hq, hb]

theorem escapes_lex (b d : Int) : ∀ s : List Char,
    lexAll ⟨d, .str⟩ (s.flatMap escape) = ⟨d, .str⟩ ∧ Above b ⟨d, .str⟩ (s.flatMap escape)
  | [] => by simp [Above]
  | c :: s => by
    obtain ⟨h1, h2⟩ := escape_lex c d b
    obtain ⟨h3, h4⟩ := escapes_lex b d s
    rw [List.flatMap_cons, lexAll_append, above_append, h1]
    exact ⟨h3, h2, h4⟩

theorem moves_quote (s : List Char) : Moves 0 (quote s) := fun d => by
  obtain ⟨h1, h2⟩ := escapes_lex d d s
  have h0 : lex ⟨d, .out⟩ '"' = ⟨d, .str⟩ := rfl
  rw [quote]
  refine ⟨?_, .inl (Int.le_refl d), ?_⟩
  · rw [lexAll_cons, h0, lexAll_append, h1, Int.add_zero]; rfl
  · rw [h0, above_append, h1]
    exact ⟨h2, .inr nofun, trivial⟩

theorem plain_toText (d : Js.Dec) : ∀ c ∈ d.toText, Plain c := by
  intro c hc
  rcases d.numberChar_toText c hc with h | h
  · exact plain_of_isDigit h
  · simp only [List.mem_cons, List.not_mem_nil, or_false] at h
    rcases h with rfl | rfl | rfl | rfl <;> decide

mutual

theorem moves_stringify : ∀ v : Json, Moves 0 (stringify v)
  | null => by rw [stringify]; exact moves_plain (plain_of_all (by decide))
  | bool true => by rw [stringify]; exact moves_plain (plain_of_all (by decide))
  | bool false => by rw [stringify]; exact moves_plain (plain_of_all (by decide))
  | num d => by rw [stringify]; exact moves_plain (plain_toText d)
  | str s => by rw [stringify]; exact moves_quote _
  | arr [] => by
    rw [stringify]
    exact (moves_char (k := 1) fun _ => rfl).append (moves_char (k := -1) (c := ']') fun _ => rfl) (by decide)
  | arr (v :: l) => by
    rw [stringify]
    exact (moves_char (k := 1) fun _ => rfl).append
      ((moves_stringify v).append (moves_stringifyElements l) (by decide)) (by decide)
  | obj [] => by
    rw [stringify]
    exact (moves_char (k := 1) fun _ => rfl).append (moves_char (k := -1) (c := '}') fun _ => rfl) (by decide)
  | obj ((k, v) :: m) => by
    rw [stringify]
    exact (moves_char (k := 1) fun _ => rfl).append
      ((moves_quote _).append ((moves_char (k := 0) fun d => by rw [Int.add_zero]; rfl).append
        ((moves_stringify v).append (moves_stringifyMembers m) (by decide)) (by decide)) (by decide)) (by decide)

theorem moves_stringifyElements : ∀ l : List Json, Moves (-1) (stringifyElements l)
  | [] => by rw [stringifyElements]; exact moves_char fun _ => rfl
  | v :: l => by
    rw [stringifyElements]
    exact (moves_char (k := 0) fun d => by rw [Int.add_zero]; rfl).append
      ((moves_stringify v).append (moves_stringifyElements l) (by decide)) (by decide)

theorem moves_stringifyMembers : ∀ m : List (String × Json), Moves (-1) (stringifyMembers m)
  | [] => by rw [stringifyMembers]; exact moves_char fun _ => rfl
  | (k, v) :: m => by
    rw [stringifyMembers]
    exact (moves_char (k := 0) fun d => by rw [Int.add_zero]; rfl).append
      ((moves_quote _).append ((moves_char (k := 0) fun d => by rw [Int.add_zero]; rfl).append
        ((moves_stringify v).append (moves_stringifyMembers m) (by decide)) (by decide)) (by decide)) (by decide)

end

/-- What follows the opening brace of a written object. -/
theorem moves_object (m : List (String × Json)) : ∃ t, stringify (obj m) = '{' :: t ∧ Moves (-1) t := by
  cases m with
  | nil => exact ⟨['}'], by rw [stringify], moves_char fun _ => rfl⟩
  | cons p m =>
    obtain ⟨k, v⟩ := p
    refine ⟨_, by rw [stringify], ?_⟩
    exact (moves_quote _).append ((moves_char (k := 0) fun d => by rw [Int.add_zero]; rfl).append
      ((moves_stringify v).append (moves_stringifyMembers m) (by decide)) (by decide)) (by decide)

/-- A text whose first brace is closed by its last character, cut short. -/
theorem parse_cut {t p q : List Char} (h : '{' :: t = p ++ q) (hm : Moves (-1) t) (hq : q ≠ []) : parse p = none := by
  cases p with
  | nil => rfl
  | cons c p =>
    rw [List.cons_append, List.cons.injEq] at h
    obtain ⟨rfl, rfl⟩ := h
    cases hp : parse ('{' :: p) with
    | none => rfl
    | some v =>
      have h1 : lexAll ⟨1, .out⟩ p = ⟨0, .out⟩ := lexAll_parse hp
      rcases (hm 1).2.of_append hq with h2 | h2
      · rw [h1] at h2; exact absurd h2 (by decide)
      · rw [h1] at h2; exact absurd rfl h2

/-- A text that closes a bracket ends in the bracket. -/
theorem Moves.last {k : Int} {t : List Char} {c : Char} (h : Moves k (t ++ [c])) (hk : k < 0) : ¬ Plain c := by
  intro hc
  obtain ⟨h1, h2⟩ := h 0
  rw [above_append] at h2
  rw [lexAll_append, lexAll_cons, lexAll_nil] at h1
  obtain ⟨hq, ho, hb, ho', hb'⟩ := hc
  generalize lexAll ⟨0, .out⟩ t = σ at h1 h2
  obtain ⟨d, mode⟩ := σ
  cases mode with
  | out =>
    -- A plain character leaves the depth, which did not fall before it.
    simp only [lex, hq, ho, hb, ho', hb', or_self, if_false] at h1
    cases h1
    rcases h2.2.1 with h3 | h3
    · dsimp only at h3
      omega
    · exact h3 rfl
  | str =>
    simp only [lex, hq, if_false] at h1
    split at h1 <;> cases h1
  | esc => cases h1

theorem readValue_brace {n : Nat} {s r : List Char} {v : Json} (h : readValue n ('{' :: s) = some (v, r)) :
    (∃ m, v = obj m) ∧ Eats (-1) s r := by
  cases n with
  | zero => simp [readValue] at h
  | succ n =>
    have hw := eats_skipWs s
    rw [readValue] at h
    split at h
    · rename_i hs
      rw [hs] at hw
      cases h
      exact ⟨⟨_, rfl⟩, hw.trans (eats_close _).1⟩
    · simp only [Option.bind_eq_bind, Option.bind_eq_some_iff, Prod.exists] at h
      obtain ⟨m, r', hm, h⟩ := h
      cases h
      exact ⟨⟨_, rfl⟩, hw.trans ((read_eats n).2.2 hm)⟩

/-- An object is read from an opening brace on. -/
theorem readValue_obj_head {n : Nat} {s r : List Char} {m : List (String × Json)} (h : readValue n s = some (obj m, r)) :
    ∃ t, s = '{' :: t := by
  cases n with
  | zero => simp [readValue] at h
  | succ n =>
    unfold readValue at h
    split at h
    · exact ⟨_, rfl⟩
    · split at h
      · cases h
      · simp [Option.bind_eq_some_iff] at h
    · simp [Option.bind_eq_some_iff] at h
    · cases h
    · cases h
    · cases h
    · simp [Option.bind_eq_some_iff] at h

theorem parse_obj_head {s : List Char} {m : List (String × Json)} (h : parse s = some (obj m)) :
    ∃ t, skipWs s = '{' :: t := by
  simp only [parse, Option.bind_eq_bind, Option.bind_eq_some_iff, Prod.exists] at h
  obtain ⟨w, r, hv, h⟩ := h
  split at h
  · cases h
    exact readValue_obj_head hv
  · cases h

/-- What is read from an opening brace on is an object, and the character that closes the brace comes last. -/
theorem parse_brace {s : List Char} {v : Json} (h : parse ('{' :: s) = some v) :
    (∃ m, v = obj m) ∧ ∃ t r, s = t ++ r ∧ Moves (-1) t ∧ skipWs r = [] := by
  simp only [parse, Option.bind_eq_bind, Option.bind_eq_some_iff, Prod.exists] at h
  obtain ⟨w, r, hv, h⟩ := h
  rw [skipWs_cons s (by decide)] at hv
  split at h
  · rename_i hr
    cases h
    obtain ⟨hm, t, ht, hmv⟩ := readValue_brace hv
    exact ⟨hm, t, r, ht, hmv, List.isEmpty_iff.1 hr⟩
  · cases h

/-- A written object that is cut short is not a JSON text. -/
theorem parse_torn {m : List (String × Json)} {p q : List Char} (h : stringify (obj m) = p ++ q) (hq : q ≠ []) :
    parse p = none := by
  obtain ⟨t, ht, hm⟩ := moves_object m
  exact parse_cut (ht.symm.trans h) hm hq

end Json
