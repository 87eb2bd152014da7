import Mathlib.Data.List.Basic

/-!
# UTF-8

`encode` writes a text as bytes. `decode` is the decoder of the Encoding
Standard, which replaces each maximal ill-formed part by U+FFFD, without removal
of a byte order mark. `decode_encode`: a text is read back.
-/

namespace Utf8

/-! ## Writing -/

def byte (n : Nat) : UInt8 := UInt8.ofNat n

def encodeChar (c : Char) : List UInt8 :=
  let n := c.toNat
  if n < 0x80 then [byte n]
  else if n < 0x800 then [byte (0xC0 + n / 64), byte (0x80 + n % 64)]
  else if n < 0x10000 then [byte (0xE0 + n / 4096), byte (0x80 + n / 64 % 64), byte (0x80 + n % 64)]
  else [byte (0xF0 + n / 262144), byte (0x80 + n / 4096 % 64), byte (0x80 + n / 64 % 64), byte (0x80 + n % 64)]

/-- `Buffer.from(s, "utf8")` -/
def encode (s : List Char) : List UInt8 := s.flatMap encodeChar

/-- `Buffer.byteLength(s)` -/
def byteLength (s : List Char) : Nat := (encode s).length

@[simp] theorem encode_nil : encode [] = [] := rfl

@[simp] theorem encode_cons (c : Char) (s : List Char) : encode (c :: s) = encodeChar c ++ encode s := rfl

@[simp] theorem encode_append (s t : List Char) : encode (s ++ t) = encode s ++ encode t := List.flatMap_append

@[simp] theorem byteLength_append (s t : List Char) : byteLength (s ++ t) = byteLength s + byteLength t := by
  simp [byteLength]

/-! ## Reading -/

/-- The lowest and the highest second byte after the lead byte `n`. -/
def second (n : Nat) : Nat × Nat :=
  if n = 0xE0 then (0xA0, 0xBF) else if n = 0xED then (0x80, 0x9F)
  else if n = 0xF0 then (0x90, 0xBF) else if n = 0xF4 then (0x80, 0x8F) else (0x80, 0xBF)

def isSecond (lead b : UInt8) : Bool := decide ((second lead.toNat).1 ≤ b.toNat) && decide (b.toNat ≤ (second lead.toNat).2)

def isTail (b : UInt8) : Bool := decide (0x80 ≤ b.toNat) && decide (b.toNat ≤ 0xBF)

def decode : List UInt8 → List Char
  | [] => []
  | a :: s =>
    if a.toNat < 0x80 then Char.ofNat a.toNat :: decode s
    else if 0xC2 ≤ a.toNat ∧ a.toNat ≤ 0xDF then
      match s with
      | [] => ['\uFFFD']
      | b :: t =>
        if isSecond a b then Char.ofNat ((a.toNat - 0xC0) * 64 + (b.toNat - 0x80)) :: decode t
        else '\uFFFD' :: decode (b :: t)
    else if 0xE0 ≤ a.toNat ∧ a.toNat ≤ 0xEF then
      match s with
      | [] => ['\uFFFD']
      | [b] => if isSecond a b then ['\uFFFD'] else '\uFFFD' :: decode [b]
      | b :: c :: t =>
        if isSecond a b then
          if isTail c then
            Char.ofNat ((a.toNat - 0xE0) * 4096 + (b.toNat - 0x80) * 64 + (c.toNat - 0x80)) :: decode t
          else '\uFFFD' :: decode (c :: t)
        else '\uFFFD' :: decode (b :: c :: t)
    else if 0xF0 ≤ a.toNat ∧ a.toNat ≤ 0xF4 then
      match s with
      | [] => ['\uFFFD']
      | [b] => if isSecond a b then ['\uFFFD'] else '\uFFFD' :: decode [b]
      | [b, c] =>
        if isSecond a b then
          if isTail c then ['\uFFFD'] else '\uFFFD' :: decode [c]
        else '\uFFFD' :: decode [b, c]
      | b :: c :: d :: t =>
        if isSecond a b then
          if isTail c then
            if isTail d then
              Char.ofNat ((a.toNat - 0xF0) * 262144 + (b.toNat - 0x80) * 4096 + (c.toNat - 0x80) * 64 + (d.toNat - 0x80)) ::
                decode t
            else '\uFFFD' :: decode (d :: t)
          else '\uFFFD' :: decode (c :: d :: t)
        else '\uFFFD' :: decode (b :: c :: d :: t)
    else '\uFFFD' :: decode s

theorem toNat_byte {n : Nat} (h : n < 256) : (byte n).toNat = n := UInt8.toNat_ofNat_of_lt' h

theorem scalar (c : Char) : c.toNat < 0x110000 ∧ ¬ (0xD800 ≤ c.toNat ∧ c.toNat < 0xE000) := by
  rcases c.valid with h | h
  · have : c.toNat < 0xd800 := h
    exact ⟨by omega, by omega⟩
  · have h1 : 0xdfff < c.toNat := h.1
    exact ⟨h.2, by omega⟩

theorem decode_encodeChar (c : Char) (s : List UInt8) : decode (encodeChar c ++ s) = c :: decode s := by
  obtain ⟨hmax, hsur⟩ := scalar c
  unfold encodeChar
  dsimp only
  split
  · rename_i h
    rw [List.singleton_append, decode.eq_def]
    dsimp only
    rw [toNat_byte (by omega), if_pos h, Char.ofNat_toNat]
  split
  · rename_i h1 h2
    have ha : (byte (0xC0 + c.toNat / 64)).toNat = 0xC0 + c.toNat / 64 := toNat_byte (by omega)
    have hb : (byte (0x80 + c.toNat % 64)).toNat = 0x80 + c.toNat % 64 := toNat_byte (by omega)
    have hs : isSecond (byte (0xC0 + c.toNat / 64)) (byte (0x80 + c.toNat % 64)) = true := by
      have : second (0xC0 + c.toNat / 64) = (0x80, 0xBF) := by unfold second; split_ifs <;> first | omega | rfl
      rw [isSecond, ha, hb, this]; simp; omega
    rw [List.cons_append, List.cons_append, List.nil_append, decode, ha, if_neg (by omega), if_pos (by omega),
      if_pos hs, hb, show (0xC0 + c.toNat / 64 - 0xC0) * 64 + (0x80 + c.toNat % 64 - 0x80) = c.toNat by omega,
      Char.ofNat_toNat]
  split
  · rename_i h1 h2 h3
    have ha : (byte (0xE0 + c.toNat / 4096)).toNat = 0xE0 + c.toNat / 4096 := toNat_byte (by omega)
    have hb : (byte (0x80 + c.toNat / 64 % 64)).toNat = 0x80 + c.toNat / 64 % 64 := toNat_byte (by omega)
    have hc : (byte (0x80 + c.toNat % 64)).toNat = 0x80 + c.toNat % 64 := toNat_byte (by omega)
    have hs : isSecond (byte (0xE0 + c.toNat / 4096)) (byte (0x80 + c.toNat / 64 % 64)) = true := by
      rw [isSecond, ha, hb, Bool.and_eq_true, decide_eq_true_eq, decide_eq_true_eq]
      unfold second
      split_ifs <;> dsimp only <;> omega
    have ht : isTail (byte (0x80 + c.toNat % 64)) = true := by rw [isTail, hc]; simp; omega
    rw [List.cons_append, List.cons_append, List.cons_append, List.nil_append, decode, ha, if_neg (by omega),
      if_neg (by omega), if_pos (by omega)]
    dsimp only
    rw [if_pos hs, if_pos ht, hb, hc, show (0xE0 + c.toNat / 4096 - 0xE0) * 4096 + (0x80 + c.toNat / 64 % 64 - 0x80) * 64 +
      (0x80 + c.toNat % 64 - 0x80) = c.toNat by omega, Char.ofNat_toNat]
  · rename_i h1 h2 h3
    have ha : (byte (0xF0 + c.toNat / 262144)).toNat = 0xF0 + c.toNat / 262144 := toNat_byte (by omega)
    have hb : (byte (0x80 + c.toNat / 4096 % 64)).toNat = 0x80 + c.toNat / 4096 % 64 := toNat_byte (by omega)
    have hc : (byte (0x80 + c.toNat / 64 % 64)).toNat = 0x80 + c.toNat / 64 % 64 := toNat_byte (by omega)
    have hd : (byte (0x80 + c.toNat % 64)).toNat = 0x80 + c.toNat % 64 := toNat_byte (by omega)
    have hs : isSecond (byte (0xF0 + c.toNat / 262144)) (byte (0x80 + c.toNat / 4096 % 64)) = true := by
      rw [isSecond, ha, hb, Bool.and_eq_true, decide_eq_true_eq, decide_eq_true_eq]
      unfold second
      split_ifs <;> dsimp only <;> omega
    have ht : isTail (byte (0x80 + c.toNat / 64 % 64)) = true := by rw [isTail, hc]; simp; omega
    have hu : isTail (byte (0x80 + c.toNat % 64)) = true := by rw [isTail, hd]; simp; omega
    rw [List.cons_append, List.cons_append, List.cons_append, List.cons_append, List.nil_append, decode, ha,
      if_neg (by omega), if_neg (by omega), if_neg (by omega), if_pos (by omega)]
    dsimp only
    rw [if_pos hs, if_pos ht, if_pos hu, hb, hc, hd, show (0xF0 + c.toNat / 262144 - 0xF0) * 262144 +
      (0x80 + c.toNat / 4096 % 64 - 0x80) * 4096 + (0x80 + c.toNat / 64 % 64 - 0x80) * 64 + (0x80 + c.toNat % 64 - 0x80) =
      c.toNat by omega, Char.ofNat_toNat]

/-- A text is read back from its bytes, whatever follows them. -/
theorem decode_encode_append : ∀ (s : List Char) (t : List UInt8), decode (encode s ++ t) = s ++ decode t
  | [], _ => rfl
  | c :: s, t => by
    rw [encode_cons, List.append_assoc, decode_encodeChar, decode_encode_append s t, List.cons_append]

theorem decode_encode (s : List Char) : decode (encode s) = s := by
  have h := decode_encode_append s []
  rwa [List.append_nil, decode, List.append_nil] at h

theorem encode_inj {s t : List Char} (h : encode s = encode t) : s = t := by
  rw [← decode_encode s, ← decode_encode t, h]

/-! ## A text that is cut -/

/-- The bytes of a character that is cut are read as one replacement character. -/
theorem decode_encodeChar_cut {c : Char} {p q : List UInt8} (h : encodeChar c = p ++ q) (hp : p ≠ []) (hq : q ≠ []) :
    decode p = ['\uFFFD'] := by
  obtain ⟨hmax, hsur⟩ := scalar c
  obtain ⟨a, p, rfl⟩ := List.exists_cons_of_ne_nil hp
  unfold encodeChar at h
  dsimp only at h
  split at h
  · -- One byte cannot be cut.
    rw [List.cons_append, List.cons.injEq, List.nil_eq, List.append_eq_nil_iff] at h
    exact absurd h.2.2 hq
  split at h
  · rename_i h1 h2
    rw [List.cons_append, List.cons.injEq] at h
    obtain ⟨rfl, h⟩ := h
    have ha : (byte (0xC0 + c.toNat / 64)).toNat = 0xC0 + c.toNat / 64 := toNat_byte (by omega)
    match p, h with
    | [], _ => rw [decode, ha, if_neg (by omega), if_pos (by omega)]
    | [_], h =>
      simp only [List.cons_append, List.nil_append, List.cons.injEq] at h
      exact absurd h.2.symm hq
  split at h
  · rename_i h1 h2 h3
    rw [List.cons_append, List.cons.injEq] at h
    obtain ⟨rfl, h⟩ := h
    have ha : (byte (0xE0 + c.toNat / 4096)).toNat = 0xE0 + c.toNat / 4096 := toNat_byte (by omega)
    have hb : (byte (0x80 + c.toNat / 64 % 64)).toNat = 0x80 + c.toNat / 64 % 64 := toNat_byte (by omega)
    have hs : isSecond (byte (0xE0 + c.toNat / 4096)) (byte (0x80 + c.toNat / 64 % 64)) = true := by
      rw [isSecond, ha, hb, Bool.and_eq_true, decide_eq_true_eq, decide_eq_true_eq]
      unfold second
      split_ifs <;> dsimp only <;> omega
    match p, h with
    | [], _ => rw [decode, ha, if_neg (by omega), if_neg (by omega), if_pos (by omega)]
    | [b], h =>
      rw [List.cons_append, List.cons.injEq] at h
      obtain ⟨rfl, -⟩ := h
      rw [decode, ha, if_neg (by omega), if_neg (by omega), if_pos (by omega)]
      dsimp only
      rw [if_pos hs]
    | [_, _], h =>
      simp only [List.cons_append, List.nil_append, List.cons.injEq] at h
      exact absurd h.2.2.symm hq
  · rename_i h1 h2 h3
    rw [List.cons_append, List.cons.injEq] at h
    obtain ⟨rfl, h⟩ := h
    have ha : (byte (0xF0 + c.toNat / 262144)).toNat = 0xF0 + c.toNat / 262144 := toNat_byte (by omega)
    have hb : (byte (0x80 + c.toNat / 4096 % 64)).toNat = 0x80 + c.toNat / 4096 % 64 := toNat_byte (by omega)
    have hc : (byte (0x80 + c.toNat / 64 % 64)).toNat = 0x80 + c.toNat / 64 % 64 := toNat_byte (by omega)
    have hs : isSecond (byte (0xF0 + c.toNat / 262144)) (byte (0x80 + c.toNat / 4096 % 64)) = true := by
      rw [isSecond, ha, hb, Bool.and_eq_true, decide_eq_true_eq, decide_eq_true_eq]
      unfold second
      split_ifs <;> dsimp only <;> omega
    have ht : isTail (byte (0x80 + c.toNat / 64 % 64)) = true := by rw [isTail, hc]; simp; omega
    match p, h with
    | [], _ => rw [decode, ha, if_neg (by omega), if_neg (by omega), if_neg (by omega), if_pos (by omega)]
    | [b], h =>
      rw [List.cons_append, List.cons.injEq] at h
      obtain ⟨rfl, -⟩ := h
      rw [decode, ha, if_neg (by omega), if_neg (by omega), if_neg (by omega), if_pos (by omega)]
      dsimp only
      rw [if_pos hs]
    | [b, d], h =>
      simp only [List.cons_append, List.nil_append, List.cons.injEq] at h
      obtain ⟨rfl, rfl, -⟩ := h
      rw [decode, ha, if_neg (by omega), if_neg (by omega), if_neg (by omega), if_pos (by omega)]
      dsimp only
      rw [if_pos hs, if_pos ht]
    | [_, _, _], h =>
      simp only [List.cons_append, List.nil_append, List.cons.injEq] at h
      exact absurd h.2.2.2.symm hq

/-- A prefix of the bytes of a text: a prefix of the text, and one character that is cut, if any. -/
theorem encode_cut : ∀ {s : List Char} {p q : List UInt8}, encode s = p ++ q →
    ∃ u v, s = u ++ v ∧ (p = encode u ∨ decode p = u ++ ['\uFFFD'])
  | [], p, q, h => by
    rw [encode_nil, List.nil_eq, List.append_eq_nil_iff] at h
    exact ⟨[], [], rfl, .inl h.1⟩
  | c :: s, p, q, h => by
    rw [encode_cons, List.append_eq_append_iff] at h
    rcases h with ⟨p', rfl, h⟩ | ⟨q', hc, rfl⟩
    · obtain ⟨u, v, rfl, hu⟩ := encode_cut h
      refine ⟨c :: u, v, rfl, hu.imp (fun h => by rw [h, encode_cons]) fun h => ?_⟩
      rw [decode_encodeChar, h]
      rfl
    · by_cases hp : p = []
      · exact ⟨[], c :: s, rfl, .inl hp⟩
      by_cases hq : q' = []
      · subst hq
        rw [List.append_nil] at hc
        refine ⟨[c], s, rfl, .inl ?_⟩
        rw [← hc, encode_cons, encode_nil, List.append_nil]
      · exact ⟨[], c :: s, rfl, .inr (decode_encodeChar_cut hc hp hq)⟩

/-! ## ASCII -/

def IsAscii (s : List Char) : Prop := ∀ c ∈ s, c.toNat < 0x80

theorem encode_ascii {s : List Char} (h : IsAscii s) : encode s = s.map fun c => byte c.toNat := by
  induction s with
  | nil => rfl
  | cons c s ih =>
    rw [encode_cons, encodeChar, if_pos (h c List.mem_cons_self), ih fun x hx => h x (List.mem_cons_of_mem _ hx)]
    rfl

/-- A prefix of the bytes of an ASCII text is a prefix of the text. -/
theorem encode_prefix {s : List Char} (h : IsAscii s) {p q : List UInt8} (hp : encode s = p ++ q) :
    ∃ u v, s = u ++ v ∧ p = encode u ∧ q = encode v := by
  refine ⟨s.take p.length, s.drop p.length, (List.take_append_drop _ s).symm, ?_, ?_⟩
  · have ht : IsAscii (s.take p.length) := fun c hc => h c (List.mem_of_mem_take hc)
    rw [encode_ascii ht, List.map_take, ← encode_ascii h, hp, List.take_left' rfl]
  · have hd : IsAscii (s.drop p.length) := fun c hc => h c (List.mem_of_mem_drop hc)
    rw [encode_ascii hd, List.map_drop, ← encode_ascii h, hp, List.drop_left' rfl]

end Utf8
