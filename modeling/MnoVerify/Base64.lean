import Mathlib.Data.List.Basic

/-!
# Base64

Bytes as base64 text with padding, and the lenient reader: it takes the URL alphabet as well, ends at the first `=` and
skips every other character. `decode_encode`: what was written is read back.
-/

namespace Base64

/-- The character of six bits. -/
def digit (v : Nat) : Char :=
  if v < 26 then Char.ofNat (65 + v)
  else if v < 52 then Char.ofNat (71 + v)
  else if v < 62 then Char.ofNat (v - 4)
  else if v = 62 then '+'
  else '/'

/-- The six bits of a character, in either alphabet. -/
def value (c : Char) : Option Nat :=
  if 65 ≤ c.toNat ∧ c.toNat ≤ 90 then some (c.toNat - 65)
  else if 97 ≤ c.toNat ∧ c.toNat ≤ 122 then some (c.toNat - 71)
  else if 48 ≤ c.toNat ∧ c.toNat ≤ 57 then some (c.toNat + 4)
  else if c = '+' ∨ c = '-' then some 62
  else if c = '/' ∨ c = '_' then some 63
  else none

def encode : List UInt8 → List Char
  | [] => []
  | [a] => [digit (a.toNat / 4), digit (a.toNat % 4 * 16), '=', '=']
  | [a, b] => [digit (a.toNat / 4), digit (a.toNat % 4 * 16 + b.toNat / 16), digit (b.toNat % 16 * 4), '=']
  | a :: b :: c :: bytes =>
    digit (a.toNat / 4) :: digit (a.toNat % 4 * 16 + b.toNat / 16) :: digit (b.toNat % 16 * 4 + c.toNat / 64) ::
      digit (c.toNat % 64) :: encode bytes

/-- Four digits are three bytes; the bits of the last digits that fill no byte are dropped. -/
def ofValues : List Nat → List UInt8
  | v :: w :: x :: y :: values =>
    UInt8.ofNat (v * 4 + w / 16) :: UInt8.ofNat (w % 16 * 16 + x / 4) :: UInt8.ofNat (x % 4 * 64 + y) :: ofValues values
  | [v, w, x] => [UInt8.ofNat (v * 4 + w / 16), UInt8.ofNat (w % 16 * 16 + x / 4)]
  | [v, w] => [UInt8.ofNat (v * 4 + w / 16)]
  | _ => []

/-- The digits before the padding. -/
def digits (s : List Char) : List Nat := (s.takeWhile fun c => decide (c ≠ '=')).filterMap value

def decode (s : List Char) : List UInt8 := ofValues (digits s)

theorem value_digit : ∀ v < 64, value (digit v) = some v := by decide

theorem digit_ne_pad : ∀ v < 64, digit v ≠ '=' := by decide

theorem byte_lt (a : UInt8) : a.toNat < 256 := a.toNat_lt

theorem ofNat_eq {n : Nat} {a : UInt8} (h : n = a.toNat) : UInt8.ofNat n = a := by
  rw [h]
  exact UInt8.ofNat_toNat

@[simp] theorem digits_nil : digits [] = [] := rfl

@[simp] theorem digits_pad (s : List Char) : digits ('=' :: s) = [] := by
  rw [digits, List.takeWhile_cons_of_neg (by decide), List.filterMap_nil]

theorem digits_digit {v : Nat} (h : v < 64) (s : List Char) : digits (digit v :: s) = v :: digits s := by
  have hne : decide (digit v ≠ '=') = true := decide_eq_true (digit_ne_pad v h)
  rw [digits, List.takeWhile_cons, if_pos hne, List.filterMap_cons_some (value_digit v h), digits]

/-- What was written is read back. -/
theorem decode_encode : ∀ bytes : List UInt8, decode (encode bytes) = bytes
  | [] => rfl
  | [a] => by
    have ha := byte_lt a
    rw [decode, encode, digits_digit (by omega), digits_digit (by omega), digits_pad, ofValues,
      ofNat_eq (a := a) (by omega)]
  | [a, b] => by
    have ha := byte_lt a
    have hb := byte_lt b
    rw [decode, encode, digits_digit (by omega), digits_digit (by omega), digits_digit (by omega), digits_pad, ofValues,
      ofNat_eq (a := a) (by omega), ofNat_eq (a := b) (by omega)]
  | a :: b :: c :: bytes => by
    have ha := byte_lt a
    have hb := byte_lt b
    have hc := byte_lt c
    have ih := decode_encode bytes
    rw [decode] at ih
    rw [decode, encode, digits_digit (by omega), digits_digit (by omega), digits_digit (by omega), digits_digit (by omega),
      ofValues, ofNat_eq (a := a) (by omega), ofNat_eq (a := b) (by omega), ofNat_eq (a := c) (by omega), ih]

theorem encode_inj {a b : List UInt8} (h : encode a = encode b) : a = b := by
  rw [← decode_encode a, h, decode_encode]

/-- White space at the ends is skipped in any case. -/
example : decode " YW-_ ".toList = decode "YW+/".toList := by decide

end Base64
