import MnoVerify.Utf8
import MnoVerify.Json
import Mathlib.Data.List.Lex
import Mathlib.Data.List.Sort

/-!
# Byte strings

Fixed-width integers, hexadecimal text and the order of `memcmp`.
-/

namespace Bytes

open Utf8 (byte toNat_byte)

/-! ## Fixed-width integers -/

/-- The number that little-endian bytes stand for. -/
def ofLE : List UInt8 → Nat
  | [] => 0
  | b :: bs => b.toNat + 256 * ofLE bs

/-- The low `k` bytes of a number, little-endian. -/
def toLE : Nat → Nat → List UInt8
  | 0, _ => []
  | k + 1, n => byte (n % 256) :: toLE k (n / 256)

/-- Two bytes, big-endian. -/
def u16BE (n : Nat) : List UInt8 := (toLE 2 n).reverse

@[simp] theorem length_toLE (k : Nat) : ∀ n, (toLE k n).length = k := by
  induction k with
  | zero => intro n; rfl
  | succ k ih => intro n; simp [toLE, ih]

@[simp] theorem length_u16BE (n : Nat) : (u16BE n).length = 2 := by simp [u16BE]

theorem toLE_ofLE (bs : List UInt8) : toLE bs.length (ofLE bs) = bs := by
  induction bs with
  | nil => rfl
  | cons b bs ih =>
    have hb : b.toNat < 256 := b.toNat_lt
    have h1 : (b.toNat + 256 * ofLE bs) % 256 = b.toNat := by omega
    have h2 : (b.toNat + 256 * ofLE bs) / 256 = ofLE bs := by omega
    rw [List.length_cons, ofLE, toLE, h1, h2, ih]
    simp [byte]

theorem ofLE_toLE (k : Nat) : ∀ {n}, n < 256 ^ k → ofLE (toLE k n) = n := by
  induction k with
  | zero => intro n h; simp at h; simp [toLE, ofLE, h]
  | succ k ih =>
    intro n h
    have hd : n / 256 < 256 ^ k := by
      rw [Nat.div_lt_iff_lt_mul (by decide), ← Nat.pow_succ]; exact h
    rw [toLE, ofLE, ih hd, toNat_byte (Nat.mod_lt _ (by decide))]
    omega

theorem ofLE_lt (bs : List UInt8) : ofLE bs < 256 ^ bs.length := by
  induction bs with
  | nil => simp [ofLE]
  | cons b bs ih =>
    have hb : b.toNat < 256 := b.toNat_lt
    rw [ofLE, List.length_cons, Nat.pow_succ]
    omega

theorem toLE_inj {k m n : Nat} (hm : m < 256 ^ k) (hn : n < 256 ^ k) (h : toLE k m = toLE k n) : m = n := by
  rw [← ofLE_toLE k hm, h, ofLE_toLE k hn]

theorem ofLE_toLE_mod (k : Nat) : ∀ n, ofLE (toLE k n) = n % 256 ^ k := by
  induction k with
  | zero => intro n; rw [toLE, ofLE, Nat.pow_zero, Nat.mod_one]
  | succ k ih =>
    intro n
    rw [toLE, ofLE, ih, toNat_byte (Nat.mod_lt _ (by decide)), Nat.pow_succ', Nat.mod_mul]

theorem take_toLE (j k : Nat) : ∀ n, (toLE (j + k) n).take j = toLE j n := by
  induction j with
  | zero => intro n; rfl
  | succ j ih => intro n; rw [show j + 1 + k = j + k + 1 by omega, toLE, List.take_succ_cons, ih, toLE]

theorem drop_toLE (j k : Nat) : ∀ n, (toLE (j + k) n).drop j = toLE k (n / 256 ^ j) := by
  induction j with
  | zero => intro n; rw [Nat.zero_add, Nat.pow_zero, Nat.div_one, List.drop_zero]
  | succ j ih =>
    intro n
    rw [show j + 1 + k = j + k + 1 by omega, toLE, List.drop_succ_cons, ih, Nat.div_div_eq_div_mul, ← Nat.pow_succ']

theorem toLE_eq_range (k : Nat) : ∀ n, toLE k n = (List.range k).map fun i => byte (n / 256 ^ i % 256) := by
  induction k with
  | zero => intro n; rfl
  | succ k ih =>
    intro n
    have hdiv : ∀ i, n / 256 / 256 ^ i = n / 256 ^ (i + 1) := by
      intro i
      rw [Nat.div_div_eq_div_mul, ← Nat.pow_succ']
    rw [toLE, ih, List.range_succ_eq_map, List.map_cons, List.map_map, Nat.pow_zero, Nat.div_one]
    simp only [hdiv]
    rfl

/-! ## Hexadecimal text -/

/-- `Buffer.from(s, "hex")`: it stops at the first pair that is not two digits. -/
def fromHex : List Char → List UInt8
  | a :: b :: s =>
    match Json.hexVal a, Json.hexVal b with
    | some x, some y => byte (16 * x + y) :: fromHex s
    | _, _ => []
  | _ => []

def isHexDigit (c : Char) : Bool := (Json.hexVal c).isSome

/-- `/^[0-9a-fA-F]{2n}$/` -/
def isHex (n : Nat) (s : List Char) : Bool := decide (s.length = 2 * n) && s.all isHexDigit

/-- `toString("hex")` -/
def toHex : List UInt8 → List Char
  | [] => []
  | b :: bytes => Nat.digitChar (b.toNat / 16) :: Nat.digitChar (b.toNat % 16) :: toHex bytes

theorem length_fromHex : ∀ {n : Nat} {s : List Char}, isHex n s = true → (fromHex s).length = n
  | 0, [], _ => rfl
  | n + 1, a :: b :: s, h => by
    simp only [isHex, List.length_cons, List.all_cons, Bool.and_eq_true, decide_eq_true_eq, isHexDigit] at h
    obtain ⟨hl, ha, hb, hs⟩ := h
    obtain ⟨x, hx⟩ := Option.isSome_iff_exists.1 ha
    obtain ⟨y, hy⟩ := Option.isSome_iff_exists.1 hb
    have ih : (fromHex s).length = n := length_fromHex (by simp [isHex, hs]; omega)
    simp [fromHex, hx, hy, ih]
  | 0, _ :: _, h => by simp [isHex] at h
  | n + 1, [], h => by simp [isHex] at h
  | n + 1, [_], h => by simp [isHex] at h; omega

theorem hexVal_digitChar : ∀ n < 16, Json.hexVal (Nat.digitChar n) = some n := by decide

theorem fromHex_toHex (bytes : List UInt8) : fromHex (toHex bytes) = bytes := by
  induction bytes with
  | nil => rfl
  | cons b bytes ih =>
    have hb : b.toNat < 256 := b.toNat_lt
    have h1 := hexVal_digitChar (b.toNat / 16) (by omega)
    have h2 := hexVal_digitChar (b.toNat % 16) (by omega)
    simp only [toHex, fromHex, h1, h2, ih, Nat.div_add_mod]
    simp [byte]

theorem toHex_inj {a b : List UInt8} (h : toHex a = toHex b) : a = b := by
  rw [← fromHex_toHex a, h, fromHex_toHex]

theorem digitChar_lower : ∀ n < 16, isHexDigit (Nat.digitChar n) = true ∧ (Nat.digitChar n).toLower = Nat.digitChar n := by decide

theorem isHex_toHex (bytes : List UInt8) :
    isHex bytes.length (toHex bytes) = true ∧ (toHex bytes).map Char.toLower = toHex bytes := by
  induction bytes with
  | nil => exact ⟨rfl, rfl⟩
  | cons b bytes ih =>
    have hb : b.toNat < 256 := b.toNat_lt
    obtain ⟨h1, h2⟩ := digitChar_lower (b.toNat / 16) (by omega)
    obtain ⟨h3, h4⟩ := digitChar_lower (b.toNat % 16) (by omega)
    simp only [isHex, Bool.and_eq_true, decide_eq_true_eq] at ih
    obtain ⟨⟨hl, hd⟩, hm⟩ := ih
    constructor
    · simp only [isHex, toHex, List.length_cons, List.all_cons, h1, h3, hd, hl, Bool.and_true, decide_eq_true_eq]
      omega
    · simp only [toHex, List.map_cons, h2, h4, hm]

/-- The text of some bytes. -/
def hexText (bytes : List UInt8) : String := String.ofList (toHex bytes)

@[simp] theorem toList_hexText (bytes : List UInt8) : (hexText bytes).toList = toHex bytes := String.toList_ofList

theorem fromHex_hexText (bytes : List UInt8) : fromHex (hexText bytes).toList = bytes := by
  rw [toList_hexText, fromHex_toHex]

theorem eq_ofNat_add {c : Char} {k n : Nat} (hn : c.toNat = n + k) : c = Char.ofNat (n + k) := by
  rw [← hn, Char.ofNat_toNat]

/-- A hexadecimal digit, its value, and the lower case of the digit. -/
theorem hexVal_toLower {c : Char} (h : isHexDigit c = true) :
    ∃ x < 16, Json.hexVal c.toLower = some x ∧ Nat.digitChar x = c.toLower := by
  have hle : ∀ {c d : Char}, c ≤ d → c.toNat ≤ d.toNat := fun h => h
  have hdigit : ∀ n < 10, ∃ x < 16, Json.hexVal (Char.ofNat (n + 48)).toLower = some x ∧
      Nat.digitChar x = (Char.ofNat (n + 48)).toLower := by decide
  have hlower : ∀ n < 6, ∃ x < 16, Json.hexVal (Char.ofNat (n + 97)).toLower = some x ∧
      Nat.digitChar x = (Char.ofNat (n + 97)).toLower := by decide
  have hupper : ∀ n < 6, ∃ x < 16, Json.hexVal (Char.ofNat (n + 65)).toLower = some x ∧
      Nat.digitChar x = (Char.ofNat (n + 65)).toLower := by decide
  unfold isHexDigit Json.hexVal at h
  split at h
  · next hc =>
    have h1 : 48 ≤ c.toNat := hle hc.1
    have h2 : c.toNat ≤ 57 := hle hc.2
    rw [eq_ofNat_add (show c.toNat = c.toNat - 48 + 48 by omega)]
    exact hdigit _ (by omega)
  split at h
  · next hc =>
    have h1 : 97 ≤ c.toNat := hle hc.1
    have h2 : c.toNat ≤ 102 := hle hc.2
    rw [eq_ofNat_add (show c.toNat = c.toNat - 97 + 97 by omega)]
    exact hlower _ (by omega)
  split at h
  · next hc =>
    have h1 : 65 ≤ c.toNat := hle hc.1
    have h2 : c.toNat ≤ 70 := hle hc.2
    rw [eq_ofNat_add (show c.toNat = c.toNat - 65 + 65 by omega)]
    exact hupper _ (by omega)
  · cases h

/-- Hexadecimal text in lower case is the text of its bytes. -/
theorem toHex_fromHex : ∀ {n : Nat} {s : List Char}, isHex n s = true →
    toHex (fromHex (s.map Char.toLower)) = s.map Char.toLower ∧ (fromHex (s.map Char.toLower)).length = n
  | 0, [], _ => ⟨rfl, rfl⟩
  | n + 1, a :: b :: s, h => by
    simp only [isHex, List.length_cons, List.all_cons, Bool.and_eq_true, decide_eq_true_eq] at h
    obtain ⟨hl, ha, hb, hs⟩ := h
    obtain ⟨x, hx, hx1, hx2⟩ := hexVal_toLower ha
    obtain ⟨y, hy, hy1, hy2⟩ := hexVal_toLower hb
    obtain ⟨ih1, ih2⟩ := toHex_fromHex (n := n) (s := s) (by simp [isHex, hs]; omega)
    have hbyte : (byte (16 * x + y)).toNat = 16 * x + y := toNat_byte (by omega)
    simp only [List.map_cons, fromHex, hx1, hy1, toHex, hbyte, List.length_cons, ih1, ih2]
    rw [show (16 * x + y) / 16 = x by omega, show (16 * x + y) % 16 = y by omega, hx2, hy2]
    exact ⟨rfl, trivial⟩
  | 0, _ :: _, h => by simp [isHex] at h
  | n + 1, [], h => by simp [isHex] at h
  | n + 1, [_], h => by simp [isHex] at h; omega

/-! ## Order -/

/-- `memcmp` does not put `b` before `a`. -/
def Le (a b : List UInt8) : Prop := a.map UInt8.toNat ≤ b.map UInt8.toNat

instance : DecidableRel Le := fun a b => inferInstanceAs (Decidable (a.map UInt8.toNat ≤ b.map UInt8.toNat))

instance : IsTrans (List UInt8) Le := ⟨fun _ _ _ h h' => le_trans (α := List Nat) h h'⟩

instance : Std.Total Le := ⟨fun a b => le_total (a.map UInt8.toNat) (b.map UInt8.toNat)⟩

theorem map_toNat_inj {a b : List UInt8} (h : a.map UInt8.toNat = b.map UInt8.toNat) : a = b :=
  List.map_injective_iff.2 (fun _ _ => UInt8.toNat_inj.1) h

instance : Std.Antisymm Le := ⟨fun _ _ h h' => map_toNat_inj (le_antisymm h h')⟩

end Bytes
