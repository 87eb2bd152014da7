import MnoVerify.Json
import Mathlib.Algebra.Order.Field.Rat
import Mathlib.Data.List.Forall2
import Mathlib.Tactic.NormNum.Basic
import Mathlib.Tactic.Ring

/-!
# Coercions

`Number(v)` and `String(v)` on JSON values, `String.prototype.trim`, and numbers
that may be NaN or infinite.
-/

namespace Js

/-- A sequence that does not throw. -/
theorem bind_eq_ok {ε α β : Type} {x : Except ε α} {k : α → Except ε β} {b : β} :
    (x >>= k) = .ok b ↔ ∃ a, x = .ok a ∧ k a = .ok b := by
  cases x <;> simp [bind, Except.bind]

/-- The same where a state is passed along. -/
theorem run_bind_eq_ok {ε σ α β : Type} {x : StateT σ (Except ε) α} {k : α → StateT σ (Except ε) β} {s : σ} {r : β × σ} :
    (x >>= k).run s = .ok r ↔ ∃ a s', x.run s = .ok (a, s') ∧ (k a).run s' = .ok r := by
  simp [StateT.run_bind, bind_eq_ok]

/-- A loop that throws at no element. -/
theorem mapM_eq_ok {ε α β : Type} {f : α → Except ε β} {l : List α} {bs : List β} :
    l.mapM f = .ok bs ↔ List.Forall₂ (fun a b => f a = .ok b) l bs := by
  induction l generalizing bs with
  | nil => rw [List.mapM_nil, List.forall₂_nil_left_iff]; exact ⟨fun h => by cases h; rfl, fun h => by rw [h]; rfl⟩
  | cons a l ih =>
    simp only [List.mapM_cons, bind_eq_ok, ih]
    constructor
    · rintro ⟨b, hb, bs', hbs, h⟩
      cases h
      exact List.Forall₂.cons hb hbs
    · intro h
      cases h with
      | cons hb hbs => exact ⟨_, hb, _, hbs, rfl⟩

theorem exists_of_mem_left {α β : Type} {R : α → β → Prop} {l : List α} {bs : List β} (h : List.Forall₂ R l bs) {a : α}
    (ha : a ∈ l) : ∃ b ∈ bs, R a b := by
  induction h with
  | nil => cases ha
  | cons hr _ ih =>
    rcases List.mem_cons.1 ha with rfl | ha
    · exact ⟨_, List.mem_cons_self .., hr⟩
    · obtain ⟨b, hb, h⟩ := ih ha
      exact ⟨b, List.mem_cons_of_mem _ hb, h⟩

theorem exists_of_mem_right {α β : Type} {R : α → β → Prop} {l : List α} {bs : List β} (h : List.Forall₂ R l bs) {b : β}
    (hb : b ∈ bs) : ∃ a ∈ l, R a b :=
  exists_of_mem_left (R := flip R) h.flip hb

/-- A JavaScript number, without a signed zero. -/
inductive Num
  | nan
  | infinite (neg : Bool)
  | dec (d : Dec)
deriving DecidableEq

namespace Num

/-- `===`, under which NaN is not equal to itself. -/
def strictEq : Num → Num → Bool
  | nan, _ => false
  | x, y => decide (x = y)

def isInteger : Num → Bool
  | dec d => d.isInteger
  | _ => false

def isFinite : Num → Bool
  | dec _ => true
  | _ => false

def toText : Num → List Char
  | nan => "NaN".toList
  | infinite false => "Infinity".toList
  | infinite true => "-Infinity".toList
  | dec d => d.toText

/-- `JSON.stringify` writes a number that is not finite as `null`. -/
def toJson : Num → Json
  | dec d => .num d
  | _ => .null

end Num

/-- The rational that a decimal denotes. -/
def Dec.toRat (d : Dec) : ℚ := (if d.neg then -1 else 1) * d.mant * 10 ^ d.exp

theorem Dec.toRat_of_isInteger {d : Dec} (h : d.isInteger = true) : d.toRat = d.toInt := by
  have he : 0 ≤ d.exp := by simpa [Dec.isInteger] using h
  obtain ⟨n, hn⟩ := Int.eq_ofNat_of_zero_le he
  simp only [Dec.toRat, Dec.toInt, hn, zpow_natCast, Int.toNat_natCast]
  split <;> push_cast <;> ring

/-- White space and line terminators, as `trim` and `Number` see them. -/
def isSpace (c : Char) : Bool :=
  [0x9, 0xA, 0xB, 0xC, 0xD, 0x20, 0xA0, 0x1680, 0x2000, 0x2001, 0x2002, 0x2003, 0x2004, 0x2005, 0x2006, 0x2007, 0x2008,
    0x2009, 0x200A, 0x2028, 0x2029, 0x202F, 0x205F, 0x3000, 0xFEFF].contains c.toNat

def trim (s : List Char) : List Char := ((s.dropWhile isSpace).reverse.dropWhile isSpace).reverse

/-- The value of digits in base `b`, if there are digits and all of them are. -/
def readRadix (b : Nat) (ds : List Char) : Num :=
  match ds.mapM Json.hexVal with
  | some vs =>
    if !vs.isEmpty && vs.all (fun v => decide (v < b)) then .dec (.ofNat (vs.foldl (fun n v => b * n + v) 0)) else .nan
  | none => .nan

/-- A decimal literal of `Number`: digits may be missing on one side of the point. -/
def readLiteral (neg : Bool) (s : List Char) : Num :=
  if s = "Infinity".toList then .infinite neg
  else
    let (int, r) := s.span Char.isDigit
    let (frac, r) := match r with
      | '.' :: r => r.span Char.isDigit
      | r => ([], r)
    if int.isEmpty && frac.isEmpty then .nan
    else match Dec.readExp r with
      | some (e, []) => .dec (.make neg (Nat.ofDigitChars 10 (int ++ frac) 0) (e - frac.length))
      | _ => .nan

/-- `Number(s)` of a string. -/
def stringToNumber (s : List Char) : Num :=
  match trim s with
  | [] => .dec 0
  | '0' :: x :: ds =>
    if x = 'x' ∨ x = 'X' then readRadix 16 ds
    else if x = 'o' ∨ x = 'O' then readRadix 8 ds
    else if x = 'b' ∨ x = 'B' then readRadix 2 ds
    else readLiteral false ('0' :: x :: ds)
  | '-' :: s => readLiteral true s
  | '+' :: s => readLiteral false s
  | s => readLiteral false s

end Js

namespace Json

/-- An element as `Array.prototype.join` writes it, given its text. -/
def element : Json → List Char → List Char
  | null, _ => []
  | _, s => s

mutual

/-- `String(v)` -/
def toStr : Json → List Char
  | null => "null".toList
  | bool true => "true".toList
  | bool false => "false".toList
  | num d => d.toText
  | str s => s.toList
  | arr [] => []
  | arr (v :: l) => element v (toStr v) ++ elementsStr l
  | obj _ => ['[', 'o', 'b', 'j', 'e', 'c', 't', ' ', 'O', 'b', 'j', 'e', 'c', 't', ']']

def elementsStr : List Json → List Char
  | [] => []
  | v :: l => ',' :: (element v (toStr v) ++ elementsStr l)

end

/-- `String(v)` of a property that may be missing. -/
def textOf : Option Json → List Char
  | none => ['u', 'n', 'd', 'e', 'f', 'i', 'n', 'e', 'd']
  | some v => v.toStr

/-- `Number(v)` of a property that may be missing. -/
def numberOf : Option Json → Js.Num
  | none => .nan
  | some .null => .dec 0
  | some (.bool b) => .dec (.ofNat b.toNat)
  | some (.num d) => .dec d
  | some (.str s) => Js.stringToNumber s.toList
  | some (.arr l) => Js.stringToNumber (Json.arr l).toStr
  | some (.obj _) => .nan

/-- `v ?? d` of a property that may be missing. -/
def orElse (d : Json) : Option Json → Json
  | none => d
  | some .null => d
  | some v => v

end Json
