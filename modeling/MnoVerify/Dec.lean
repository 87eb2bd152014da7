import Mathlib.Data.List.TakeDrop
import Mathlib.Data.List.TakeWhile
import Mathlib.Data.Nat.Digits.Defs
import Mathlib.Tactic.Ring

/-!
# Exact decimals

The finite numbers of a JSON text, read exactly: `± mant * 10 ^ exp`, in the
one form that leaves no trailing zero in the mantissa. `Dec.toText` writes a
number the way ECMAScript's `Number::toString` does, and `Dec.readNumber`
reads the JSON number grammar.
-/

namespace Js

/-- A finite decimal in normal form: no trailing zero, and one spelling of zero. -/
@[ext]
structure Dec where
  neg : Bool
  mant : Nat
  exp : Int
  norm : mant % 10 = 0 → neg = false ∧ mant = 0 ∧ exp = 0
deriving DecidableEq

namespace Dec

/-- Move the trailing zeros of `m` into the exponent. -/
def strip : Nat → Nat → Int → Nat × Int
  | 0, m, e => (m, e)
  | n + 1, m, e => if m % 10 = 0 then strip n (m / 10) (e + 1) else (m, e)

theorem strip_pos : ∀ (n m : Nat) (e : Int), 0 < m → m ≤ n → (strip n m e).1 % 10 ≠ 0
  | 0, m, e, h, h' => by omega
  | n + 1, m, e, h, h' => by
    unfold strip; split
    · exact strip_pos n (m / 10) (e + 1) (by omega) (by omega)
    · assumption

theorem strip_fuel : ∀ (n k m : Nat) (e : Int), 0 < m → m ≤ n → m ≤ k → strip n m e = strip k m e
  | 0, k, m, e, h, h', _ => by omega
  | n + 1, 0, m, e, h, _, h' => by omega
  | n + 1, k + 1, m, e, h, hn, hk => by
    unfold strip; split
    · exact strip_fuel n k (m / 10) (e + 1) (by omega) (by omega) (by omega)
    · rfl

/-- The decimal `± m * 10 ^ e`, brought to normal form. -/
def make (neg : Bool) (m : Nat) (e : Int) : Dec :=
  if h : m = 0 then ⟨false, 0, 0, by simp⟩
  else ⟨neg, (strip m m e).1, (strip m m e).2, fun h0 =>
    absurd h0 (strip_pos m m e (Nat.pos_of_ne_zero h) (Nat.le_refl m))⟩

instance : Zero Dec := ⟨make false 0 0⟩

/-- The decimal of a natural number. -/
def ofNat (n : Nat) : Dec := make false n 0

/-- The decimal of an integer. -/
def ofInt (z : Int) : Dec := make (decide (z < 0)) z.natAbs 0

/-- `Number.isInteger` on a finite number. -/
def isInteger (d : Dec) : Bool := decide (0 ≤ d.exp)

/-- The value of an integer-valued decimal. -/
def toInt (d : Dec) : Int :=
  let n : Int := d.mant * 10 ^ d.exp.toNat
  if d.neg then -n else n

theorem make_zero (neg : Bool) (e : Int) : make neg 0 e = 0 := rfl

theorem make_mul_ten (neg : Bool) (m : Nat) (e : Int) : make neg (m * 10) e = make neg m (e + 1) := by
  by_cases h : m = 0
  · subst h; rfl
  · have h10 : m * 10 ≠ 0 := by omega
    have hs : strip (m * 10) (m * 10) e = strip m m (e + 1) := by
      obtain ⟨k, hk⟩ : ∃ k, m * 10 = k + 1 := ⟨m * 10 - 1, by omega⟩
      rw [hk, strip, if_pos (by omega), ← hk, Nat.mul_div_cancel m (by omega)]
      exact strip_fuel k m m (e + 1) (by omega) (by omega) (Nat.le_refl m)
    unfold make
    rw [dif_neg h10, dif_neg h]
    simp only [hs]

theorem make_mul_pow (neg : Bool) (m k : Nat) (e : Int) : make neg (m * 10 ^ k) e = make neg m (e + k) := by
  induction k generalizing e with
  | zero => simp
  | succ k ih =>
    rw [Nat.pow_succ, ← Nat.mul_assoc, make_mul_ten, ih]
    congr 1; push_cast; ring

theorem make_norm (d : Dec) : make d.neg d.mant d.exp = d := by
  by_cases h : d.mant = 0
  · obtain ⟨hn, hm, he⟩ := d.norm (by rw [h])
    unfold make
    rw [dif_pos h]
    ext <;> simp [hn, hm, he]
  · have h10 : d.mant % 10 ≠ 0 := fun h0 => h (d.norm h0).2.1
    obtain ⟨k, hk⟩ : ∃ k, d.mant = k + 1 := ⟨d.mant - 1, by omega⟩
    have hs : strip d.mant d.mant d.exp = (d.mant, d.exp) := by
      conv_lhs => rw [hk, strip, ← hk]
      rw [if_neg h10]
    unfold make
    rw [dif_neg h]
    ext <;> simp [hs]

theorem strip_exp_le : ∀ (n m : Nat) (e : Int), e ≤ (strip n m e).2
  | 0, _, e => Int.le_refl e
  | n + 1, m, e => by
    unfold strip; split
    · have := strip_exp_le n (m / 10) (e + 1); omega
    · exact Int.le_refl e

theorem strip_val : ∀ (n m : Nat) (e : Int), 0 ≤ e →
    (strip n m e).1 * 10 ^ (strip n m e).2.toNat = m * 10 ^ e.toNat
  | 0, _, _, _ => rfl
  | n + 1, m, e, he => by
    unfold strip; split
    · rename_i h
      rw [strip_val n (m / 10) (e + 1) (by omega), show (e + 1).toNat = e.toNat + 1 by omega, Nat.pow_succ]
      conv_rhs => rw [show m = m / 10 * 10 by omega]
      ring
    · rfl

@[simp] theorem isInteger_ofInt (z : Int) : (ofInt z).isInteger = true := by
  unfold ofInt make isInteger
  split
  · rfl
  · exact decide_eq_true (strip_exp_le _ _ 0)

@[simp] theorem toInt_ofInt (z : Int) : (ofInt z).toInt = z := by
  unfold ofInt make
  split
  · rename_i h; simp only [toInt]; simp; omega
  · have hv := strip_val z.natAbs z.natAbs 0 (Int.le_refl 0)
    simp only [Int.toNat_zero, Nat.pow_zero, Nat.mul_one] at hv
    have hv' : ((strip z.natAbs z.natAbs 0).1 : Int) * 10 ^ (strip z.natAbs z.natAbs 0).2.toNat = z.natAbs := by
      exact_mod_cast hv
    simp only [toInt]
    rw [hv']
    by_cases hz : z < 0
    · simp only [hz, decide_true, if_true]; omega
    · simp only [hz, decide_false]; simp; omega

/-- An integer has one decimal. -/
theorem ofInt_toInt {d : Dec} (h : d.isInteger = true) : ofInt d.toInt = d := by
  obtain ⟨k, hk⟩ := Int.eq_ofNat_of_zero_le (show 0 ≤ d.exp by simpa [isInteger] using h)
  have hd : make d.neg (d.mant * 10 ^ k) 0 = d := by
    rw [make_mul_pow, Int.zero_add, ← hk, make_norm]
  have hz : d.toInt = if d.neg then -((d.mant * 10 ^ k : Nat) : Int) else ((d.mant * 10 ^ k : Nat) : Int) := by
    rw [toInt, hk]
    simp
  generalize d.mant * 10 ^ k = m at hd hz
  have habs : d.toInt.natAbs = m := by
    rw [hz]
    split
    · exact (Int.natAbs_neg _).trans (Int.natAbs_natCast m)
    · exact Int.natAbs_natCast m
  unfold ofInt
  rw [habs]
  by_cases h0 : m = 0
  · rw [h0] at hd ⊢
    exact hd
  · have hneg : decide (d.toInt < 0) = d.neg := by
      rw [hz]
      cases d.neg with
      | true => exact decide_eq_true (show -(m : Int) < 0 by omega)
      | false => exact decide_eq_false (show ¬ (m : Int) < 0 by omega)
    rw [hneg, hd]

theorem ofInt_natCast (n : Nat) : ofInt n = ofNat n := by
  unfold ofInt ofNat
  rw [decide_eq_false (by omega), Int.natAbs_natCast]

@[simp] theorem isInteger_ofNat (n : Nat) : (ofNat n).isInteger = true := by
  rw [← ofInt_natCast]; exact isInteger_ofInt n

@[simp] theorem toInt_ofNat (n : Nat) : (ofNat n).toInt = n := by
  rw [← ofInt_natCast]; exact toInt_ofInt n

theorem ofNat_inj {m n : Nat} (h : ofNat m = ofNat n) : m = n := by
  have := congrArg toInt h
  simpa using this

/-! ## Writing a number -/

/-- The digits of a number, its point placed the way `Number::toString` places it. -/
def body (d : Dec) : List Char :=
  let ds := Nat.toDigits 10 d.mant
  let n : Int := ds.length + d.exp
  if 0 ≤ d.exp ∧ n ≤ 21 then ds ++ List.replicate d.exp.toNat '0'
  else if 0 < n ∧ n ≤ 21 then ds.take n.toNat ++ '.' :: ds.drop n.toNat
  else if -6 < n ∧ n ≤ 0 then '0' :: '.' :: (List.replicate (-n).toNat '0' ++ ds)
  else ds.take 1 ++ (if ds.length = 1 then [] else '.' :: ds.drop 1) ++
    'e' :: (if 0 ≤ n - 1 then '+' else '-') :: Nat.toDigits 10 (n - 1).natAbs

/-- `Number::toString`, radix 10, on a finite number. -/
def toText (d : Dec) : List Char :=
  if d.neg then '-' :: d.body else d.body

/-! ## Reading a number -/

/-- The exponent part of a number, when there is one. -/
def readExp : List Char → Option (Int × List Char)
  | c :: r =>
    if c = 'e' ∨ c = 'E' then
      let (neg, r) := match r with
        | '-' :: r => (true, r)
        | '+' :: r => (false, r)
        | r => (false, r)
      let (ds, r) := r.span Char.isDigit
      if ds.isEmpty then none
      else some (if neg then -(Nat.ofDigitChars 10 ds 0 : Int) else Nat.ofDigitChars 10 ds 0, r)
    else some (0, c :: r)
  | [] => some (0, [])

/-- The digits after a decimal point, when there is one. -/
def readFrac : List Char → Option (List Char × List Char)
  | '.' :: r =>
    let (ds, r) := r.span Char.isDigit
    if ds.isEmpty then none else some (ds, r)
  | r => some ([], r)

/-- The digits before the decimal point: `0`, or digits that do not start with `0`. -/
def readInt : List Char → Option (List Char × List Char)
  | '0' :: r => some (['0'], r)
  | r =>
    let (ds, r) := r.span Char.isDigit
    if ds.isEmpty then none else some (ds, r)

/-- The sign of a number. -/
def readSign : List Char → Bool × List Char
  | '-' :: r => (true, r)
  | r => (false, r)

/-- One JSON number at the front of a text, and what follows it. -/
def readNumber (s : List Char) : Option (Dec × List Char) := do
  let (neg, s) := readSign s
  let (int, s) ← readInt s
  let (frac, s) ← readFrac s
  let (e, s) ← readExp s
  some (make neg (Nat.ofDigitChars 10 (int ++ frac) 0) (e - frac.length), s)

/-! ## Reading back what was written -/

/-- A text that does not go on with the number before it. -/
def Stops (r : List Char) : Prop :=
  ∀ c ∈ r.head?, c.isDigit = false ∧ c ≠ '.' ∧ c ≠ 'e' ∧ c ≠ 'E'

theorem span_digits {ds r : List Char} (hd : ∀ c ∈ ds, c.isDigit = true) (hr : ∀ c ∈ r.head?, c.isDigit = false) :
    (ds ++ r).span Char.isDigit = (ds, r) := by
  rw [List.span_eq_takeWhile_dropWhile]
  have h1 : r.takeWhile Char.isDigit = [] := by
    cases r with
    | nil => rfl
    | cons c r => rw [List.takeWhile_cons_of_neg]; simp [hr c rfl]
  have h2 : r.dropWhile Char.isDigit = r := by
    cases r with
    | nil => rfl
    | cons c r => rw [List.dropWhile_cons_of_neg]; simp [hr c rfl]
  rw [List.takeWhile_append_of_pos hd, List.dropWhile_append_of_pos hd, h1, h2, List.append_nil]

theorem readExp_stop {r : List Char} (h : Stops r) : readExp r = some (0, r) := by
  cases r with
  | nil => rfl
  | cons c r =>
    obtain ⟨_, _, he, hE⟩ := h c rfl
    simp [readExp, he, hE]

theorem readExp_written {r : List Char} (h : Stops r) (z : Int) :
    readExp ('e' :: (if 0 ≤ z then '+' else '-') :: (Nat.toDigits 10 z.natAbs ++ r)) = some (z, r) := by
  have hs : (Nat.toDigits 10 z.natAbs ++ r).span Char.isDigit = (Nat.toDigits 10 z.natAbs, r) := span_digits
    (fun c hc => Nat.isDigit_of_mem_toDigits (by decide) (by decide) hc) (fun c hc => (h c hc).1)
  have hne : (Nat.toDigits 10 z.natAbs).isEmpty = false := by
    simp
  by_cases hz : 0 ≤ z
  · simp only [readExp, if_pos hz, true_or, if_true, hs, hne, Bool.false_eq_true, if_false, Nat.ofDigitChars_ten_toDigits]
    congr 2; omega
  · simp only [readExp, if_neg hz, true_or, if_true, hs, hne, Bool.false_eq_true, if_false, Nat.ofDigitChars_ten_toDigits]
    congr 2; omega

theorem readFrac_none {r : List Char} (h : ∀ c ∈ r.head?, c ≠ '.') : readFrac r = some ([], r) := by
  unfold readFrac
  split
  · exact absurd rfl (h '.' rfl)
  · rfl

theorem readFrac_written {ds r : List Char} (hne : ds ≠ []) (hd : ∀ c ∈ ds, c.isDigit = true)
    (hr : ∀ c ∈ r.head?, c.isDigit = false) : readFrac ('.' :: (ds ++ r)) = some (ds, r) := by
  simp only [readFrac, span_digits hd hr]
  simp [hne]

theorem readInt_zero (r : List Char) : readInt ('0' :: r) = some (['0'], r) := rfl

theorem readInt_written {c : Char} {ds r : List Char} (h0 : c ≠ '0') (hd : ∀ x ∈ c :: ds, x.isDigit = true)
    (hr : ∀ x ∈ r.head?, x.isDigit = false) : readInt (c :: (ds ++ r)) = some (c :: ds, r) := by
  unfold readInt
  split
  · rename_i heq; exact absurd (List.cons.inj heq).1 h0
  · have hs := span_digits hd hr
    rw [List.cons_append] at hs
    simp only [hs, List.isEmpty_cons, Bool.false_eq_true, if_false]

theorem toDigits_head {n : Nat} (h : 0 < n) : ∃ c ds, Nat.toDigits 10 n = c :: ds ∧ c ≠ '0' := by
  induction n using Nat.strong_induction_on with
  | _ n ih =>
    rw [Nat.toDigits_eq_if (by decide)]
    split
    · rename_i hlt
      exact ⟨_, [], rfl, fun h0 => by have := Nat.digitChar_eq_zero.mp h0; omega⟩
    · rename_i hge
      obtain ⟨c, ds, hds, hc⟩ := ih (n / 10) (by omega) (by omega)
      exact ⟨c, ds ++ [(n % 10).digitChar], by rw [hds]; rfl, hc⟩

theorem isDigit_toDigits (n : Nat) : ∀ c ∈ Nat.toDigits 10 n, c.isDigit = true :=
  fun _ hc => Nat.isDigit_of_mem_toDigits (by decide) (by decide) hc

/-- The characters of a number's text. -/
def NumberChar (c : Char) : Prop := c.isDigit = true ∨ c ∈ ['.', 'e', '+', '-']

theorem numberChar_body (d : Dec) : ∀ c ∈ d.body, NumberChar c := by
  have hd : ∀ c ∈ Nat.toDigits 10 d.mant, NumberChar c := fun c hc => .inl (isDigit_toDigits _ c hc)
  intro c hc
  unfold body at hc
  dsimp only at hc
  split at hc
  · rcases List.mem_append.1 hc with hc | hc
    · exact hd c hc
    · rw [List.eq_of_mem_replicate hc]; exact .inl rfl
  split at hc
  · rcases List.mem_append.1 hc with hc | hc
    · exact hd c (List.mem_of_mem_take hc)
    · rcases List.mem_cons.1 hc with rfl | hc
      · exact .inr (by decide)
      · exact hd c (List.mem_of_mem_drop hc)
  split at hc
  · simp only [List.mem_cons, List.mem_append, List.mem_replicate] at hc
    rcases hc with rfl | rfl | ⟨-, rfl⟩ | hc
    · exact .inl rfl
    · exact .inr (by decide)
    · exact .inl rfl
    · exact hd c hc
  · rcases List.mem_append.1 hc with hc | hc
    · rcases List.mem_append.1 hc with hc | hc
      · exact hd c (List.mem_of_mem_take hc)
      · split at hc
        · cases hc
        · rcases List.mem_cons.1 hc with rfl | hc
          · exact .inr (by decide)
          · exact hd c (List.mem_of_mem_drop hc)
    · rcases List.mem_cons.1 hc with rfl | hc
      · exact .inr (by decide)
      rcases List.mem_cons.1 hc with rfl | hc
      · right; split <;> decide
      · exact .inl (isDigit_toDigits _ c hc)

theorem numberChar_toText (d : Dec) : ∀ c ∈ d.toText, NumberChar c := by
  intro c hc
  unfold toText at hc
  split at hc
  · rcases List.mem_cons.1 hc with rfl | hc
    · exact .inr (by decide)
    · exact numberChar_body d c hc
  · exact numberChar_body d c hc

theorem ofDigitChars_zeros_append (k : Nat) (ds : List Char) :
    Nat.ofDigitChars 10 (List.replicate k '0' ++ ds) 0 = Nat.ofDigitChars 10 ds 0 := by
  rw [Nat.ofDigitChars_append, Nat.ofDigitChars_replicate_zero, Nat.mul_zero]

theorem ofDigitChars_append_zeros (k : Nat) (ds : List Char) :
    Nat.ofDigitChars 10 (ds ++ List.replicate k '0') 0 = Nat.ofDigitChars 10 ds 0 * 10 ^ k := by
  rw [Nat.ofDigitChars_append, Nat.ofDigitChars_replicate_zero, Nat.mul_comm]

/-- The three parts of a number read together. -/
theorem readNumber_parts {neg : Bool} {s s₁ s₂ s₃ r int frac : List Char} {e : Int}
    (h0 : readSign s = (neg, s₁)) (h1 : readInt s₁ = some (int, s₂)) (h2 : readFrac s₂ = some (frac, s₃))
    (h3 : readExp s₃ = some (e, r)) :
    readNumber s = some (make neg (Nat.ofDigitChars 10 (int ++ frac) 0) (e - frac.length), r) := by
  simp [readNumber, h0, h1, h2, h3]

theorem readSign_digit {c : Char} {r : List Char} (h : c ≠ '-') : readSign (c :: r) = (false, c :: r) := by
  unfold readSign; split
  · rename_i heq; exact absurd (List.cons.inj heq).1 h
  · rfl

theorem body_head (d : Dec) : ∃ c r, d.body = c :: r ∧ c.isDigit = true := by
  have hne : Nat.toDigits 10 d.mant ≠ [] := Nat.toDigits_ne_nil
  obtain ⟨c, ds, hds⟩ := List.exists_cons_of_ne_nil hne
  have hc : c.isDigit = true := isDigit_toDigits d.mant c (by rw [hds]; exact List.mem_cons_self)
  unfold body
  simp only [hds]
  split
  · exact ⟨c, _, rfl, hc⟩
  · split
    · rename_i h
      obtain ⟨k, hk⟩ : ∃ k, ((List.length (c :: ds) : Int) + d.exp).toNat = k + 1 :=
        ⟨((List.length (c :: ds) : Int) + d.exp).toNat - 1, by omega⟩
      rw [hk]; exact ⟨c, _, rfl, hc⟩
    · split
      · exact ⟨'0', _, rfl, rfl⟩
      · exact ⟨c, _, rfl, hc⟩

/-- The four shapes of `body`, each with the parts the reader finds in it. -/
theorem read_body (d : Dec) {r : List Char} (hr : Stops r) : ∃ int frac s₂ s₃ e,
    readInt (d.body ++ r) = some (int, s₂) ∧ readFrac s₂ = some (frac, s₃) ∧ readExp s₃ = some (e, r) ∧
      ∀ neg, make neg (Nat.ofDigitChars 10 (int ++ frac) 0) (e - frac.length) = make neg d.mant d.exp := by
  have hdig : ∀ c ∈ r.head?, c.isDigit = false := fun c hc => (hr c hc).1
  have hval : Nat.ofDigitChars 10 (Nat.toDigits 10 d.mant) 0 = d.mant := Nat.ofDigitChars_ten_toDigits
  by_cases hm : d.mant = 0
  · -- zero is written `0`
    obtain ⟨hn, -, he⟩ := d.norm (by rw [hm])
    have hb : d.body = ['0'] := by simp [body, hm, he]
    refine ⟨['0'], [], r, r, 0, ?_, readFrac_none fun c hc => (hr c hc).2.1, readExp_stop hr, fun neg => ?_⟩
    · rw [hb]; rfl
    · rw [hm]; rfl
  obtain ⟨c, ds, hds, hc0⟩ := toDigits_head (Nat.pos_of_ne_zero hm)
  have hall := isDigit_toDigits d.mant
  rw [hds] at hall hval
  unfold body
  simp only [hds]
  split
  · -- an integer written out in full
    rename_i h
    have hz : ∀ x ∈ c :: (ds ++ List.replicate d.exp.toNat '0'), x.isDigit = true := by
      intro x hx
      rw [← List.cons_append, List.mem_append] at hx
      rcases hx with hx | hx
      · exact hall x hx
      · rw [List.eq_of_mem_replicate hx]; rfl
    refine ⟨_, [], r, r, 0, readInt_written hc0 hz hdig, readFrac_none fun c hc => (hr c hc).2.1,
      readExp_stop hr, fun neg => ?_⟩
    rw [List.append_nil]
    have hv := ofDigitChars_append_zeros d.exp.toNat (c :: ds)
    rw [hval] at hv
    rw [show c :: ds.append (List.replicate d.exp.toNat '0') = c :: ds ++ List.replicate d.exp.toNat '0' from rfl,
      hv, make_mul_pow]
    congr 1; simp; omega
  · split
    · -- a point inside the digits
      rename_i h1 h
      obtain ⟨k, hk⟩ : ∃ k, ((List.length (c :: ds) : Int) + d.exp).toNat = k + 1 :=
        ⟨((List.length (c :: ds) : Int) + d.exp).toNat - 1, by omega⟩
      have hlen : (List.length (c :: ds) : Int) = ds.length + 1 := by simp
      have hdr : ds.drop k ≠ [] := by
        intro h0
        have := congrArg List.length h0
        simp only [List.length_drop, List.length_nil] at this
        omega
      rw [hk]
      simp only [List.take_succ_cons, List.drop_succ_cons, List.cons_append, List.append_assoc]
      refine ⟨_, _, _, _, 0, readInt_written hc0 (fun x hx => hall x ?_) (fun x hx => ?_),
        readFrac_written hdr (fun x hx => hall x (List.mem_cons_of_mem _ (List.mem_of_mem_drop hx))) hdig,
        readExp_stop hr, fun neg => ?_⟩
      · rcases List.mem_cons.mp hx with rfl | hx
        · exact List.mem_cons_self
        · exact List.mem_cons_of_mem _ (List.mem_of_mem_take hx)
      · simp only [List.head?_cons, Option.mem_some_iff] at hx; subst hx; rfl
      · rw [List.cons_append, List.take_append_drop, hval]
        congr 1
        simp only [List.length_drop]
        omega
    · split
      · -- a number below one, not too small
        rename_i h1 h2 h
        have hz : ∀ x ∈ List.replicate (-((List.length (c :: ds) : Int) + d.exp)).toNat '0' ++ c :: ds, x.isDigit = true := by
          intro x hx
          rcases List.mem_append.mp hx with hx | hx
          · rw [List.eq_of_mem_replicate hx]; rfl
          · exact hall x hx
        refine ⟨['0'], _, _, _, 0, readInt_zero _, readFrac_written (by simp) hz hdig, readExp_stop hr, fun neg => ?_⟩
        rw [List.singleton_append, Nat.ofDigitChars_cons]
        simp only [Nat.mul_zero, Nat.sub_self, Nat.add_zero]
        rw [ofDigitChars_zeros_append, hval]
        congr 1
        simp only [List.length_append, List.length_replicate]
        omega
      · -- one digit, a fraction when there is more, and an exponent
        simp only [List.take_succ_cons, List.take_zero, List.drop_succ_cons, List.drop_zero]
        cases ds with
        | nil =>
          refine ⟨[c], [], _, _, _, @readInt_written c [] _ hc0 hall (fun x hx => ?_),
            readFrac_none fun x hx => ?_, readExp_written hr _, fun neg => ?_⟩
          · simp only [List.length_singleton, List.head?_cons, Option.mem_some_iff] at hx
            subst hx; rfl
          · simp only [List.head?_cons, Option.mem_some_iff] at hx
            subst hx; decide
          · rw [List.append_nil, hval]; congr 1; simp
        | cons x ds =>
          simp only [List.length_cons]
          rw [if_neg (by omega)]
          simp only [List.cons_append, List.nil_append, List.append_assoc]
          refine ⟨[c], x :: ds, _, _, _, @readInt_written c [] _ hc0
              (fun y hy => hall y (List.mem_of_mem_take (i := 1) hy)) (fun y hy => ?_),
            readFrac_written (by simp) (fun y hy => hall y (List.mem_cons_of_mem _ hy)) (fun y hy => ?_),
            readExp_written hr _, fun neg => ?_⟩
          · simp only [List.head?_cons, Option.mem_some_iff] at hy; subst hy; rfl
          · simp only [List.head?_cons, Option.mem_some_iff] at hy; subst hy; rfl
          · rw [List.singleton_append, hval]
            congr 1
            simp only [List.length_cons]
            omega

/-- A number written by `toText` is read back, whatever stops it. -/
theorem readNumber_toText (d : Dec) {r : List Char} (hr : Stops r) :
    readNumber (d.toText ++ r) = some (d, r) := by
  obtain ⟨int, frac, s₂, s₃, e, h1, h2, h3, hm⟩ := read_body d hr
  obtain ⟨c, t, hb, hc⟩ := body_head d
  have hsign : readSign (d.toText ++ r) = (d.neg, d.body ++ r) := by
    unfold toText
    cases d.neg
    · rw [if_neg (by decide), hb]
      exact readSign_digit (fun h => by subst h; exact absurd hc (by decide))
    · rfl
  rw [readNumber_parts hsign h1 h2 h3, hm, make_norm]

end Dec

end Js
