import MnoVerify.Bytes

/-!
# Proof of work

`oracle/proof_of_work.js` beside the consensus rule it stands for. X11 is a parameter. `targetFromBits_eq` compares the two
readings of a compact target.
-/

namespace ProofOfWork

open Bytes

/-! ## The code -/

def targetFromBits (nBits : BitVec 32) : Except String Nat :=
  let exponent := (nBits >>> 24).toNat
  let mantissa := (nBits &&& 0x007fffff#32).toNat
  if nBits &&& 0x00800000#32 ≠ 0 then .error "nBits carries a negative mantissa, which no real header does"
  else if mantissa = 0 then .ok 0
  else
    let target := if exponent ≤ 3 then mantissa >>> (8 * (3 - exponent)) else mantissa <<< (8 * (exponent - 3))
    if target ≥ 1 <<< 256 then .error "nBits encodes a target larger than any hash can be" else .ok target

/-- The loop runs from the last byte to the first. -/
def hashToNumber (hash32 : List UInt8) : Nat := hash32.foldr (fun b n => n <<< 8 ||| b.toNat) 0

def MAINNET_POW_LIMIT : Nat := 0x00000fffffffffffffffffffffffffffffffffffffffffffffffffffffffffff

/-- What `headerBytes` is given: a string, or what `Buffer.from` takes. -/
inductive HeaderInput
  | text (s : List Char)
  | bytes (l : List UInt8)

/-- A buffer of 80 bytes. -/
def sized (header : List UInt8) : Except String (Vector UInt8 80) :=
  if h : header.length = 80 then .ok ⟨header.toArray, h⟩
  else .error ("a block header is 80 bytes, got " ++ toString header.length)

def headerBytes : HeaderInput → Except String (Vector UInt8 80)
  | .bytes l => sized l
  | .text s =>
    if !s.all isHexDigit || decide (s.length % 2 ≠ 0) then
      .error "a block header must be an even-length hex string with no other characters"
    else sized (fromHex s)

/-- `header.readUInt32LE(72)` -/
def nBits (header : Vector UInt8 80) : BitVec 32 := BitVec.ofNat 32 (ofLE ((header.toList.drop 72).take 4))

def meetsProofOfWork (x11 : Vector UInt8 80 → Vector UInt8 32) (headerHex : HeaderInput) (powLimit : Option Nat) :
    Except String Bool := do
  let header ← headerBytes headerHex
  match targetFromBits (nBits header) with
  | .error _ => return false
  | .ok target =>
    if target = 0 then return false
    else if target > powLimit.getD MAINNET_POW_LIMIT then return false
    else return decide (hashToNumber (x11 header).toList ≤ target)

/-! ## The consensus rule -/

/-- What `SetCompact` leaves in a 256-bit number and in its two flags. -/
structure Compact where
  target : BitVec 256
  negative : Bool
  overflow : Bool

def setCompact (nCompact : BitVec 32) : Compact :=
  let nSize := (nCompact >>> 24).toNat
  let nWord := nCompact &&& 0x007fffff#32
  let word := if nSize ≤ 3 then nWord >>> (8 * (3 - nSize)) else nWord
  { target := if nSize ≤ 3 then word.setWidth 256 else word.setWidth 256 <<< (8 * (nSize - 3))
    negative := decide (word ≠ 0 ∧ nCompact &&& 0x00800000#32 ≠ 0)
    overflow := decide (word ≠ 0 ∧ (nSize > 34 ∨ word > 0xff#32 ∧ nSize > 33 ∨ word > 0xffff#32 ∧ nSize > 32)) }

/-- `CheckProofOfWork` -/
def checkProofOfWork (hash : Vector UInt8 32) (nBits : BitVec 32) (powLimit : BitVec 256) : Bool :=
  let bnTarget := setCompact nBits
  if bnTarget.negative || decide (bnTarget.target = 0) || bnTarget.overflow || decide (powLimit < bnTarget.target) then false
  else !decide (bnTarget.target < BitVec.ofNat 256 (ofLE hash.toList))

/-! ## Numbers -/

theorem hashToNumber_eq (hash : List UInt8) : hashToNumber hash = ofLE hash := by
  induction hash with
  | nil => rfl
  | cons b hash ih =>
    rw [hashToNumber] at ih
    rw [hashToNumber, List.foldr_cons, ih, ← Nat.shiftLeft_add_eq_or_of_lt b.toNat_lt, Nat.shiftLeft_eq, ofLE]
    omega

/-- A mantissa has 23 bits. -/
theorem mantissa_lt (n : BitVec 32) : (n &&& 0x007fffff#32).toNat < 2 ^ 23 := by
  rw [BitVec.toNat_and]
  exact Nat.lt_of_le_of_lt Nat.and_le_right (by decide)

/-- The bounds of the flag are the powers at which the shifted mantissa leaves 256 bits. -/
theorem overflow_iff {m e : Nat} (hm : m < 2 ^ 23) (h0 : m ≠ 0) (he : 3 < e) :
    (e > 34 ∨ m > 0xff ∧ e > 33 ∨ m > 0xffff ∧ e > 32) ↔ 2 ^ 256 ≤ m * 2 ^ (8 * (e - 3)) := by
  have pow_le {k : Nat} (h : k ≤ 8 * (e - 3)) : 2 ^ k ≤ 2 ^ (8 * (e - 3)) := Nat.pow_le_pow_right (by decide) h
  constructor
  · rintro (h | ⟨h, h'⟩ | ⟨h, h'⟩)
    · exact (pow_le (k := 256) (by omega)).trans (Nat.le_mul_of_pos_left _ (Nat.pos_of_ne_zero h0))
    · calc 2 ^ 256 = 2 ^ 8 * 2 ^ 248 := by rw [← Nat.pow_add]
        _ ≤ m * 2 ^ (8 * (e - 3)) := Nat.mul_le_mul (by omega) (pow_le (by omega))
    · calc 2 ^ 256 = 2 ^ 16 * 2 ^ 240 := by rw [← Nat.pow_add]
        _ ≤ m * 2 ^ (8 * (e - 3)) := Nat.mul_le_mul (by omega) (pow_le (by omega))
  · intro h
    by_contra hn
    have bound : ∀ {k j : Nat}, m < 2 ^ k → 8 * (e - 3) ≤ j → k + j ≤ 256 → False := fun hk hj hkj =>
      absurd h (Nat.not_le.2 ((Nat.mul_lt_mul_of_lt_of_le hk (Nat.pow_le_pow_right (by decide) hj) (by positivity)).trans_le
        (by rw [← Nat.pow_add]; exact Nat.pow_le_pow_right (by decide) hkj)))
    rcases Nat.lt_or_ge 33 e with h33 | h33
    · exact bound (k := 8) (j := 248) (by omega) (by omega) (by omega)
    · rcases Nat.lt_or_ge 32 e with h32 | h32
      · exact bound (k := 16) (j := 240) (by omega) (by omega) (by omega)
      · exact bound (k := 23) (j := 232) hm (by omega) (by omega)

/-! ## A compact target, read twice -/

/-- What the code takes a compact target for: none when it refuses it. -/
def Compact.usable (c : Compact) : Option Nat :=
  if c.negative || decide (c.target = 0) || c.overflow then none else some c.target.toNat

/-- What remains of `targetFromBits` once a target of zero is refused too. -/
def usableTarget (nBits : BitVec 32) : Option Nat :=
  match targetFromBits nBits with
  | .error _ => none
  | .ok target => if target = 0 then none else some target

theorem usableTarget_ok {n : BitVec 32} {t : Nat} (h : targetFromBits n = .ok t) :
    usableTarget n = if t = 0 then none else some t := by
  rw [usableTarget, h]

theorem usableTarget_error {n : BitVec 32} {e : String} (h : targetFromBits n = .error e) : usableTarget n = none := by
  rw [usableTarget, h]

section
variable (n : BitVec 32)

/-- The sign bit: a mantissa that vanishes is no negative number, but then the target is zero. -/
theorem usable_sign (hs : n &&& 0x00800000#32 ≠ 0) : (setCompact n).usable = none := by
  by_cases hw : (setCompact n).target = 0
  · rw [Compact.usable, hw]
    simp
  · have hn : (setCompact n).negative = true := by
      refine decide_eq_true ⟨fun h => hw ?_, hs⟩
      rw [setCompact]
      simp only [h]
      split <;> simp
    rw [Compact.usable, hn, Bool.true_or, Bool.true_or, if_pos rfl]

theorem usable_zero (hm : (n &&& 0x007fffff#32).toNat = 0) : (setCompact n).usable = none := by
  have h0 : n &&& 0x007fffff#32 = 0 := BitVec.eq_of_toNat_eq hm
  have ht : (setCompact n).target = 0 := by
    rw [setCompact]
    simp only [h0]
    split <;> simp
  rw [Compact.usable, ht]
  simp

/-- An exponent up to 3 shifts down, and no flag is set. -/
theorem usable_down (hs : n &&& 0x00800000#32 = 0) (he : (n >>> 24).toNat ≤ 3) :
    (setCompact n).usable = (fun t => if t = 0 then none else some t)
      ((n &&& 0x007fffff#32).toNat >>> (8 * (3 - (n >>> 24).toNat))) := by
  have hn : (setCompact n).negative = false := decide_eq_false fun h => h.2 hs
  have ho : (setCompact n).overflow = false := decide_eq_false fun h => by omega
  have ht : (setCompact n).target.toNat = (n &&& 0x007fffff#32).toNat >>> (8 * (3 - (n >>> 24).toNat)) := by
    rw [setCompact]
    simp only [if_pos he]
    rw [BitVec.toNat_setWidth_of_le (by decide), BitVec.toNat_ushiftRight]
  have hz : (setCompact n).target = 0 ↔ (setCompact n).target.toNat = 0 := BitVec.toNat_inj.symm
  rw [Compact.usable, hn, ho, ← ht, Bool.false_or, Bool.or_false]
  simp only [decide_eq_true_eq, hz]

/-- An exponent past 3 shifts up, and the flag is set when that leaves 256 bits. -/
theorem usable_up (hs : n &&& 0x00800000#32 = 0) (hm : (n &&& 0x007fffff#32).toNat ≠ 0) (he : 3 < (n >>> 24).toNat) :
    (setCompact n).usable = (fun t => if 2 ^ 256 ≤ t then none else some t)
      ((n &&& 0x007fffff#32).toNat * 2 ^ (8 * ((n >>> 24).toNat - 3))) := by
  have hn : (setCompact n).negative = false := decide_eq_false fun h => h.2 hs
  have hover : (setCompact n).overflow = true ↔ 2 ^ 256 ≤ (n &&& 0x007fffff#32).toNat * 2 ^ (8 * ((n >>> 24).toNat - 3)) := by
    rw [← overflow_iff (mantissa_lt n) hm he, setCompact, decide_eq_true_eq]
    simp only [if_neg (Nat.not_le.2 he)]
    refine ⟨fun h => h.2, fun h => ⟨fun h0 => hm ?_, h⟩⟩
    rw [h0]
    rfl
  rw [Compact.usable, hn]
  dsimp only
  by_cases h : 2 ^ 256 ≤ (n &&& 0x007fffff#32).toNat * 2 ^ (8 * ((n >>> 24).toNat - 3))
  · rw [if_pos h, hover.2 h, Bool.or_true, if_pos rfl]
  · have ho : (setCompact n).overflow = false := Bool.eq_false_iff.2 (h ∘ hover.1)
    have ht : (setCompact n).target.toNat = (n &&& 0x007fffff#32).toNat * 2 ^ (8 * ((n >>> 24).toNat - 3)) := by
      rw [setCompact]
      simp only [if_neg (Nat.not_le.2 he)]
      rw [BitVec.toNat_shiftLeft, BitVec.toNat_setWidth_of_le (by decide), Nat.shiftLeft_eq, Nat.mod_eq_of_lt (Nat.lt_of_not_le h)]
    have hz : (setCompact n).target ≠ 0 := fun h0 => by
      rw [h0] at ht
      exact Nat.mul_ne_zero hm (by positivity) ht.symm
    rw [if_neg h, ho, ← ht, decide_eq_false hz]
    rfl

/-- The two readings of a compact target agree. -/
theorem targetFromBits_eq : usableTarget n = (setCompact n).usable := by
  by_cases hs : n &&& 0x00800000#32 = 0
  · by_cases hm : (n &&& 0x007fffff#32).toNat = 0
    · have h : targetFromBits n = .ok 0 := by
        rw [targetFromBits]
        simp only [hs, hm, ne_eq, not_true_eq_false, if_false, if_true]
      rw [usableTarget_ok h, usable_zero n hm, if_pos rfl]
    · by_cases he : (n >>> 24).toNat ≤ 3
      · have hlt : ¬ (n &&& 0x007fffff#32).toNat >>> (8 * (3 - (n >>> 24).toNat)) ≥ 1 <<< 256 := by
          rw [Nat.shiftRight_eq_div_pow]
          have := Nat.div_le_self (n &&& 0x007fffff#32).toNat (2 ^ (8 * (3 - (n >>> 24).toNat)))
          have := mantissa_lt n
          omega
        have h : targetFromBits n = .ok ((n &&& 0x007fffff#32).toNat >>> (8 * (3 - (n >>> 24).toNat))) := by
          rw [targetFromBits]
          simp only [hs, hm, he, hlt, ne_eq, not_true_eq_false, if_false, if_true]
        rw [usable_down n hs he, usableTarget_ok h]
      · have hge : (1 <<< 256 : Nat) = 2 ^ 256 := Nat.one_shiftLeft 256
        rw [usable_up n hs hm (Nat.lt_of_not_le he)]
        dsimp only
        have h : targetFromBits n = if 2 ^ 256 ≤ (n &&& 0x007fffff#32).toNat * 2 ^ (8 * ((n >>> 24).toNat - 3))
            then .error "nBits encodes a target larger than any hash can be"
            else .ok ((n &&& 0x007fffff#32).toNat * 2 ^ (8 * ((n >>> 24).toNat - 3))) := by
          rw [targetFromBits]
          simp only [hs, hm, he, hge, ne_eq, not_true_eq_false, if_false, ge_iff_le, Nat.shiftLeft_eq]
        by_cases hb : 2 ^ 256 ≤ (n &&& 0x007fffff#32).toNat * 2 ^ (8 * ((n >>> 24).toNat - 3))
        · rw [if_pos hb] at h
          rw [usableTarget_error h, if_pos hb]
        · rw [if_neg hb] at h
          rw [usableTarget_ok h, if_neg hb, if_neg (Nat.mul_ne_zero hm (by positivity))]
  · have h : targetFromBits n = .error "nBits carries a negative mantissa, which no real header does" := by
      rw [targetFromBits]
      exact if_pos hs
    rw [usableTarget_error h, usable_sign n hs]

end

/-! ## The two checks -/

/-- The check once the target is read. -/
def meets (limit hash : Nat) (target : Option Nat) : Bool :=
  target.any fun t => decide (t ≤ limit) && decide (hash ≤ t)

theorem meetsProofOfWork_eq (x11 : Vector UInt8 80 → Vector UInt8 32) {input : HeaderInput} {header : Vector UInt8 80}
    (h : headerBytes input = .ok header) (powLimit : Option Nat) : meetsProofOfWork x11 input powLimit =
      .ok (meets (powLimit.getD MAINNET_POW_LIMIT) (ofLE (x11 header).toList) (usableTarget (nBits header))) := by
  rw [meetsProofOfWork, h, usableTarget]
  dsimp only [bind, Except.bind]
  cases targetFromBits (nBits header) with
  | error e => rfl
  | ok t =>
    dsimp only
    by_cases h0 : t = 0
    · rw [if_pos h0, if_pos h0]
      rfl
    rw [if_neg h0, if_neg h0, hashToNumber_eq, meets, Option.any_some]
    by_cases hl : t > powLimit.getD MAINNET_POW_LIMIT
    · rw [if_pos hl, decide_eq_false (Nat.not_le.2 hl)]
      rfl
    · rw [if_neg hl, decide_eq_true (Nat.le_of_not_lt hl)]
      rfl

theorem checkProofOfWork_eq (hash : Vector UInt8 32) (n : BitVec 32) (powLimit : BitVec 256) :
    checkProofOfWork hash n powLimit = meets powLimit.toNat (ofLE hash.toList) (setCompact n).usable := by
  have hh : (BitVec.ofNat 256 (ofLE hash.toList)).toNat = ofLE hash.toList := by
    have := ofLE_lt hash.toList
    rw [Vector.length_toList] at this
    exact Nat.mod_eq_of_lt this
  have hlt : ∀ a b : BitVec 256, decide (a < b) = decide (a.toNat < b.toNat) := fun a b => decide_eq_decide.2 BitVec.lt_def
  rw [checkProofOfWork, Compact.usable]
  by_cases hu : ((setCompact n).negative || decide ((setCompact n).target = 0) || (setCompact n).overflow) = true
  · rw [if_pos hu, hu, Bool.true_or, if_pos rfl]
    rfl
  · rw [if_neg hu, Bool.eq_false_iff.2 hu, Bool.false_or, meets, Option.any_some, hlt, hlt, hh]
    by_cases hl : powLimit.toNat < (setCompact n).target.toNat
    · rw [decide_eq_true hl, if_pos rfl, decide_eq_false (Nat.not_le.2 hl), Bool.false_and]
    · rw [decide_eq_false hl, if_neg Bool.false_ne_true, decide_eq_true (Nat.le_of_not_lt hl), Bool.true_and, ← decide_not]
      exact decide_eq_decide.2 Nat.not_lt

theorem sized_toList (header : Vector UInt8 80) : sized header.toList = .ok header := by
  rw [sized, dif_pos Vector.length_toList]
  exact congrArg Except.ok (Vector.toArray_inj.1 header.toArray.toArray_toList)

theorem headerBytes_toHex (header : Vector UInt8 80) : headerBytes (.text (toHex header.toList)) = .ok header := by
  have hx := (isHex_toHex header.toList).1
  rw [isHex, Bool.and_eq_true, decide_eq_true_eq] at hx
  have hc : (!(toHex header.toList).all isHexDigit || decide ((toHex header.toList).length % 2 ≠ 0)) = false := by
    rw [hx.2, Bool.not_true, Bool.false_or, hx.1]
    exact decide_eq_false (by omega)
  rw [headerBytes, hc, if_neg Bool.false_ne_true, fromHex_toHex, sized_toList]

/-- Each header can be given as text and as bytes; however it is given, the check answers, and as the consensus rule does. -/
theorem meetsProofOfWork_consensus (x11 : Vector UInt8 80 → Vector UInt8 32) (header : Vector UInt8 80)
    (powLimit : Option (BitVec 256)) :
    headerBytes (.text (toHex header.toList)) = .ok header ∧ headerBytes (.bytes header.toList) = .ok header ∧
      ∀ input, headerBytes input = .ok header → meetsProofOfWork x11 input (powLimit.map BitVec.toNat) =
        .ok (checkProofOfWork (x11 header) (nBits header) (powLimit.getD (BitVec.ofNat 256 MAINNET_POW_LIMIT))) := by
  refine ⟨headerBytes_toHex header, sized_toList header, fun input h => ?_⟩
  rw [meetsProofOfWork_eq x11 h, checkProofOfWork_eq, targetFromBits_eq]
  cases powLimit with
  | none => rfl
  | some l => rfl

theorem meetsProofOfWork_zeros :
    meetsProofOfWork (fun _ => .replicate 32 0) (.bytes (Vector.replicate 80 0).toList) none =
      .ok (checkProofOfWork (.replicate 32 0) (nBits (.replicate 80 0)) (BitVec.ofNat 256 MAINNET_POW_LIMIT)) :=
  (meetsProofOfWork_consensus (fun _ => .replicate 32 0) (.replicate 80 0) none).2.2 _
    (meetsProofOfWork_consensus (fun _ => .replicate 32 0) (.replicate 80 0) none).2.1

end ProofOfWork
