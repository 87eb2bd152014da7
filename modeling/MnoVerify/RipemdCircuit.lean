import MnoVerify.Ripemd160
import MnoVerify.RegistrationEngines

/-!
# The RIPEMD-160 circuit

The templates of `circuits/ripemd160/ripemd160.circom`, each as what its constraints admit at its ports. `Num2Bits` and
`Bits2Num` are parameters.
-/

namespace RipemdCircuit

open Field (Scalar)
open RegistrationEngines (bitSignals)

/-- The components of circomlib. -/
structure Circomlib where
  /-- `Num2Bits(n)` -/
  Num2Bits : Nat → Scalar → List Scalar → Prop
  /-- `Bits2Num(n)` -/
  Bits2Num : Nat → List Scalar → Scalar → Prop
  num2Bits : ∀ n v : Nat, n ≤ 253 → v < 2 ^ n → ∀ out, Num2Bits n (v : Scalar) out ↔ out = bitSignals (Bits.ofNat n v)
  bits2Num : ∀ bits : List Bool, bits.length ≤ 253 → ∀ out,
    Bits2Num bits.length (bitSignals bits) out ↔ out = (Bits.toNat bits : Scalar)

section
variable (L : Circomlib)

/-- `RotL32(s)` -/
def RotL32 (s : Nat) (input out : Scalar) : Prop :=
  ∃ b, L.Num2Bits 32 input b ∧ L.Bits2Num 32 ((List.range 32).map fun i => b.getD ((i + 32 - s) % 32) 0) out

/-- `Low32(width)` -/
def Low32 (width : Nat) (input out : Scalar) : Prop :=
  ∃ b, L.Num2Bits width input b ∧ L.Bits2Num 32 ((List.range 32).map fun i => b.getD i 0) out

/-- `fbit[i]` of `RipeRound`, with `ftmp[i]`. -/
def fbit (roundType : Nat) (b c d : Scalar) : Scalar :=
  match roundType with
  | 0 =>
    let ftmp := b + c - (2 : Nat) * b * c
    ftmp + d - (2 : Nat) * ftmp * d
  | 1 => b * (c - d) + d
  | 2 =>
    let ftmp := 1 - c + b * c
    ftmp + d - (2 : Nat) * ftmp * d
  | 3 => d * (b - c) + c
  | _ =>
    let ftmp := 1 - d + c * d
    b + ftmp - (2 : Nat) * b * ftmp

/-- `RipeRound(roundType, s, K)` -/
def RipeRound (roundType s K : Nat) (a b c d e x tout : Scalar) : Prop :=
  ∃ bb cc dd fval s1low rot, L.Num2Bits 32 b bb ∧ L.Num2Bits 32 c cc ∧ L.Num2Bits 32 d dd ∧
    L.Bits2Num 32 ((List.range 32).map fun i => fbit roundType (bb.getD i 0) (cc.getD i 0) (dd.getD i 0)) fval ∧
    Low32 L 34 (a + fval + x + (K : Scalar)) s1low ∧ RotL32 L s s1low rot ∧ Low32 L 33 (rot + e) tout

end

/-! ## The template -/

def W8 : List Nat := [128, 64, 32, 16, 8, 4, 2, 1]

def RL : List Nat :=
  [0, 1, 2, 3, 4, 5, 6, 7, 8, 9, 10, 11, 12, 13, 14, 15,
   7, 4, 13, 1, 10, 6, 15, 3, 12, 0, 9, 5, 2, 14, 11, 8,
   3, 10, 14, 4, 9, 15, 8, 1, 2, 7, 0, 6, 13, 11, 5, 12,
   1, 9, 11, 10, 0, 8, 12, 4, 13, 3, 7, 15, 14, 5, 6, 2,
   4, 0, 5, 9, 7, 12, 2, 10, 14, 1, 3, 8, 11, 6, 15, 13]

def RR : List Nat :=
  [5, 14, 7, 0, 9, 2, 11, 4, 13, 6, 15, 8, 1, 10, 3, 12,
   6, 11, 3, 7, 0, 13, 5, 10, 14, 15, 8, 12, 4, 9, 1, 2,
   15, 5, 1, 3, 7, 14, 6, 9, 11, 8, 12, 2, 10, 0, 4, 13,
   8, 6, 4, 1, 3, 11, 15, 0, 5, 12, 2, 13, 9, 7, 10, 14,
   12, 15, 10, 4, 1, 5, 8, 7, 6, 2, 13, 14, 0, 3, 9, 11]

def SL : List Nat :=
  [11, 14, 15, 12, 5, 8, 7, 9, 11, 13, 14, 15, 6, 7, 9, 8,
   7, 6, 8, 13, 11, 9, 7, 15, 7, 12, 15, 9, 11, 7, 13, 12,
   11, 13, 6, 7, 14, 9, 13, 15, 14, 8, 13, 6, 5, 12, 7, 5,
   11, 12, 14, 15, 14, 15, 9, 8, 9, 14, 5, 6, 8, 6, 5, 12,
   9, 15, 5, 11, 6, 8, 13, 12, 5, 12, 13, 14, 11, 8, 5, 6]

def SR : List Nat :=
  [8, 9, 9, 11, 13, 15, 15, 5, 7, 7, 8, 11, 14, 14, 12, 6,
   9, 13, 15, 7, 12, 8, 9, 11, 7, 7, 12, 7, 6, 15, 13, 11,
   9, 7, 15, 11, 8, 6, 6, 14, 12, 13, 5, 14, 13, 13, 7, 5,
   15, 5, 8, 11, 14, 14, 6, 14, 6, 9, 12, 9, 12, 5, 15, 8,
   8, 5, 12, 9, 12, 5, 14, 6, 8, 13, 6, 5, 15, 13, 11, 11]

def KL : List Nat := [0x00000000, 0x5A827999, 0x6ED9EBA1, 0x8F1BBCDC, 0xA953FD4E]
def KR : List Nat := [0x50A28BE6, 0x5C4DD124, 0x6D703EF3, 0x7A6D76E9, 0x00000000]

def H0 : Scalar := 0x67452301
def H1 : Scalar := 0xEFCDAB89
def H2 : Scalar := 0x98BADCFE
def H3 : Scalar := 0x10325476
def H4 : Scalar := 0xC3D2E1F0

/-- The signals of a line, each by its index. -/
structure Line where
  a : Nat → Scalar
  b : Nat → Scalar
  c : Nat → Scalar
  d : Nat → Scalar
  e : Nat → Scalar

/-- The constraints of a line, with its tables; `roundType` picks the function. -/
structure Line.Satisfies (L : Circomlib) (X : Nat → Scalar) (roundType : Nat → Nat) (R S K : List Nat) (l : Line) : Prop where
  a_zero : l.a 0 = H0
  b_zero : l.b 0 = H1
  c_zero : l.c 0 = H2
  d_zero : l.d 0 = H3
  e_zero : l.e 0 = H4
  rnd : ∀ j < 80, RipeRound L (roundType j) (S.getD j 0) (K.getD (j / 16) 0) (l.a j) (l.b j) (l.c j) (l.d j) (l.e j)
    (X (R.getD j 0)) (l.b (j + 1))
  rot : ∀ j < 80, RotL32 L 10 (l.c j) (l.d (j + 1))
  a_succ : ∀ j < 80, l.a (j + 1) = l.e j
  c_succ : ∀ j < 80, l.c (j + 1) = l.b j
  e_succ : ∀ j < 80, l.e (j + 1) = l.d j

/-- The signals of `Ripemd160(256)`. -/
structure Signals where
  input : List Scalar
  bacc : Nat → Nat → Scalar
  mbyte : Nat → Scalar
  X : Nat → Scalar
  left : Line
  right : Line
  hword : Nat → Scalar
  hb : Nat → List Scalar
  out : List Scalar

/-- The constraints of `Ripemd160(256)`. -/
structure Signals.Satisfies (L : Circomlib) (s : Signals) : Prop where
  bacc_zero : ∀ i < 32, s.bacc i 0 = 0
  bacc_succ : ∀ i < 32, ∀ bt < 8, s.bacc i (bt + 1) = s.bacc i bt + s.input.getD (8 * i + bt) 0 * (W8.getD bt 0 : Nat)
  mbyte : ∀ i < 32, s.mbyte i = s.bacc i 8
  words : ∀ w < 8, s.X w =
    s.mbyte (4 * w) + s.mbyte (4 * w + 1) * 256 + s.mbyte (4 * w + 2) * 65536 + s.mbyte (4 * w + 3) * 16777216
  bit : s.X 8 = 128
  zeros : ∀ w ∈ [9, 10, 11, 12, 13, 15], s.X w = 0
  length : s.X 14 = 256
  left : s.left.Satisfies L s.X (fun j => j / 16) RL SL KL
  right : s.right.Satisfies L s.X (fun j => (79 - j) / 16) RR SR KR
  oc0 : Low32 L 34 (H1 + s.left.c 80 + s.right.d 80) (s.hword 0)
  oc1 : Low32 L 34 (H2 + s.left.d 80 + s.right.e 80) (s.hword 1)
  oc2 : Low32 L 34 (H3 + s.left.e 80 + s.right.a 80) (s.hword 2)
  oc3 : Low32 L 34 (H4 + s.left.a 80 + s.right.b 80) (s.hword 3)
  oc4 : Low32 L 34 (H0 + s.left.b 80 + s.right.c 80) (s.hword 4)
  hb : ∀ h < 5, L.Num2Bits 32 (s.hword h) (s.hb h)
  -- the bytes of each word from the lowest, the bits of each byte from the highest
  out : s.out = (List.range 5).flatMap fun h => (List.range 4).flatMap fun k => (List.range 8).map fun b =>
    (s.hb h).getD (8 * k + (7 - b)) 0

/-- `Ripemd160(256)` -/
def Ripemd160 (L : Circomlib) (input out : List Scalar) : Prop :=
  ∃ s : Signals, s.Satisfies L ∧ s.input = input ∧ s.out = out

end RipemdCircuit
