import MnoVerify.Bytes

/-!
# RIPEMD-160

The hash as its specification describes it. Both lines read the words of a block through the permutations `ρ` and `π`, and
the shift of a step belongs to the round and to the word that it reads.
-/

namespace Ripemd160

/-- The functions of the five rounds. -/
def f (round : Nat) (x y z : BitVec 32) : BitVec 32 :=
  match round with
  | 0 => x ^^^ y ^^^ z
  | 1 => (x &&& y) ||| (~~~x &&& z)
  | 2 => (x ||| ~~~y) ^^^ z
  | 3 => (x &&& z) ||| (y &&& ~~~z)
  | _ => x ^^^ (y ||| ~~~z)

/-- The integer parts of `2 ^ 30` times the square roots of 2, 3, 5 and 7. -/
def K : List (BitVec 32) := [0, 0x5A827999, 0x6ED9EBA1, 0x8F1BBCDC, 0xA953FD4E]

/-- The integer parts of `2 ^ 30` times the cube roots. -/
def K' : List (BitVec 32) := [0x50A28BE6, 0x5C4DD124, 0x6D703EF3, 0x7A6D76E9, 0]

def ρ (i : Nat) : Nat := [7, 4, 13, 1, 10, 6, 15, 3, 12, 0, 9, 5, 2, 14, 11, 8].getD i 0

def π (i : Nat) : Nat := (9 * i + 5) % 16

/-- The word of a step. -/
def r (j : Nat) : Nat := ρ^[j / 16] (j % 16)

def r' (j : Nat) : Nat := ρ^[j / 16] (π (j % 16))

/-- The shift of a word in a round. -/
def shift (round word : Nat) : Nat :=
  ([[11, 14, 15, 12, 5, 8, 7, 9, 11, 13, 14, 15, 6, 7, 9, 8],
    [12, 13, 11, 15, 6, 9, 9, 7, 12, 15, 11, 13, 7, 8, 7, 7],
    [13, 15, 14, 11, 7, 7, 6, 8, 13, 14, 13, 12, 5, 5, 6, 9],
    [14, 11, 12, 14, 8, 6, 5, 5, 15, 12, 15, 14, 9, 9, 8, 6],
    [15, 12, 13, 13, 9, 5, 8, 6, 14, 11, 12, 11, 8, 6, 5, 5]].getD round []).getD word 0

structure Chain where
  a : BitVec 32
  b : BitVec 32
  c : BitVec 32
  d : BitVec 32
  e : BitVec 32

/-- A step, with its function, its word, its constant and its shift. -/
def step (round : Nat) (x k : BitVec 32) (s : Nat) (h : Chain) : Chain :=
  ⟨h.e, (h.a + f round h.b h.c h.d + x + k).rotateLeft s + h.e, h.b, h.c.rotateLeft 10, h.d⟩

def left (X : Nat → BitVec 32) (h : Chain) (j : Nat) : Chain :=
  step (j / 16) (X (r j)) (K.getD (j / 16) 0) (shift (j / 16) (r j)) h

def right (X : Nat → BitVec 32) (h : Chain) (j : Nat) : Chain :=
  step (4 - j / 16) (X (r' j)) (K'.getD (j / 16) 0) (shift (j / 16) (r' j)) h

/-- A block, given as its words. -/
def compress (h : Chain) (X : Nat → BitVec 32) : Chain :=
  let l := (List.range 80).foldl (left X) h
  let r := (List.range 80).foldl (right X) h
  ⟨h.b + l.c + r.d, h.c + l.d + r.e, h.d + l.e + r.a, h.e + l.a + r.b, h.a + l.b + r.c⟩

def initial : Chain := ⟨0x67452301, 0xEFCDAB89, 0x98BADCFE, 0x10325476, 0xC3D2E1F0⟩

/-- The message, a bit, zeros, and the number of its bits. -/
def pad (message : List UInt8) : List UInt8 :=
  message ++ 0x80 :: List.replicate ((119 - message.length % 64) % 64) 0 ++ Bytes.toLE 8 (8 * message.length)

/-- A word of some bytes. -/
def word (bytes : List UInt8) (w : Nat) : BitVec 32 := BitVec.ofNat 32 (Bytes.ofLE ((bytes.drop (4 * w)).take 4))

def ripemd160 (message : List UInt8) : List UInt8 :=
  let bytes := pad message
  let h := (List.range (bytes.length / 64)).foldl (fun h i => compress h (word (bytes.drop (64 * i)))) initial
  [h.a, h.b, h.c, h.d, h.e].flatMap fun w => Bytes.toLE 4 w.toNat

/-- The constants are the integer parts of the roots. -/
theorem roots : (∀ i < 4, let n := [2, 3, 5, 7].getD i 0
    let k := (K.getD (i + 1) 0).toNat
    let k' := (K'.getD i 0).toNat
    k ^ 2 ≤ n * 2 ^ 60 ∧ n * 2 ^ 60 < (k + 1) ^ 2 ∧ k' ^ 3 ≤ n * 2 ^ 90 ∧ n * 2 ^ 90 < (k' + 1) ^ 3) := by decide

end Ripemd160
