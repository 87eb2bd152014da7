import Mathlib.Data.ZMod.Basic

/-!
# The transform of SIMD

`reds1` to `fft256` of `common/x11/simd.js`, and the fold of its `compress`. A number of the code is a `Num`: its value, and
whether on its way no sum, shift or product left the signed 32-bit range and no index an array.
-/

namespace Simd

def MODULUS : Nat := 2 ^ 32

/-- A number as a signed word. -/
def toInt32 (n : Int) : Int := n.bmod MODULUS

def inRange (n : Int) : Bool := decide (-2 ^ 31 ≤ n) && decide (n < 2 ^ 31)

structure Num where
  val : Int
  fits : Bool

namespace Num

/-- A result, with the exact one before any wrap. -/
def result (val exact : Int) (fits : Bool) : Num := ⟨val, fits && inRange exact⟩

instance : Add Num := ⟨fun a b => result (a.val + b.val) (a.val + b.val) (a.fits && b.fits)⟩

instance : Sub Num := ⟨fun a b => result (a.val - b.val) (a.val - b.val) (a.fits && b.fits)⟩

instance : HShiftLeft Num Nat Num := ⟨fun a n => result (toInt32 (toInt32 a.val * 2 ^ n)) (a.val * 2 ^ n) a.fits⟩

/-- `>>`, which keeps the sign. -/
instance : HShiftRight Num Nat Num := ⟨fun a n => result (toInt32 a.val / 2 ^ n) (a.val / 2 ^ n) a.fits⟩

/-- `x & mask`, the mask being `n` ones. -/
def ones (a : Num) (n : Nat) : Num := ⟨toInt32 a.val % 2 ^ n, a.fits⟩

/-- `Math.imul` -/
def imul (a b : Num) : Num := result (toInt32 (a.val * b.val)) (a.val * b.val) (a.fits && b.fits)

/-- What an `Int32Array` keeps of a number. -/
def store (a : Num) : Num := ⟨toInt32 a.val, a.fits⟩

end Num

/-! ## Arrays -/

/-- An entry of a table. -/
def entry (t : List Nat) (i : Nat) : Num := ⟨t.getD i 0, decide (i < t.length)⟩

/-- A block. -/
abbrev Block : Type := Vector UInt8 128

def Block.byte (x : Block) (i : Nat) : Nat := (x.toList.getD i 0).toNat

def Block.read (x : Block) (i : Nat) : Num := ⟨x.byte i, decide (i < 128)⟩

/-- `q` -/
abbrev Q : Type := Vector Num 256

def Q.read (q : Q) (i : Nat) : Num := q.toList.getD i ⟨0, false⟩

def Q.write (q : Q) (i : Nat) (n : Num) : Q := q.setIfInBounds i n.store

/-! ## Tables -/

/-- The loop of a table: `n` entries from `v` on. -/
def powers : Nat → Nat → List Nat
  | 0, _ => []
  | n + 1, v => v :: powers n (v * 41 % 257)

def ALPHA_TAB : List Nat := powers 256 1

def YOFF_B_N : List Nat := (List.range 256).map fun i => ALPHA_TAB.getD (255 * i % 256) 0

def YOFF_B_F : List Nat := (List.range 256).map fun i =>
  (ALPHA_TAB.getD (255 * i % 256) 0 + ALPHA_TAB.getD (253 * i % 256) 0) % 257

/-! ## The transform -/

def reds1 (x : Num) : Num := x.ones 8 - x >>> 8

def reds2 (x : Num) : Num := x.ones 16 + x >>> 16

/-- `fft8`, with what it writes to `d`. -/
def fft8 (x : Block) (xb xs : Nat) : List Num :=
  let x0 := x.read xb
  let x1 := x.read (xb + xs)
  let x2 := x.read (xb + 2 * xs)
  let x3 := x.read (xb + 3 * xs)
  let a0 := x0 + x2
  let a1 := x0 + x2 <<< 4
  let a2 := x0 - x2
  let a3 := x0 - x2 <<< 4
  let b0 := x1 + x3
  let b1 := reds1 (x1 <<< 2 + x3 <<< 6)
  let b2 := x1 <<< 4 - x3 <<< 4
  let b3 := reds1 (x1 <<< 6 + x3 <<< 2)
  [a0 + b0, a1 + b1, a2 + b2, a3 + b3, a0 - b0, a1 - b1, a2 - b2, a3 - b3].map Num.store

/-- One pass of the loop of `fft16`. -/
def twist (d1 d2 : List Num) (rb : Nat) (q : Q) (i : Nat) : Q :=
  let t := d2.getD i ⟨0, false⟩ <<< i
  let q := q.write (rb + i) (d1.getD i ⟨0, false⟩ + t)
  q.write (rb + 8 + i) (d1.getD i ⟨0, false⟩ - t)

def fft16 (x : Block) (xb xs : Nat) (q : Q) (rb : Nat) : Q :=
  (List.range 8).foldl (twist (fft8 x xb (xs <<< 1)) (fft8 x (xb + xs) (xs <<< 1)) rb) q

/-- The body of the loops of `fftLoop`. -/
def butterfly (rb hk as u v : Nat) (q : Q) (j : Nat) : Q :=
  let m := q.read (rb + u + j)
  let n := q.read (rb + u + j + hk)
  let t := reds2 (n.imul (entry ALPHA_TAB (v + j * as)))
  let q := q.write (rb + u + j) (m + t)
  q.write (rb + u + j + hk) (m - t)

def fftLoop (q : Q) (rb hk as : Nat) : Q :=
  let m0 := q.read rb
  let n0 := q.read (rb + hk)
  let q := q.write rb (m0 + n0)
  let q := q.write (rb + hk) (m0 - n0)
  -- the pass with `u = 4 * s`
  (List.range ((hk + 3) / 4)).foldl (fun q s =>
    let u := 4 * s
    ((List.range 4).drop (if u = 0 then 1 else 0)).foldl (butterfly rb hk as u (4 * as * s)) q) q

def fft32 (x : Block) (xb xs : Nat) (q : Q) (rb : Nat) : Q :=
  let q := fft16 x xb (xs <<< 1) q rb
  let q := fft16 x (xb + xs) (xs <<< 1) q (rb + 16)
  fftLoop q rb 16 8

def fft64 (x : Block) (xb xs : Nat) (q : Q) (rb : Nat) : Q :=
  let xd := xs <<< 1
  let q := fft32 x xb xd q rb
  let q := fft32 x (xb + xs) xd q (rb + 32)
  fftLoop q rb 32 4

def fft256 (x : Block) (q : Q) : Q :=
  let q := fft64 x 0 4 q 0
  let q := fft64 x 2 4 q 64
  let q := fftLoop q 0 64 2
  let q := fft64 x 1 4 q 128
  let q := fft64 x 3 4 q 192
  let q := fftLoop q 128 64 2
  fftLoop q 0 128 1

/-- The loop of `compress` that folds an entry, without its array. -/
def fold (tq : Num) : Num :=
  let tq := reds2 tq
  let tq := reds1 tq
  let tq := reds1 tq
  if tq.val ≤ 128 then tq else tq - ⟨257, true⟩

def foldEntry (yoff : List Nat) (q : Q) (i : Nat) : Q := q.write i (fold (q.read i + entry yoff i))

/-- The start of `compress`: the transform and the fold. -/
def expand (x : Block) (q : Q) (last : Bool) : Q :=
  let q := fft256 x q
  let yoff := if last then YOFF_B_F else YOFF_B_N
  (List.range 256).foldl (foldEntry yoff) q

end Simd
