import MnoVerify.Bytes

/-!
# Groestl

`common/x11/groestl.js`. A byte is 8 bits and a word 32, so that signed shifts and exclusive ors agree with the unsigned ones;
the sixteen columns are held as two halves.
-/

namespace Groestl

def P_SHIFT : List Nat := [0, 1, 2, 3, 4, 5, 6, 11]
def Q_SHIFT : List Nat := [1, 3, 5, 11, 0, 2, 4, 6]
def ROUNDS : Nat := 14
def BLOCK_BYTES : Nat := 128

/-! ## Tables -/

/-- The loop of `gmul`, with `i` passes left. -/
def gmulLoop : Nat → BitVec 8 → BitVec 8 → BitVec 8 → BitVec 8
  | 0, p, _, _ => p
  | i + 1, p, a, b =>
    let p := if b &&& 1#8 = 1#8 then p ^^^ a else p
    let high := a &&& 0x80#8
    let a := a <<< 1
    let a := if high ≠ 0#8 then a ^^^ 0x1b#8 else a
    gmulLoop i p a (b >>> 1)

def gmul (a b : BitVec 8) : BitVec 8 := gmulLoop 8 0#8 a b

/-- `antilog`, `log` and `x` of `buildSbox`. -/
structure Logs where
  antilog : Vector (BitVec 8) 256
  log : Vector Nat 256
  x : BitVec 8

/-- The pass `i` of its first loop. -/
def Logs.pass (t : Logs) (i : Nat) : Logs :=
  ⟨t.antilog.setIfInBounds i t.x, t.log.setIfInBounds t.x.toNat i, gmul t.x 3#8⟩

def logs : Logs := (List.range 255).foldl Logs.pass ⟨.replicate 256 0#8, .replicate 256 0, 1#8⟩

/-- The loop that makes an entry of an inverse. -/
def affine (inverse : BitVec 8) : BitVec 8 :=
  (List.range 5).foldl (fun s k => s ^^^ ((inverse <<< k) ||| (inverse >>> (8 - k)))) 0x63#8

def sboxOf (t : Logs) (v : BitVec 8) : BitVec 8 :=
  let inverse := if v = 0#8 then 0#8 else t.antilog.toList.getD ((255 - t.log.toList.getD v.toNat 0) % 255) 0#8
  affine inverse

/-- `sbox` -/
def buildSbox : Vector (BitVec 8) 256 :=
  let t := logs
  Vector.ofFn fun v => sboxOf t (BitVec.ofFin v)

def MIX_COLUMN : List (BitVec 8) := [2, 7, 5, 3, 5, 4, 3, 2]

/-- `bytes` of `buildTables`, for the S-box entry `s`. -/
def mixBytes (s : BitVec 8) : List (BitVec 8) := MIX_COLUMN.map fun m => gmul m s

/-- The loop over `i` that packs an entry of table `k`, as `hi` and `lo`. -/
def pack (bytes : List (BitVec 8)) (k : Nat) : BitVec 32 × BitVec 32 :=
  (List.range 8).foldl (fun (w : BitVec 32 × BitVec 32) i =>
    let b := (bytes.getD ((i + 8 - k) % 8) 0#8).setWidth 32
    if i < 4 then ((w.1 <<< 8) ||| b, w.2) else (w.1, (w.2 <<< 8) ||| b)) (0#32, 0#32)

/-- The entry `(k << 8) + v` of both tables. -/
def tableEntry (sbox : Vector (BitVec 8) 256) (n : Nat) : BitVec 32 × BitVec 32 :=
  pack (mixBytes (sbox.toList.getD (n % 256) 0#8)) (n / 256)

def buildTables : Vector (BitVec 32 × BitVec 32) 2048 :=
  let sbox := buildSbox
  Vector.ofFn fun n => tableEntry sbox n

def TABLE_HI (n : Nat) : BitVec 32 := (buildTables.toList.getD n (0#32, 0#32)).1
def TABLE_LO (n : Nat) : BitVec 32 := (buildTables.toList.getD n (0#32, 0#32)).2

/-! ## The permutation -/

abbrev Half : Type := Vector (BitVec 32) 16

/-- Both halves of the columns. -/
structure State where
  hi : Half
  lo : Half

/-- The first loop of a round. -/
def addConstants (isQ : Bool) (r : Nat) (s : State) : State where
  hi := Vector.ofFn fun c =>
    if isQ then s.hi[c] ^^^ 0xffffffff#32 else s.hi[c] ^^^ (BitVec.ofNat 32 (c.val <<< 4 + r) <<< 24)
  lo := Vector.ofFn fun c =>
    if isQ then s.lo[c] ^^^ (0xffffff00#32 ||| (0xff#32 ^^^ BitVec.ofNat 32 (c.val <<< 4) ^^^ BitVec.ofNat 32 r)) else s.lo[c]

/-- The byte that row `i` reads for column `d`. -/
def rowByte (shift : List Nat) (s : State) (d : Fin 16) (i : Nat) : Nat :=
  let c : Fin 16 := ⟨(d.val + shift.getD i 0) % 16, Nat.mod_lt _ (by decide)⟩
  let word := if i < 4 then s.hi[c] else s.lo[c]
  ((word >>> (24 - ((i % 4) <<< 3))) &&& 0xff#32).toNat

/-- The loop over the rows. -/
def column (shift : List Nat) (s : State) (d : Fin 16) : BitVec 32 × BitVec 32 :=
  (List.range 8).foldl (fun (w : BitVec 32 × BitVec 32) i =>
    let k := i <<< 8 + rowByte shift s d i
    (w.1 ^^^ TABLE_HI k, w.2 ^^^ TABLE_LO k)) (0#32, 0#32)

def mixColumns (shift : List Nat) (s : State) : State where
  hi := Vector.ofFn fun d => (column shift s d).1
  lo := Vector.ofFn fun d => (column shift s d).2

def permute (shift : List Nat) (isQ : Bool) (s : State) : State :=
  (List.range ROUNDS).foldl (fun s r => mixColumns shift (addConstants isQ r s)) s

/-! ## Hashing -/

/-- `readUInt32BE` -/
def readUInt32BE (data : List UInt8) (at' : Nat) : BitVec 32 :=
  (List.range 4).foldl (fun w i => (w <<< 8) ||| ((data.getD (at' + i) 0).toBitVec.setWidth 32)) 0#32

def State.xor (s t : State) : State := ⟨Vector.ofFn fun u => s.hi[u] ^^^ t.hi[u], Vector.ofFn fun u => s.lo[u] ^^^ t.lo[u]⟩

def compress (state : State) (data : List UInt8) (at' : Nat) : State :=
  let m : State := ⟨Vector.ofFn fun u => readUInt32BE data (at' + u * 8), Vector.ofFn fun u => readUInt32BE data (at' + u * 8 + 4)⟩
  state.xor ((permute P_SHIFT false (m.xor state)).xor (permute Q_SHIFT true m))

/-- A `Buffer`, whose length a number counts exactly. -/
structure Buffer where
  bytes : List UInt8
  length_lt : bytes.length < 2 ^ 53

/-- Bytes put into a buffer. -/
def put (buf : List UInt8) (at' : Nat) (bytes : List UInt8) : List UInt8 :=
  buf.take at' ++ bytes ++ buf.drop (at' + bytes.length)

/-- The bytes of a word, the highest first. -/
def wordBytes (v : Nat) : List UInt8 := (List.range 4).map fun i => UInt8.ofNat (v >>> (24 - 8 * i))

/-- `writeUInt32BE`, which throws beyond a word. -/
def writeUInt32BE (buf : List UInt8) (v at' : Nat) : Option (List UInt8) :=
  if v < 2 ^ 32 then some (put buf at' (wordBytes v)) else none

/-- Where the whole blocks of `n` bytes start. -/
def offsets (n : Nat) : List Nat := (List.range (n / BLOCK_BYTES)).map fun i => i * BLOCK_BYTES

/-- `tail` -/
def paddedTail (data : Buffer) : Option (List UInt8) := do
  let at' := BLOCK_BYTES * (offsets data.bytes.length).length
  let rest := data.bytes.length - at'
  let padLen := if rest < BLOCK_BYTES - 8 then BLOCK_BYTES - rest else 2 * BLOCK_BYTES - rest
  let blocks := at' / BLOCK_BYTES + (if rest < BLOCK_BYTES - 8 then 1 else 2)
  let tail := List.replicate (rest + padLen) 0
  let tail := put tail 0 (data.bytes.drop at')
  let tail := tail.set rest 0x80
  let tail ← writeUInt32BE tail (blocks / 0x100000000) (tail.length - 8)
  writeUInt32BE tail (blocks % 2 ^ 32) (tail.length - 4)

/-- The state before any block. -/
def initial : State := ⟨.replicate 16 0#32, (Vector.replicate 16 0#32).set 15 512#32⟩

/-- The output transformation. -/
def output (state : State) : List UInt8 :=
  let x := state.xor (permute P_SHIFT false state)
  ((List.range 16).drop 8).flatMap fun u =>
    let word := fun (h : Half) => h.toList.getD u 0#32
    [word x.hi, word x.lo].flatMap fun (w : BitVec 32) => (List.range 4).map fun i => UInt8.ofBitVec ((w >>> (24 - 8 * i)).setWidth 8 : BitVec 8)

def groestl512 (data : Buffer) : Option (List UInt8) := do
  let tail ← paddedTail data
  let state := (offsets data.bytes.length).foldl (fun s off => compress s data.bytes off) initial
  return output ((offsets tail.length).foldl (fun s off => compress s tail off) state)

end Groestl
