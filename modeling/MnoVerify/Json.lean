import MnoVerify.Dec

/-!
# JSON texts

`Json.stringify` writes a value the way `JSON.stringify` does and `Json.parse`
reads the JSON grammar the way `JSON.parse` does. Numbers are exact decimals,
and a string is its sequence of Unicode scalar values: an escaped surrogate
without its pair is read as U+FFFD.
-/

/-- A JSON value. The members of an object stand in the order of the text. -/
inductive Json
  | null
  | bool (b : Bool)
  | num (d : Js.Dec)
  | str (s : String)
  | arr (l : List Json)
  | obj (m : List (String × Json))

namespace Json

/-- Property access: the last member of that name, `none` for `undefined`. -/
def field (k : String) : Json → Option Json
  | obj m => (m.reverse.find? fun p => p.1 == k).map Prod.snd
  | _ => none

/-- `typeof` is `"object"`, and it is not `null`. -/
def isObject : Json → Bool
  | arr _ => true
  | obj _ => true
  | _ => false

/-- `=== d` for a property that may be missing. -/
def isNum (d : Js.Dec) : Option Json → Bool
  | some (num e) => decide (e = d)
  | _ => false

/-- `=== s` for a property that may be missing. -/
def isText (s : String) : Option Json → Bool
  | some (str t) => decide (t = s)
  | _ => false

theorem isText_iff {s : String} {v : Option Json} : isText s v = true ↔ v = some (str s) := by
  unfold isText
  split
  · rename_i t
    rw [decide_eq_true_eq]
    constructor
    · intro h
      rw [h]
    · intro h
      exact str.inj (Option.some.inj h)
  · rename_i hne
    constructor
    · intro h
      cases h
    · intro h
      exact absurd h (hne s)

/-! ## Writing -/

def hexDigit (n : Nat) : Char := Nat.digitChar n

/-- One character inside a string literal. -/
def escape (c : Char) : List Char :=
  if c = '"' then ['\\', '"']
  else if c = '\\' then ['\\', '\\']
  else if c = '\x08' then ['\\', 'b']
  else if c = '\x0c' then ['\\', 'f']
  else if c = '\n' then ['\\', 'n']
  else if c = '\r' then ['\\', 'r']
  else if c = '\t' then ['\\', 't']
  else if c.toNat < 32 then ['\\', 'u', '0', '0', hexDigit (c.toNat / 16), hexDigit (c.toNat % 16)]
  else [c]

def quote (s : List Char) : List Char := '"' :: (s.flatMap escape ++ ['"'])

mutual

/-- `JSON.stringify`, without an indent. -/
def stringify : Json → List Char
  | null => "null".toList
  | bool true => "true".toList
  | bool false => "false".toList
  | num d => d.toText
  | str s => quote s.toList
  | arr [] => ['[', ']']
  | arr (v :: l) => '[' :: (stringify v ++ stringifyElements l)
  | obj [] => ['{', '}']
  | obj ((k, v) :: m) => '{' :: (quote k.toList ++ ':' :: (stringify v ++ stringifyMembers m))

/-- The elements after the first, and the closing bracket. -/
def stringifyElements : List Json → List Char
  | [] => [']']
  | v :: l => ',' :: (stringify v ++ stringifyElements l)

/-- The members after the first, and the closing brace. -/
def stringifyMembers : List (String × Json) → List Char
  | [] => ['}']
  | (k, v) :: m => ',' :: (quote k.toList ++ ':' :: (stringify v ++ stringifyMembers m))

end

/-! ## Reading -/

def isWs (c : Char) : Bool := c == ' ' || c == '\t' || c == '\n' || c == '\r'

def skipWs : List Char → List Char := List.dropWhile isWs

/-- What a string literal names at one place: a character, or a UTF-16 unit given by an escape. -/
inductive CodeUnit
  | char (c : Char)
  | unit (u : Nat)

def isHigh (u : Nat) : Bool := 0xD800 ≤ u && u ≤ 0xDBFF
def isLow (u : Nat) : Bool := 0xDC00 ≤ u && u ≤ 0xDFFF

def unitChar (u : Nat) : Char := if isHigh u || isLow u then '\uFFFD' else Char.ofNat u

/-- The characters of a string literal, surrogate pairs joined. -/
def joinUnits : List CodeUnit → List Char
  | [] => []
  | .char c :: us => c :: joinUnits us
  | .unit h :: .unit l :: us =>
    if isHigh h && isLow l then Char.ofNat (0x10000 + (h - 0xD800) * 0x400 + (l - 0xDC00)) :: joinUnits us
    else unitChar h :: joinUnits (.unit l :: us)
  | .unit u :: us => unitChar u :: joinUnits us

def hexVal (c : Char) : Option Nat :=
  if '0' ≤ c ∧ c ≤ '9' then some (c.toNat - 48)
  else if 'a' ≤ c ∧ c ≤ 'f' then some (c.toNat - 87)
  else if 'A' ≤ c ∧ c ≤ 'F' then some (c.toNat - 55)
  else none

def hex4 (a b c d : Char) : Option Nat := do
  some (4096 * (← hexVal a) + 256 * (← hexVal b) + 16 * (← hexVal c) + (← hexVal d))

/-- The character a one-letter escape names. -/
def unescape (c : Char) : Option Char :=
  if c = '"' ∨ c = '\\' ∨ c = '/' then some c
  else if c = 'b' then some '\x08'
  else if c = 'f' then some '\x0c'
  else if c = 'n' then some '\n'
  else if c = 'r' then some '\r'
  else if c = 't' then some '\t'
  else none

/-- The rest of a string literal after its opening quote, and what follows it. -/
def readUnits : List Char → Option (List CodeUnit × List Char)
  | [] => none
  | '"' :: r => some ([], r)
  | '\\' :: 'u' :: a :: b :: c :: d :: r => do
    let u ← hex4 a b c d
    let (us, r) ← readUnits r
    some (.unit u :: us, r)
  | '\\' :: c :: r => do
    let e ← unescape c
    let (us, r) ← readUnits r
    some (.char e :: us, r)
  | c :: r => do
    if c = '\\' ∨ c.toNat < 32 then none
    let (us, r) ← readUnits r
    some (.char c :: us, r)

def readString (s : List Char) : Option (String × List Char) := do
  let (us, r) ← readUnits s
  some (String.ofList (joinUnits us), r)

mutual

/-- One value at the front of a text, and what follows it. -/
def readValue : Nat → List Char → Option (Json × List Char)
  | 0, _ => none
  | n + 1, s => match s with
    | '{' :: r => match skipWs r with
      | '}' :: r => some (obj [], r)
      | r => do
        let (m, r) ← readMembers n r
        some (obj m, r)
    | '[' :: r => match skipWs r with
      | ']' :: r => some (arr [], r)
      | r => do
        let (l, r) ← readElements n r
        some (arr l, r)
    | '"' :: r => do
      let (k, r) ← readString r
      some (str k, r)
    | 'n' :: 'u' :: 'l' :: 'l' :: r => some (null, r)
    | 't' :: 'r' :: 'u' :: 'e' :: r => some (bool true, r)
    | 'f' :: 'a' :: 'l' :: 's' :: 'e' :: r => some (bool false, r)
    | s => do
      let (d, r) ← Js.Dec.readNumber s
      some (num d, r)

/-- One or more elements, and the closing bracket. -/
def readElements : Nat → List Char → Option (List Json × List Char)
  | 0, _ => none
  | n + 1, s => do
    let (v, r) ← readValue n s
    match skipWs r with
    | ']' :: r => some ([v], r)
    | ',' :: r => do
      let (l, r) ← readElements n (skipWs r)
      some (v :: l, r)
    | _ => none

/-- One or more members, and the closing brace. -/
def readMembers : Nat → List Char → Option (List (String × Json) × List Char)
  | 0, _ => none
  | n + 1, s => match s with
    | '"' :: r => do
      let (k, r) ← readString r
      match skipWs r with
      | ':' :: r => do
        let (v, r) ← readValue n (skipWs r)
        match skipWs r with
        | '}' :: r => some ([(k, v)], r)
        | ',' :: r => do
          let (m, r) ← readMembers n (skipWs r)
          some ((k, v) :: m, r)
        | _ => none
      | _ => none
    | _ => none

end

/-- `JSON.parse`: one value, with nothing but white space around it. Every recursive
read consumes a character, so the length bounds the nesting. -/
def parse (s : List Char) : Option Json := do
  let (v, r) ← readValue (s.length + 1) (skipWs s)
  if (skipWs r).isEmpty then some v else none

end Json
