/-
# WarmLogic.Lib.Json — JSON values, the texts that Python's `json.dumps` makes of them, and `json.loads`.

A text is a list of characters. `dumps` is `json.dumps(v, indent=2)` and `dumpsSorted` is `json.dumps(v,
sort_keys=True)`, with their default `ensure_ascii`: everything but printable ASCII is escaped in strings. `loads` follows the scanner of `json.decoder`: whitespace between tokens, the
number pattern, strings with their escapes, `dict(pairs)` for an object. Its recursion is bounded by the length of the
text.

A float is known by the literal that `float.__repr__` prints for it. `NaN` and the infinities, which are not JSON, are
left out, and so are strings with unpaired surrogates, which are no sequences of characters.
-/
import Mathlib.Data.List.Basic

namespace WarmLogic.Lib

/-! ## Values -/

inductive Json where
  | null
  | bool (b : Bool)
  | int (n : Int)
  /-- a float, by its literal -/
  | float (literal : List Char)
  | str (s : List Char)
  | arr (items : List Json)
  /-- a dict, in the order of insertion -/
  | obj (pairs : List (List Char × Json))

namespace Json

/-- `d[key] = value`: in place where the key is there, else at the end. -/
def setItem (d : List (List Char × Json)) (key : List Char) (value : Json) : List (List Char × Json) :=
  match d with
  | [] => [(key, value)]
  | (k, v) :: rest => if k = key then (k, value) :: rest else (k, v) :: setItem rest key value

/-- `d.get(key)`. -/
def getItem (d : List (List Char × Json)) (key : List Char) : Option Json :=
  (d.find? fun pair => pair.1 == key).map (·.2)

/-- `dict(pairs)`: a later value for a key replaces an earlier one. -/
def ofPairs (pairs : List (List Char × Json)) : List (List Char × Json) :=
  pairs.foldl (fun d pair => setItem d pair.1 pair.2) []

/-! ## Printing -/

/-- A hexadecimal digit, as `format(n, 'x')` has it. -/
def hexDigit (n : Nat) : Char := if n < 10 then Char.ofNat (48 + n) else Char.ofNat (87 + n)

/-- `'\\u{0:04x}'.format(n)`. -/
def uEscape (n : Nat) : List Char :=
  ['\\', 'u', hexDigit (n / 4096 % 16), hexDigit (n / 256 % 16), hexDigit (n / 16 % 16), hexDigit (n % 16)]

/-- `ESCAPE_DCT`: the characters that a backslash and a letter stand for. -/
def escapeDct : List (Char × Char) :=
  [('\\', '\\'), ('"', '"'), (Char.ofNat 8, 'b'), (Char.ofNat 12, 'f'), ('\n', 'n'), ('\r', 'r'), ('\t', 't')]

/-- One character inside a string. -/
def escape (c : Char) : List Char :=
  match escapeDct.lookup c with
  | some letter => ['\\', letter]
  | none =>
      if 32 ≤ c.toNat ∧ c.toNat ≤ 126 then [c]
      else if c.toNat < 65536 then uEscape c.toNat
      else
        -- a surrogate pair
        uEscape (55296 + (c.toNat - 65536) / 1024) ++ uEscape (56320 + (c.toNat - 65536) % 1024)

/-- A string with its quotes. -/
def quote (s : List Char) : List Char := '"' :: s.flatMap escape ++ ['"']

/-- A decimal digit. -/
def digit (n : Nat) : Char := Char.ofNat (48 + n)

/-- The decimal digits of a number. -/
def decimal (n : Nat) : List Char := if n < 10 then [digit n] else decimal (n / 10) ++ [digit (n % 10)]
termination_by n
decreasing_by omega

/-- `int.__repr__`. -/
def intText (n : Int) : List Char := if n < 0 then '-' :: decimal n.natAbs else decimal n.natAbs

/-- A line break and the indentation of a level. -/
def newline (level : Nat) : List Char := '\n' :: List.replicate (2 * level) ' '

mutual

/-- A value on a level of indentation. -/
def text (level : Nat) : Json → List Char
  | .null => ['n', 'u', 'l', 'l']
  | .bool true => ['t', 'r', 'u', 'e']
  | .bool false => ['f', 'a', 'l', 's', 'e']
  | .int n => intText n
  | .float literal => literal
  | .str s => quote s
  | .arr [] => ['[', ']']
  | .arr (item :: items) => '[' :: newline (level + 1) ++ text (level + 1) item ++ itemsText level items
  | .obj [] => ['{', '}']
  | .obj ((key, value) :: pairs) =>
      '{' :: newline (level + 1) ++ quote key ++ [':', ' '] ++ text (level + 1) value ++ pairsText level pairs

/-- What follows an item of a list. -/
def itemsText (level : Nat) : List Json → List Char
  | [] => newline level ++ [']']
  | item :: items => ',' :: newline (level + 1) ++ text (level + 1) item ++ itemsText level items

/-- What follows a pair of a dict. -/
def pairsText (level : Nat) : List (List Char × Json) → List Char
  | [] => newline level ++ ['}']
  | (key, value) :: pairs =>
      ',' :: newline (level + 1) ++ quote key ++ [':', ' '] ++ text (level + 1) value ++ pairsText level pairs

end

/-- `json.dumps(v, indent=2)`. -/
def dumps (v : Json) : List Char := text 0 v

/-- `a <= b` for strings, by code points. -/
def leChars : List Char → List Char → Bool
  | [], _ => true
  | _ :: _, [] => false
  | a :: s, b :: t => if a = b then leChars s t else decide (a.toNat < b.toNat)

/-- The members between brackets, with `", "` between them. -/
def joined (members : List (List Char)) : List Char := List.intercalate [',', ' '] members

mutual

/-- `json.dumps(v, sort_keys=True)`. -/
def dumpsSorted : Json → List Char
  | .null => ['n', 'u', 'l', 'l']
  | .bool true => ['t', 'r', 'u', 'e']
  | .bool false => ['f', 'a', 'l', 's', 'e']
  | .int n => intText n
  | .float literal => literal
  | .str s => quote s
  | .arr items => '[' :: joined (dumpsItems items) ++ [']']
  | .obj pairs =>
      let sorted := (dumpsPairs pairs).mergeSort fun a b => leChars a.1 b.1
      '{' :: joined (sorted.map fun pair => quote pair.1 ++ [':', ' '] ++ pair.2) ++ ['}']

def dumpsItems : List Json → List (List Char)
  | [] => []
  | item :: items => dumpsSorted item :: dumpsItems items

def dumpsPairs : List (List Char × Json) → List (List Char × List Char)
  | [] => []
  | (key, value) :: pairs => (key, dumpsSorted value) :: dumpsPairs pairs

end

/-! ## Scanning -/

/-- `[ \t\n\r]`. -/
def isWs (c : Char) : Bool := c == ' ' || c == '\t' || c == '\n' || c == '\r'

def skipWs (s : List Char) : List Char := s.dropWhile isWs

/-- `[0-9]`. -/
def isDigit (c : Char) : Bool := decide (48 ≤ c.toNat) && decide (c.toNat ≤ 57)

/-- `int(text)` of decimal digits. -/
def ofDecimal (ds : List Char) : Nat := ds.foldl (fun n c => 10 * n + (c.toNat - 48)) 0

/-- `0|[1-9][0-9]*`: what matches, and what follows. -/
def scanDigits (s : List Char) : Option (List Char × List Char) :=
  match s with
  | [] => none
  | c :: r =>
      if c = '0' then some (['0'], r)
      else if isDigit c then some (s.takeWhile isDigit, s.dropWhile isDigit)
      else none

/-- `-?(0|[1-9][0-9]*)`: whether there is a sign, the digits, and what follows. -/
def scanInt (s : List Char) : Option (Bool × List Char × List Char) :=
  match s with
  | '-' :: r => (scanDigits r).map fun (digits, r) => (true, digits, r)
  | _ => (scanDigits s).map fun (digits, r) => (false, digits, r)

/-- `(\.[0-9]+)?`: what matches, and what follows. -/
def scanFrac (s : List Char) : List Char × List Char :=
  match s with
  | '.' :: r => if r.takeWhile isDigit = [] then ([], s) else ('.' :: r.takeWhile isDigit, r.dropWhile isDigit)
  | _ => ([], s)

/-- The sign of an exponent. -/
def scanSign (s : List Char) : List Char × List Char :=
  match s with
  | '+' :: r => (['+'], r)
  | '-' :: r => (['-'], r)
  | _ => ([], s)

/-- `([eE][-+]?[0-9]+)?`. -/
def scanExp (s : List Char) : List Char × List Char :=
  match s with
  | c :: r =>
      if (c = 'e' ∨ c = 'E') ∧ (scanSign r).2.takeWhile isDigit ≠ [] then
        (c :: (scanSign r).1 ++ (scanSign r).2.takeWhile isDigit, (scanSign r).2.dropWhile isDigit)
      else ([], s)
  | [] => ([], s)

/-- A number: an int, unless there is a fraction or an exponent. -/
def scanNumber (s : List Char) : Option (Json × List Char) :=
  (scanInt s).map fun (negative, digits, r) =>
    let (frac, r) := scanFrac r
    let (exp, r) := scanExp r
    if frac = [] ∧ exp = [] then (.int (if negative then -(ofDecimal digits : Int) else ofDecimal digits), r)
    else (.float ((if negative then ['-'] else []) ++ digits ++ frac ++ exp), r)

/-- `[0-9A-Fa-f]`, as a number. -/
def hexVal (c : Char) : Option Nat :=
  if 48 ≤ c.toNat ∧ c.toNat ≤ 57 then some (c.toNat - 48)
  else if 97 ≤ c.toNat ∧ c.toNat ≤ 102 then some (c.toNat - 87)
  else if 65 ≤ c.toNat ∧ c.toNat ≤ 70 then some (c.toNat - 55)
  else none

/-- Four hexadecimal digits. -/
def scanHex4 (s : List Char) : Option (Nat × List Char) :=
  match s with
  | a :: b :: c :: d :: r => do
      let a ← hexVal a
      let b ← hexVal b
      let c ← hexVal c
      let d ← hexVal d
      return (4096 * a + 256 * b + 16 * c + d, r)
  | _ => none

/-- What follows `\u`: a character, or the first half of one whose second half follows. -/
def scanUnicode (s : List Char) : Option (Char × List Char) := do
  let (n, r) ← scanHex4 s
  if 55296 ≤ n ∧ n ≤ 56319 then
    match r with
    | '\\' :: 'u' :: r => do
        let (n', r) ← scanHex4 r
        if 56320 ≤ n' ∧ n' ≤ 57343 then return (Char.ofNat (65536 + (n - 55296) * 1024 + (n' - 56320)), r) else none
    | _ => none
  else if 56320 ≤ n ∧ n ≤ 57343 then none
  else return (Char.ofNat n, r)

/-- `BACKSLASH`: what a letter after a backslash stands for. -/
def backslash : List (Char × Char) :=
  [('"', '"'), ('\\', '\\'), ('/', '/'), ('b', Char.ofNat 8), ('f', Char.ofNat 12), ('n', '\n'), ('r', '\r'),
    ('t', '\t')]

/-- What follows a backslash. -/
def scanEscape (s : List Char) : Option (Char × List Char) :=
  match s with
  | [] => none
  | c :: r => if c = 'u' then scanUnicode r else (backslash.lookup c).map fun c => (c, r)

/-- A string from behind its opening quote, in at most so many characters. -/
def scanString : Nat → List Char → Option (List Char × List Char)
  | 0, _ => none
  | _ + 1, [] => none
  | rounds + 1, c :: r =>
      if c = '"' then some ([], r)
      else if c = '\\' then do
        let (c, r) ← scanEscape r
        let (s, r) ← scanString rounds r
        return (c :: s, r)
      else if c.toNat < 32 then none
      else do
        let (s, r) ← scanString rounds r
        return (c :: s, r)

/-- The rest of `null`, `true` or `false`. -/
def scanLiteral (word : List Char) (v : Json) (r : List Char) : Option (Json × List Char) :=
  if word <+: r then some (v, r.drop word.length) else none

mutual

/-- `scan_once`. -/
def scanOnce : Nat → List Char → Option (Json × List Char)
  | 0, _ => none
  | _ + 1, [] => none
  | rounds + 1, c :: r =>
      if c = '"' then (scanString r.length r).map fun (s, r) => (.str s, r)
      else if c = '{' then
        match skipWs r with
        | [] => none
        | c :: r =>
            if c = '}' then some (.obj [], r)
            else if c = '"' then (scanPairs rounds r).map fun (pairs, r) => (.obj (ofPairs pairs), r)
            else none
      else if c = '[' then
        match skipWs r with
        | [] => none
        | c :: r' =>
            if c = ']' then some (.arr [], r')
            else (scanItems rounds (skipWs r)).map fun (items, r) => (.arr items, r)
      else if c = 'n' then scanLiteral ['u', 'l', 'l'] .null r
      else if c = 't' then scanLiteral ['r', 'u', 'e'] (.bool true) r
      else if c = 'f' then scanLiteral ['a', 'l', 's', 'e'] (.bool false) r
      else scanNumber (c :: r)

/-- The pairs of an object, from behind the opening quote of a key. -/
def scanPairs : Nat → List Char → Option (List (List Char × Json) × List Char)
  | 0, _ => none
  | rounds + 1, s => do
      let (key, r) ← scanString s.length s
      match skipWs r with
      | [] => none
      | c :: r =>
          if c = ':' then do
            let (value, r) ← scanOnce rounds (skipWs r)
            match skipWs r with
            | [] => none
            | c :: r =>
                if c = '}' then some ([(key, value)], r)
                else if c = ',' then
                  match skipWs r with
                  | [] => none
                  | c :: r =>
                      if c = '"' then (scanPairs rounds r).map fun (pairs, r) => ((key, value) :: pairs, r)
                      else none
                else none
          else none

/-- The items of an array, from the first on. -/
def scanItems : Nat → List Char → Option (List Json × List Char)
  | 0, _ => none
  | rounds + 1, s => do
      let (item, r) ← scanOnce rounds s
      match skipWs r with
      | [] => none
      | c :: r =>
          if c = ']' then some ([item], r)
          else if c = ',' then (scanItems rounds (skipWs r)).map fun (items, r) => (item :: items, r)
          else none

end

/-- `json.loads`; `none` is its `JSONDecodeError`. -/
def loads (s : List Char) : Option Json :=
  (scanOnce ((skipWs s).length + 1) (skipWs s)).bind fun (v, r) => if skipWs r = [] then some v else none

end Json

end WarmLogic.Lib
