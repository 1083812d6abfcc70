import Exlic.Lib.Dict
import Exlic.Py.Utf8

/-! # The module `json`, for strings, lists and dicts

`dumps` writes a value with `ensure_ascii=True`: every character outside the printable ASCII ones
becomes `\uXXXX`, those above `U+FFFF` a pair of them. `loads` reads a text back; it joins an
escaped high surrogate with an escaped low one right after it, and of equal keys of an object it
keeps the last value at the first place, as a `dict` does.

Numbers and the constants `true`, `false`, `null` are not modelled; `loads` refuses them. -/

namespace Exlic.Py.Json

open Exlic.Lib.Dict Exlic.Py.Strings

/-- A value. The keys of an object that was read are distinct. -/
inductive Value where
  | str (s : Str)
  | arr (xs : List Value)
  | obj (kvs : List (Str × Value))

/-! ### Writing -/

def quote : Code := chr '"'
def backslash : Code := chr '\\'
def comma : Code := chr ','
def colon : Code := chr ':'
def lbracket : Code := chr '['
def rbracket : Code := chr ']'
def lbrace : Code := chr '\x7b'
def rbrace : Code := chr '\x7d'
def space : Code := chr ' '

/-- The escapes of one letter: the character and its letter. -/
def shortEscapes : List (Code × Code) :=
  [(quote, quote), (backslash, backslash), (code 0x08, chr 'b'), (code 0x0C, chr 'f'),
    (code 0x0A, chr 'n'), (code 0x0D, chr 'r'), (code 0x09, chr 't')]

/-- `\uXXXX`. -/
def unicodeEscape (n : ℕ) : Str :=
  [backslash, chr 'u', hexDigit (n / 4096), hexDigit (n / 256 % 16), hexDigit (n / 16 % 16),
    hexDigit (n % 16)]

/-- How a character is written. -/
def escape (c : Code) : Str :=
  match shortEscapes.lookup c with
  | some e => [backslash, e]
  | none =>
    if 0x20 ≤ c.val ∧ c.val ≤ 0x7E then [c]
    else if c.val < 0x10000 then unicodeEscape c.val
    else
      unicodeEscape (0xD800 + (c.val - 0x10000) / 1024) ++
        unicodeEscape (0xDC00 + (c.val - 0x10000) % 1024)

def dumpsStr (s : Str) : Str := quote :: s.flatMap escape ++ [quote]

mutual

/-- `json.dumps(v, ensure_ascii=True)`. -/
def dumps : Value → Str
  | .str s => dumpsStr s
  | .arr [] => [lbracket, rbracket]
  | .arr (x :: xs) => lbracket :: dumps x ++ dumpsElems xs
  | .obj [] => [lbrace, rbrace]
  | .obj ((k, v) :: kvs) => lbrace :: dumpsStr k ++ colon :: space :: dumps v ++ dumpsPairs kvs

/-- The elements after the first one, and the closing bracket. -/
def dumpsElems : List Value → Str
  | [] => [rbracket]
  | x :: xs => comma :: space :: dumps x ++ dumpsElems xs

/-- The pairs after the first one, and the closing brace. -/
def dumpsPairs : List (Str × Value) → Str
  | [] => [rbrace]
  | (k, v) :: kvs =>
    comma :: space :: dumpsStr k ++ colon :: space :: dumps v ++ dumpsPairs kvs

end

/-! ### Reading -/

/-- The value of a hexadecimal digit. -/
def hexVal (c : Code) : Option ℕ :=
  if 0x30 ≤ c.val ∧ c.val ≤ 0x39 then some (c.val - 0x30)
  else if 0x61 ≤ c.val ∧ c.val ≤ 0x66 then some (c.val - 0x57)
  else if 0x41 ≤ c.val ∧ c.val ≤ 0x46 then some (c.val - 0x37)
  else none

/-- The code point of four hexadecimal digits. -/
def unhex (a b c d : Code) : Option Code :=
  match hexVal a, hexVal b, hexVal c, hexVal d with
  | some a, some b, some c, some d => some (code (a * 4096 + b * 256 + c * 16 + d))
  | _, _, _, _ => none

/-- The character of a surrogate pair. -/
def pair (h l : Code) : Code := code (0x10000 + (h.val - 0xD800) * 1024 + (l.val - 0xDC00))

/-- The character of a one-letter escape. -/
def unescape (e : Code) : Option Code :=
  if e = chr '/' then some e else (shortEscapes.map Prod.swap).lookup e

/-- Puts a character before what was read. -/
def push (c : Code) : Option (Str × Str) → Option (Str × Str) := Option.map fun p => (c :: p.1, p.2)

/-- Reads a string after its opening quote; also returns the rest of the text. -/
def scanstring : Str → Option (Str × Str)
  | [] => none
  | c :: s =>
    if c = quote then some ([], s)
    else if c = backslash then
      match s with
      | [] => none
      | e :: s₁ =>
        if e = chr 'u' then
          match s₁ with
          | a :: b :: c :: d :: s₂ =>
            match unhex a b c d with
            | none => none
            | some h =>
              if High h then
                match s₂ with
                | x :: y :: a :: b :: c :: d :: s₃ =>
                  if x = backslash ∧ y = chr 'u' then
                    match unhex a b c d with
                    | none => none
                    | some l =>
                      if Low l then push (pair h l) (scanstring s₃)
                      -- not a pair: the second escape is read again, on its own
                      else push h (scanstring (x :: y :: a :: b :: c :: d :: s₃))
                  else push h (scanstring (x :: y :: a :: b :: c :: d :: s₃))
                | s₂ => push h (scanstring s₂)
              else push h (scanstring s₂)
          | _ => none
        else
          match unescape e with
          | none => none
          | some c => push c (scanstring s₁)
    -- a control character
    else if c.val < 0x20 then none
    else push c (scanstring s)

def isSpace (c : Code) : Bool := c = space || c = chr '\t' || c = chr '\n' || c = chr '\r'

def skipSpace (s : Str) : Str := s.dropWhile isSpace

mutual

/-- Reads one value; also returns the rest of the text. -/
def scanOnce : ℕ → Str → Option (Value × Str)
  | 0, _ => none
  | _ + 1, [] => none
  | n + 1, c :: s =>
    if c = quote then (scanstring s).map fun p => (.str p.1, p.2)
    else if c = lbracket then
      match skipSpace s with
      | [] => none
      | c :: s =>
        if c = rbracket then some (.arr [], s)
        else (scanElems n (c :: s)).map fun p => (.arr p.1, p.2)
    else if c = lbrace then
      match skipSpace s with
      | [] => none
      | c :: s =>
        if c = rbrace then some (.obj [], s)
        else (scanPairs n (c :: s)).map fun p => (.obj (dictOf p.1), p.2)
    else none

/-- Reads the elements of a list up to the closing bracket. -/
def scanElems : ℕ → Str → Option (List Value × Str)
  | 0, _ => none
  | n + 1, s =>
    match scanOnce n s with
    | none => none
    | some (x, s) =>
      match skipSpace s with
      | [] => none
      | c :: s =>
        if c = rbracket then some ([x], s)
        else if c = comma then (scanElems n (skipSpace s)).map fun p => (x :: p.1, p.2)
        else none

/-- Reads the pairs of an object up to the closing brace. -/
def scanPairs : ℕ → Str → Option (List (Str × Value) × Str)
  | 0, _ => none
  | _ + 1, [] => none
  | n + 1, q :: s =>
    if q = quote then
      match scanstring s with
      | none => none
      | some (k, s) =>
        match skipSpace s with
        | [] => none
        | c :: s =>
          if c = colon then
            match scanOnce n (skipSpace s) with
            | none => none
            | some (v, s) =>
              match skipSpace s with
              | [] => none
              | c :: s =>
                if c = rbrace then some ([(k, v)], s)
                else if c = comma then
                  (scanPairs n (skipSpace s)).map fun p => ((k, v) :: p.1, p.2)
                else none
          else none
    else none

end

/-- `json.loads(s)`; `none` is a `JSONDecodeError`. -/
def loads (s : Str) : Option Value :=
  match scanOnce (s.length + 1) (skipSpace s) with
  | some (v, s) => if skipSpace s = [] then some v else none
  | none => none

end Exlic.Py.Json
