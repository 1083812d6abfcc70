import Exlic.Py.Utf8

/-! # SHA-1

The message is padded to whole blocks of 16 words; each block is expanded to 80 words, which 80
rounds mix into the five words of the state. `hexdigest` writes the state in hexadecimal. -/

namespace Exlic.Py.Sha1

open Exlic.Py.Strings Exlic.Py.Utf8

/-- The five words of the state. -/
structure Hash where
  a : UInt32
  b : UInt32
  c : UInt32
  d : UInt32
  e : UInt32

/-- The state before the first block. -/
def init : Hash := ⟨0x67452301, 0xEFCDAB89, 0x98BADCFE, 0x10325476, 0xC3D2E1F0⟩

def rotl (x n : UInt32) : UInt32 := (x <<< n) ||| (x >>> (32 - n))

/-- A one bit, zeros up to 8 bytes below a multiple of 64, and the length in bits. -/
def pad (m : Bytes) : Bytes :=
  m ++ (0x80 : UInt8) :: List.replicate ((119 - m.length % 64) % 64) 0 ++
    (List.range 8).map fun i => byte ((8 * m.length) >>> (8 * (7 - i)) % 256)

/-- Big-endian words. -/
def words : Bytes → List UInt32
  | a :: b :: c :: d :: m =>
    (a.toUInt32 <<< 24 ||| b.toUInt32 <<< 16 ||| c.toUInt32 <<< 8 ||| d.toUInt32) :: words m
  | _ => []

/-- The next `n` words of the schedule; `w` holds the 16 words that are due next. -/
def schedule : ℕ → List UInt32 → List UInt32
  | 0, _ => []
  | n + 1, w =>
    w.getD 0 0 :: schedule n
      (w.drop 1 ++ [rotl (w.getD 13 0 ^^^ w.getD 8 0 ^^^ w.getD 2 0 ^^^ w.getD 0 0) 1])

/-- The function and the constant of round `t`. -/
def mix (t : ℕ) (b c d : UInt32) : UInt32 :=
  if t < 20 then ((b &&& c) ||| (~~~b &&& d)) + 0x5A827999
  else if t < 40 then (b ^^^ c ^^^ d) + 0x6ED9EBA1
  else if t < 60 then ((b &&& c) ||| (b &&& d) ||| (c &&& d)) + 0x8F1BBCDC
  else (b ^^^ c ^^^ d) + 0xCA62C1D6

/-- The rounds from `t` on, one for each word. -/
def rounds : ℕ → Hash → List UInt32 → Hash
  | _, s, [] => s
  | t, s, w :: ws =>
    rounds (t + 1) ⟨rotl s.a 5 + mix t s.b s.c s.d + s.e + w, s.a, rotl s.b 30, s.c, s.d⟩ ws

/-- One block. -/
def block (s : Hash) (w : List UInt32) : Hash :=
  let r := rounds 0 s (schedule 80 w)
  ⟨s.a + r.a, s.b + r.b, s.c + r.c, s.d + r.d, s.e + r.e⟩

/-- The first `n` blocks. -/
def blocks : ℕ → List UInt32 → Hash → Hash
  | 0, _, s => s
  | n + 1, ws, s => blocks n (ws.drop 16) (block s (ws.take 16))

def sha1 (m : Bytes) : Hash :=
  let ws := words (pad m)
  blocks (ws.length / 16) ws init

/-- The eight digits of a word. -/
def hexWord (w : UInt32) : Str :=
  (List.range 8).map fun i => hexDigit (w.toNat >>> (4 * (7 - i)) % 16)

/-- `hashlib.sha1(m).hexdigest()`. -/
def hexdigest (m : Bytes) : Str :=
  let s := sha1 m
  hexWord s.a ++ hexWord s.b ++ hexWord s.c ++ hexWord s.d ++ hexWord s.e

/-- The digest of `abc`. -/
example : hexdigest [0x61, 0x62, 0x63] =
    str ['a', '9', '9', '9', '3', 'e', '3', '6', '4', '7', '0', '6', '8', '1', '6', 'a',
      'b', 'a', '3', 'e', '2', '5', '7', '1', '7', '8', '5', '0', 'c', '2', '6', 'c',
      '9', 'c', 'd', '0', 'd', '8', '9', 'd'] := by decide +kernel

end Exlic.Py.Sha1
