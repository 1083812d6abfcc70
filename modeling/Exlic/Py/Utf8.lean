import Exlic.Py.Strings
import Mathlib.Tactic.SplitIfs

/-! # The codec `utf-8` with the error handler `surrogateescape`

`decode` reads the well-formed sequences of UTF-8 (the table of RFC 3629: no overlong forms, no
surrogates, nothing above `U+10FFFF`); every byte `b` outside of them becomes the lone surrogate
`U+DC00 + b`. `encode` writes these surrogates as their bytes and raises, here `none`, on all
others.

* `encode_decode`: decoding loses nothing, whatever the bytes.
* `not_high_of_mem_decode`: a decoded text has no high surrogate; so no two of its code points form
  a surrogate pair. -/

namespace Exlic.Py.Utf8

open Exlic.Py.Strings

abbrev Bytes : Type := List UInt8

/-- The byte of a number, which is below 256 wherever this is used. -/
def byte (n : ℕ) : UInt8 := UInt8.ofNat n

theorem byte_eq {n : ℕ} {b : UInt8} (h : n = b.toNat) : byte n = b := by
  rw [byte, h]; exact UInt8.ofNat_toNat

/-! ### Encoding -/

/-- The bytes of one code point. -/
def encodeCode (c : Code) : Option Bytes :=
  let n := c.val
  if n < 0x80 then some [byte n]
  else if n < 0x800 then some [byte (0xC0 + n / 64), byte (0x80 + n % 64)]
  else if 0xDC80 ≤ n ∧ n ≤ 0xDCFF then some [byte (n - 0xDC00)]
  else if 0xD800 ≤ n ∧ n ≤ 0xDFFF then none
  else if n < 0x10000 then
    some [byte (0xE0 + n / 4096), byte (0x80 + n / 64 % 64), byte (0x80 + n % 64)]
  else
    some [byte (0xF0 + n / 262144), byte (0x80 + n / 4096 % 64), byte (0x80 + n / 64 % 64),
      byte (0x80 + n % 64)]

/-- `text.encode('utf-8', 'surrogateescape')`. -/
def encode : Str → Option Bytes
  | [] => some []
  | c :: s =>
    match encodeCode c, encode s with
    | some b, some bs => some (b ++ bs)
    | _, _ => none

/-! ### Decoding -/

/-- `UTF8-tail`. -/
def Tail (b : UInt8) : Prop := 0x80 ≤ b.toNat ∧ b.toNat ≤ 0xBF

/-- The sequences of two bytes. -/
def Two (a b : UInt8) : Prop := 0xC2 ≤ a.toNat ∧ a.toNat ≤ 0xDF ∧ Tail b

/-- The sequences of three bytes. -/
def Three (a b c : UInt8) : Prop :=
  ((a.toNat = 0xE0 ∧ 0xA0 ≤ b.toNat ∧ b.toNat ≤ 0xBF) ∨
    (0xE1 ≤ a.toNat ∧ a.toNat ≤ 0xEC ∧ Tail b) ∨
    (a.toNat = 0xED ∧ 0x80 ≤ b.toNat ∧ b.toNat ≤ 0x9F) ∨
    (0xEE ≤ a.toNat ∧ a.toNat ≤ 0xEF ∧ Tail b)) ∧ Tail c

/-- The sequences of four bytes. -/
def Four (a b c d : UInt8) : Prop :=
  ((a.toNat = 0xF0 ∧ 0x90 ≤ b.toNat ∧ b.toNat ≤ 0xBF) ∨
    (0xF1 ≤ a.toNat ∧ a.toNat ≤ 0xF3 ∧ Tail b) ∨
    (a.toNat = 0xF4 ∧ 0x80 ≤ b.toNat ∧ b.toNat ≤ 0x8F)) ∧ Tail c ∧ Tail d

instance (b : UInt8) : Decidable (Tail b) := by unfold Tail; infer_instance
instance (a b : UInt8) : Decidable (Two a b) := by unfold Two; infer_instance
instance (a b c : UInt8) : Decidable (Three a b c) := by unfold Three; infer_instance
instance (a b c d : UInt8) : Decidable (Four a b c d) := by unfold Four; infer_instance

def code2 (a b : UInt8) : Code := code ((a.toNat - 0xC0) * 64 + (b.toNat - 0x80))

def code3 (a b c : UInt8) : Code :=
  code ((a.toNat - 0xE0) * 4096 + (b.toNat - 0x80) * 64 + (c.toNat - 0x80))

def code4 (a b c d : UInt8) : Code :=
  code ((a.toNat - 0xF0) * 262144 + (b.toNat - 0x80) * 4096 + (c.toNat - 0x80) * 64 +
    (d.toNat - 0x80))

/-- The surrogate a byte is escaped to. -/
def escape (a : UInt8) : Code := code (0xDC00 + a.toNat)

/-- `b.decode('utf-8', 'surrogateescape')`. -/
def decode : Bytes → Str
  | [] => []
  | a :: s =>
    if a.toNat < 0x80 then code a.toNat :: decode s
    else
      match s with
      | [] => [escape a]
      | b :: s₂ =>
        if Two a b then code2 a b :: decode s₂
        else
          match s₂ with
          | [] => escape a :: decode [b]
          | c :: s₃ =>
            if Three a b c then code3 a b c :: decode s₃
            else
              match s₃ with
              | [] => escape a :: decode [b, c]
              | d :: s₄ =>
                if Four a b c d then code4 a b c d :: decode s₄
                else escape a :: decode (b :: c :: d :: s₄)

/-! ### Each sequence is read back -/

theorem encodeCode_ascii {a : UInt8} (h : a.toNat < 0x80) :
    encodeCode (code a.toNat) = some [a] := by
  unfold encodeCode
  simp only [val_code (show a.toNat < 0x110000 by omega)]
  rw [if_pos h, byte_eq rfl]

theorem encodeCode_two {a b : UInt8} (h : Two a b) : encodeCode (code2 a b) = some [a, b] := by
  obtain ⟨h1, h2, h3, h4⟩ := h
  unfold encodeCode code2
  simp only [val_code (show (a.toNat - 0xC0) * 64 + (b.toNat - 0x80) < 0x110000 by omega)]
  rw [if_neg (by omega), if_pos (by omega), byte_eq (b := a) (by omega),
    byte_eq (b := b) (by omega)]

theorem three_bounds {a b c : UInt8} (h : Three a b c) :
    let n := (a.toNat - 0xE0) * 4096 + (b.toNat - 0x80) * 64 + (c.toNat - 0x80)
    0x800 ≤ n ∧ n < 0x10000 ∧ (n < 0xD800 ∨ 0xDFFF < n) ∧
      0xE0 + n / 4096 = a.toNat ∧ 0x80 + n / 64 % 64 = b.toNat ∧ 0x80 + n % 64 = c.toNat := by
  obtain ⟨h, hc⟩ := h
  unfold Tail at h hc
  rcases h with h | h | h | h
  all_goals
    refine ⟨?_, ?_, ?_, ?_, ?_, ?_⟩ <;> omega

theorem encodeCode_three {a b c : UInt8} (h : Three a b c) :
    encodeCode (code3 a b c) = some [a, b, c] := by
  obtain ⟨h1, h2, h3, ha, hb, hc⟩ := three_bounds h
  unfold encodeCode code3
  rw [val_code (by omega)]
  simp only
  rw [if_neg (by omega), if_neg (by omega), if_neg (by omega), if_neg (by omega), if_pos h2,
    byte_eq ha, byte_eq hb, byte_eq hc]

theorem four_bounds {a b c d : UInt8} (h : Four a b c d) :
    let n := (a.toNat - 0xF0) * 262144 + (b.toNat - 0x80) * 4096 + (c.toNat - 0x80) * 64 +
      (d.toNat - 0x80)
    0x10000 ≤ n ∧ n < 0x110000 ∧ 0xF0 + n / 262144 = a.toNat ∧ 0x80 + n / 4096 % 64 = b.toNat ∧
      0x80 + n / 64 % 64 = c.toNat ∧ 0x80 + n % 64 = d.toNat := by
  obtain ⟨h, hc, hd⟩ := h
  unfold Tail at h hc hd
  rcases h with h | h | h
  all_goals
    refine ⟨?_, ?_, ?_, ?_, ?_, ?_⟩ <;> omega

theorem encodeCode_four {a b c d : UInt8} (h : Four a b c d) :
    encodeCode (code4 a b c d) = some [a, b, c, d] := by
  obtain ⟨h1, h2, ha, hb, hc, hd⟩ := four_bounds h
  unfold encodeCode code4
  rw [val_code h2]
  simp only
  rw [if_neg (by omega), if_neg (by omega), if_neg (by omega), if_neg (by omega),
    if_neg (by omega), byte_eq ha, byte_eq hb, byte_eq hc, byte_eq hd]

theorem encodeCode_escape {a : UInt8} (h : 0x80 ≤ a.toNat) :
    encodeCode (escape a) = some [a] := by
  have ha := a.toNat_lt
  unfold encodeCode escape
  rw [val_code (by omega)]
  simp only
  rw [if_neg (by omega), if_neg (by omega), if_pos (by omega), byte_eq (b := a) (by omega)]

theorem encode_cons {c : Code} {b bs : Bytes} {s : Str} (hc : encodeCode c = some b)
    (hs : encode s = some bs) : encode (c :: s) = some (b ++ bs) := by
  rw [encode, hc, hs]

/-- **Decoding loses nothing.** -/
theorem encode_decode (b : Bytes) : encode (decode b) = some b := by
  fun_induction decode b with
  | case1 => rfl
  | case2 a s h ih => exact encode_cons (encodeCode_ascii h) ih
  | case3 a h => exact encode_cons (encodeCode_escape (by omega)) rfl
  | case4 a h b s₂ h2 ih => exact encode_cons (encodeCode_two h2) ih
  | case5 a h b h2 ih => exact encode_cons (encodeCode_escape (by omega)) ih
  | case6 a h b h2 c s₃ h3 ih => exact encode_cons (encodeCode_three h3) ih
  | case7 a h b h2 c h3 ih => exact encode_cons (encodeCode_escape (by omega)) ih
  | case8 a h b h2 c h3 d s₄ h4 ih => exact encode_cons (encodeCode_four h4) ih
  | case9 a h b h2 c h3 d s₄ h4 ih => exact encode_cons (encodeCode_escape (by omega)) ih

/-! ### Texts that can be encoded -/

theorem encode_cons_eq_some {c : Code} {s : Str} {bs : Bytes} (h : encode (c :: s) = some bs) :
    ∃ b bs', encodeCode c = some b ∧ encode s = some bs' ∧ bs = b ++ bs' := by
  unfold encode at h
  split at h
  · next b bs' hc hs => exact ⟨b, bs', hc, hs, (Option.some.inj h).symm⟩
  · cases h

theorem encodeCode_high {c : Code} (h : High c) : encodeCode c = none := by
  obtain ⟨h1, h2⟩ := h
  unfold encodeCode
  simp only
  rw [if_neg (by omega), if_neg (by omega), if_neg (by omega), if_pos (by omega)]

/-- **A text that can be encoded has no high surrogate.** -/
theorem not_high_of_encode : ∀ {s : Str} {bs : Bytes}, encode s = some bs → ∀ c ∈ s, ¬ High c
  | d :: s, bs, h, c, hc => by
    obtain ⟨b, bs', hd, hs, -⟩ := encode_cons_eq_some h
    rcases List.mem_cons.mp hc with rfl | hc
    · intro hh
      rw [encodeCode_high hh] at hd
      cases hd
    · exact not_high_of_encode hs c hc

/-- A decoded text has no high surrogate. -/
theorem not_high_of_mem_decode {b : Bytes} {c : Code} (h : c ∈ decode b) : ¬ High c :=
  not_high_of_encode (encode_decode b) c h

/-- A two-byte character, then a byte that is not UTF-8. -/
example : decode [0xC3, 0xA9, 0xFF] = [0xE9, 0xDCFF] := by decide

end Exlic.Py.Utf8
