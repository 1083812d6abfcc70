import Mathlib.Data.List.Basic
import Mathlib.Data.Fin.Basic

/-! # Python strings

A `str` is a list of code points, the surrogates included. `partition` and `rpartition` are the
methods of that name, for a separator of one character. -/

namespace Exlic.Py.Strings

/-- A code point. -/
abbrev Code : Type := Fin 0x110000

/-- A Python string. -/
abbrev Str : Type := List Code

/-- The code point of a character. -/
def chr (c : Char) : Code := Fin.ofNat 0x110000 c.toNat

/-- A string of characters. -/
def str (cs : List Char) : Str := cs.map chr

/-- The code point of a number, which is at most `U+10FFFF` wherever this is used. -/
def code (n : ℕ) : Code := Fin.ofNat 0x110000 n

theorem val_code {n : ℕ} (h : n < 0x110000) : (code n).val = n := Nat.mod_eq_of_lt h

theorem code_val (c : Code) : code c.val = c := Fin.ext (val_code c.isLt)

/-- The digit `0` to `f` of a number below 16. -/
def hexDigit (n : ℕ) : Code := if n < 10 then code (0x30 + n) else code (0x57 + n)

/-- A high surrogate, the first half of a pair. -/
def High (c : Code) : Prop := 0xD800 ≤ c.val ∧ c.val ≤ 0xDBFF

/-- A low surrogate, the second half of a pair. -/
def Low (c : Code) : Prop := 0xDC00 ≤ c.val ∧ c.val ≤ 0xDFFF

instance (c : Code) : Decidable (High c) := by unfold High; infer_instance
instance (c : Code) : Decidable (Low c) := by unfold Low; infer_instance

variable {α : Type} [DecidableEq α]

/-- `s.partition(sep)`: what is before the first `sep`, the separator, and what is after. -/
def partition (sep : α) : List α → List α × List α × List α
  | [] => ([], [], [])
  | c :: s =>
    if c = sep then ([], [sep], s)
    else
      let (head, mid, tail) := partition sep s
      (c :: head, mid, tail)

/-- `s.rpartition(sep)`: what is before the last `sep`, the separator, and what is after. -/
def rpartition (sep : α) (s : List α) : List α × List α × List α :=
  let (tail, mid, head) := partition sep s.reverse
  (head.reverse, mid, tail.reverse)

theorem partition_spec (sep : α) : ∀ s : List α,
    (partition sep s).1 ++ (partition sep s).2.1 ++ (partition sep s).2.2 = s ∧
      sep ∉ (partition sep s).1 ∧
      ((partition sep s).2.1 = [sep] ∨ (partition sep s).2.1 = [] ∧ (partition sep s).2.2 = [])
  | [] => by simp [partition]
  | c :: s => by
    obtain ⟨h1, h2, h3⟩ := partition_spec sep s
    unfold partition
    split_ifs with h
    · subst h
      simp
    · refine ⟨?_, ?_, h3⟩
      · simpa using h1
      · simp only [List.mem_cons, not_or]
        exact ⟨fun he => h he.symm, h2⟩

/-- The part after the last separator does not contain it. -/
theorem notMem_rpartition (sep : α) (s : List α) : sep ∉ (rpartition sep s).2.2 := by
  have h := (partition_spec sep s.reverse).2.1
  simpa [rpartition] using h

/-- The separator is found, or everything is in the last part. -/
theorem rpartition_spec (sep : α) (s : List α) :
    (rpartition sep s).1 ++ (rpartition sep s).2.1 ++ (rpartition sep s).2.2 = s ∧
      ((rpartition sep s).2.1 = [sep] ∨
        (rpartition sep s).2.1 = [] ∧ (rpartition sep s).1 = []) := by
  obtain ⟨h1, -, h3⟩ := partition_spec sep s.reverse
  have hmid : (partition sep s.reverse).2.1.reverse = (partition sep s.reverse).2.1 := by
    rcases h3 with h3 | ⟨h3, -⟩ <;> rw [h3] <;> rfl
  constructor
  · have h := congrArg List.reverse h1
    rw [List.reverse_append, List.reverse_append, List.reverse_reverse, hmid] at h
    rw [← List.append_assoc] at h
    exact h
  · rcases h3 with h3 | ⟨h3, h4⟩
    · exact Or.inl h3
    · exact Or.inr ⟨h3, by simp [rpartition, h4]⟩

end Exlic.Py.Strings
