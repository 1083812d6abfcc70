import Exlic.Lib.FileTree
import Exlic.Py.Utf8

/-! # Paths and files, as Python on a POSIX system sees them

A path is a string. Its components, between the slashes, are encoded as file names; `''` and `'.'`
stay, `'..'` goes up, and a path that starts with a slash starts at the root, any other one at the
working directory.

`resolve` is the place a path denotes after normalisation, `way` the places a system call passes on
the way to it. `locate` is what `open(s, 'wb')` does before it changes anything: it finds the place
of the file or raises. `openRb` opens a file for reading. -/

namespace Exlic.Py.Paths

open Exlic.Lib.FileTree Exlic.Py.Strings Exlic.Py.Utf8

/-- The exceptions that occur. -/
inductive Exn where
  | unicodeEncodeError
  | valueError
  | attributeError
  | typeError
  | jsonDecodeError
  | osError
  | fileNotFoundError
  | notADirectoryError
  | isADirectoryError
  deriving DecidableEq

/-- A file name. -/
abbrev Name : Type := Bytes

/-- A place in the file tree. -/
abbrev Place : Type := List Name

abbrev Files : Type := Tree Name UInt8

def slash : Code := chr '/'

def nul : Code := code 0

/-- `path.join(a, b)`. -/
def join (a b : Str) : Str :=
  if b.head? = some slash then b
  else if a = [] ∨ a.getLast? = some slash then a ++ b
  else a ++ slash :: b

/-- The components of a path. -/
def splitSlash : Str → List Str
  | [] => [[]]
  | c :: s =>
    if c = slash then [] :: splitSlash s
    else
      match splitSlash s with
      | [] => [[c]]
      | p :: ps => (c :: p) :: ps

/-- Where a component leads. -/
def component (name : Name) : Move Name :=
  if name = [] ∨ name = [0x2E] then .stay
  else if name = [0x2E, 0x2E] then .up
  else .down name

/-- The moves of a path, unless it cannot be encoded. No encoded component contains a slash, as
UTF-8 uses its byte for nothing else. -/
def moves (s : Str) : Option (List (Move Name)) :=
  (splitSlash s).mapM fun c => (encode c).map component

/-- Where a path starts. -/
def start {ν : Type} (cwd : List ν) (s : Str) : List ν := if s.head? = some slash then [] else cwd

/-- The place of a path after normalisation; a path that cannot be encoded or contains a null
character has none. -/
def resolve (cwd : Place) (s : Str) : Option Place :=
  if nul ∈ s then none else (moves s).map (target (start cwd s))

/-- The places a system call passes; it also refuses the empty path. -/
def way (cwd : Place) (s : Str) : Option (List Place) :=
  if s = [] ∨ nul ∈ s then none else (moves s).map (trail (start cwd s))

/-- The file that `open(s, 'wb')` opens, or what it raises. `accepts` are the limits of the file
system on the length of names and paths. -/
def locate (accepts : Str → Bool) (t : Files) (s : Str) : Except Exn Place :=
  match moves s with
  | none => .error .unicodeEncodeError
  | some ms =>
    if nul ∈ s then .error .valueError
    else if ¬ accepts s then .error .osError
    else if s = [] then .error .fileNotFoundError
    else
      match (trail (start t.cwd s) ms.dropLast).find? fun p => ¬ t.IsDir p with
      | some p => .error (if t.IsFile p then .notADirectoryError else .fileNotFoundError)
      | none =>
        let p := target (start t.cwd s) ms
        if t.IsDir p then .error .isADirectoryError else .ok p

/-- What reading the place `p` gives. -/
def contentAt (t : Files) (p : Place) : Except Exn Bytes :=
  match t.get p with
  | none => .error .fileNotFoundError
  | some .dir => .error .isADirectoryError
  | some (.file c) => .ok c

/-- `open(s, 'rb')`: the bytes of the file, or what it raises. -/
def openRb (accepts : Str → Bool) (t : Files) (s : Str) : Except Exn Bytes :=
  match moves s with
  | none => .error .unicodeEncodeError
  | some ms =>
    if nul ∈ s then .error .valueError
    else if ¬ accepts s then .error .osError
    else if s = [] then .error .fileNotFoundError
    else
      match (trail (start t.cwd s) ms.dropLast).find? fun p => ¬ t.IsDir p with
      | some p => .error (if t.IsFile p then .notADirectoryError else .fileNotFoundError)
      | none => contentAt t (target (start t.cwd s) ms)

/-- **What `open` found**: the place of the path, in directories all the way, and no directory
itself. -/
theorem locate_eq_ok {accepts : Str → Bool} {t : Files} {s : Str} {p : Place} :
    locate accepts t s = .ok p ↔ accepts s ∧ ∃ ms, moves s = some ms ∧ nul ∉ s ∧ s ≠ [] ∧
      (∀ q ∈ trail (start t.cwd s) ms.dropLast, t.IsDir q) ∧
      p = target (start t.cwd s) ms ∧ ¬ t.IsDir p := by
  unfold locate
  rcases hm : moves s with _ | ms
  · simp
  simp only [Option.some.injEq, exists_eq_left']
  by_cases h0 : nul ∈ s
  · simp [h0]
  by_cases ha : accepts s
  swap
  · simp [h0, ha]
  by_cases hs : s = []
  · subst hs
    simp [ha]
  rw [if_neg h0, if_neg (not_not.mpr ha), if_neg hs, and_iff_right ha]
  split
  · next q hq =>
    have hq' := List.find?_some hq
    have hmem := List.mem_of_find?_eq_some hq
    simp only [decide_eq_true_eq] at hq'
    constructor
    · intro h; cases h
    · rintro ⟨-, -, hd, -⟩
      exact absurd (hd q hmem) hq'
  · next hq =>
    rw [List.find?_eq_none] at hq
    have hd : ∀ q ∈ trail (start t.cwd s) ms.dropLast, t.IsDir q := by
      intro q hmem
      have := hq q hmem
      simpa using this
    split_ifs with hdir
    · constructor
      · intro h; cases h
      · rintro ⟨-, -, -, rfl, h⟩
        exact absurd hdir h
    · constructor
      · intro h
        cases h
        exact ⟨h0, hs, hd, rfl, hdir⟩
      · rintro ⟨-, -, -, rfl, -⟩
        rfl

/-- The parent of a file that was found is a directory. -/
theorem isDir_parent_of_locate {accepts : Str → Bool} {t : Files} {s : Str} {p : Place}
    (h : locate accepts t s = .ok p) : t.IsDir p.dropLast := by
  obtain ⟨-, ms, -, -, -, hd, rfl, hp⟩ := locate_eq_ok.mp h
  rcases List.eq_nil_or_concat ms with rfl | ⟨ms', m, rfl⟩
  · exact absurd (hd _ (start_mem_trail _ _)) hp
  · rw [List.concat_eq_append] at hd hp ⊢
    rw [List.dropLast_concat] at hd
    have hlast := hd _ (target_mem_trail _ _)
    rw [target_concat] at hp ⊢
    -- only a name leads from a directory to a place that is none
    cases m with
    | stay => exact absurd hlast hp
    | up => exact absurd (Tree.isDir_dropLast hlast) hp
    | down a =>
      rw [move, List.dropLast_concat]
      exact hlast

theorem resolve_of_locate {accepts : Str → Bool} {t : Files} {s : Str} {p : Place}
    (h : locate accepts t s = .ok p) : resolve t.cwd s = some p := by
  obtain ⟨-, ms, hm, h0, -, -, rfl, -⟩ := locate_eq_ok.mp h
  rw [resolve, if_neg h0, hm]
  rfl

end Exlic.Py.Paths
