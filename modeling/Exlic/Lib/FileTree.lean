import Mathlib.Data.Finmap
import Mathlib.Data.List.Infix

/-! # File trees

A tree of directories and files without links. A place is the list of names that leads to it from
the root; a file holds a list of `β`. The structure `Tree` carries what every file system
guarantees: the root is a directory, what exists lies in a directory that exists, and the working
directory is a directory.

* `mkdir` and `put` do nothing where the system would refuse (`get_mkdir`, `get_put`); so
  directories stay directories and files stay files (`Below`, `below_mkdir`, `below_put`).
* A path is a start and a list of `Move`s. `trail` lists the places it passes, `target` is its last
  place. `isDir_mkdirs_trail`: where no file is in the way, making every missing place of a trail in
  order makes all of them directories. -/

namespace Exlic.Lib.FileTree

/-- What a place holds. -/
inductive Node (β : Type) where
  | dir
  | file (content : List β)
  deriving DecidableEq

/-- A file tree with a working directory. -/
structure Tree (ν β : Type) [DecidableEq ν] where
  node : Finmap fun _ : List ν => Node β
  cwd : List ν
  root_dir : node.lookup [] = some .dir
  closed : ∀ p a, p ++ [a] ∈ node → node.lookup p = some .dir
  cwd_dir : node.lookup cwd = some .dir

namespace Tree

variable {ν β : Type} [DecidableEq ν]

/-- What is at `p`, if anything. -/
def get (t : Tree ν β) (p : List ν) : Option (Node β) := t.node.lookup p

/-- The content of the file at `p`, if there is one. -/
def file? (t : Tree ν β) (p : List ν) : Option (List β) :=
  match t.get p with
  | some (.file c) => some c
  | _ => none

def IsDir (t : Tree ν β) (p : List ν) : Prop := t.get p = some .dir

def IsFile (t : Tree ν β) (p : List ν) : Prop := (t.file? p).isSome

instance [DecidableEq β] (t : Tree ν β) (p : List ν) : Decidable (t.IsDir p) :=
  inferInstanceAs (Decidable (t.get p = some .dir))

instance (t : Tree ν β) (p : List ν) : Decidable (t.IsFile p) :=
  inferInstanceAs (Decidable ((t.file? p).isSome = true))

/-- The tree of the root alone. -/
def bare : Tree ν β where
  node := (∅ : Finmap fun _ : List ν => Node β).insert [] .dir
  cwd := []
  root_dir := Finmap.lookup_insert _
  closed := by
    intro p a h
    rcases Finmap.mem_insert.mp h with h | h
    · exact absurd h (by simp)
    · exact absurd h Finmap.notMem_empty
  cwd_dir := Finmap.lookup_insert _

theorem ext_get {t t' : Tree ν β} (hc : t.cwd = t'.cwd) (h : ∀ p, t.get p = t'.get p) : t = t' := by
  have hn : t.node = t'.node := Finmap.ext_lookup h
  cases t
  cases t'
  cases hn
  cases hc
  rfl

theorem file?_eq_some {t : Tree ν β} {p : List ν} {c : List β} :
    t.file? p = some c ↔ t.get p = some (.file c) := by
  unfold file?
  split
  · next c' h => rw [h]; simp
  · next h =>
    refine ⟨fun hc => by simp at hc, fun hc => absurd hc (h c)⟩

theorem get_bare {p : List ν} (hp : p ≠ []) : (bare : Tree ν β).get p = none := by
  unfold get bare
  rw [Finmap.lookup_insert_of_ne _ hp, Finmap.lookup_empty]

theorem file?_bare (p : List ν) : (bare : Tree ν β).file? p = none := by
  unfold file? get bare
  by_cases hp : p = []
  · rw [hp, Finmap.lookup_insert]
  · rw [Finmap.lookup_insert_of_ne _ hp, Finmap.lookup_empty]

theorem isFile_iff {t : Tree ν β} {p : List ν} : t.IsFile p ↔ ∃ c, t.get p = some (.file c) := by
  unfold IsFile
  rw [Option.isSome_iff_exists]
  exact exists_congr fun c => file?_eq_some

theorem IsFile.not_isDir {t : Tree ν β} {p : List ν} (h : t.IsFile p) : ¬ t.IsDir p := by
  obtain ⟨c, hc⟩ := isFile_iff.mp h
  unfold IsDir
  rw [hc]
  simp

theorem not_isDir_of_get {t : Tree ν β} {p : List ν} (h : t.get p = none) : ¬ t.IsDir p := by
  unfold IsDir
  rw [h]
  simp

theorem IsFile.get_ne_none {t : Tree ν β} {p : List ν} (h : t.IsFile p) : t.get p ≠ none := by
  obtain ⟨c, hc⟩ := isFile_iff.mp h
  rw [hc]
  simp

/-- Nothing, a directory or a file. -/
theorem get_cases (t : Tree ν β) (p : List ν) : t.get p = none ∨ t.IsDir p ∨ t.IsFile p := by
  rcases h : t.get p with _ | n
  · exact Or.inl rfl
  · cases n with
    | dir => exact Or.inr (Or.inl h)
    | file c => exact Or.inr (Or.inr (isFile_iff.mpr ⟨c, h⟩))

/-- The kind of a place and the content of a file determine what is there. -/
theorem get_eq_of {t t' : Tree ν β} {p p' : List ν} (hd : t.IsDir p ↔ t'.IsDir p')
    (hf : t.file? p = t'.file? p') : t.get p = t'.get p' := by
  rcases t.get_cases p with h | h | h
  · rcases t'.get_cases p' with h' | h' | h'
    · rw [h, h']
    · have := hd.mpr h'
      unfold IsDir at this
      rw [h] at this
      simp at this
    · obtain ⟨c, hc⟩ := isFile_iff.mp h'
      rw [← file?_eq_some, ← hf, file?_eq_some, h] at hc
      simp at hc
  · have h' := hd.mp h
    unfold IsDir at h h'
    rw [h, h']
  · obtain ⟨c, hc⟩ := isFile_iff.mp h
    have h' := hc
    rw [← file?_eq_some, hf, file?_eq_some] at h'
    rw [hc, h']

theorem isDir_root (t : Tree ν β) : t.IsDir [] := t.root_dir

theorem isDir_cwd (t : Tree ν β) : t.IsDir t.cwd := t.cwd_dir

theorem isDir_dropLast {t : Tree ν β} {p : List ν} (h : t.IsDir p) : t.IsDir p.dropLast := by
  rcases List.eq_nil_or_concat p with rfl | ⟨q, a, rfl⟩
  · exact h
  · rw [List.concat_eq_append] at h ⊢
    rw [List.dropLast_concat]
    exact t.closed q a (Finmap.mem_of_lookup_eq_some h)

/-- What lies above something that exists is a directory. -/
theorem isDir_of_prefix {t : Tree ν β} {p q : List ν} (h : t.get p ≠ none) (hq : q <+: p)
    (hne : q ≠ p) : t.IsDir q := by
  induction p using List.reverseRecOn with
  | nil => exact absurd (List.prefix_nil.mp hq) hne
  | append_singleton p a ih =>
    have hmem : p ++ [a] ∈ t.node := by
      by_contra hn
      exact h (Finmap.lookup_eq_none.mpr hn)
    have hp : t.IsDir p := t.closed p a hmem
    rcases List.prefix_concat_iff.mp hq with rfl | hq
    · exact absurd rfl hne
    · by_cases hqp : q = p
      · rwa [hqp]
      · refine ih ?_ hq hqp
        rw [hp]
        simp

/-! ### Changing one place -/

/-- Puts `n` at `p`, which is not a directory and lies in one. -/
def set (t : Tree ν β) (p : List ν) (n : Node β) (h : ¬ t.IsDir p ∧ t.IsDir p.dropLast) :
    Tree ν β where
  node := t.node.insert p n
  cwd := t.cwd
  root_dir := by
    have hp : ([] : List ν) ≠ p := fun he => h.1 (he ▸ t.isDir_root)
    rw [Finmap.lookup_insert_of_ne _ hp]
    exact t.root_dir
  closed := by
    intro q a hq
    rcases Finmap.mem_insert.mp hq with rfl | hq
    · have hne : q ≠ q ++ [a] := by simp
      rw [Finmap.lookup_insert_of_ne _ hne]
      have := h.2
      rwa [List.dropLast_concat] at this
    · have hd : t.IsDir q := t.closed q a hq
      have hne : q ≠ p := fun he => h.1 (he ▸ hd)
      rw [Finmap.lookup_insert_of_ne _ hne]
      exact hd
  cwd_dir := by
    have hne : t.cwd ≠ p := fun he => h.1 (he ▸ t.isDir_cwd)
    rw [Finmap.lookup_insert_of_ne _ hne]
    exact t.cwd_dir

theorem get_set (t : Tree ν β) (p q : List ν) (n : Node β)
    (h : ¬ t.IsDir p ∧ t.IsDir p.dropLast) :
    (t.set p n h).get q = if q = p then some n else t.get q := by
  unfold get set
  split_ifs with hq
  · rw [hq]; exact Finmap.lookup_insert _
  · exact Finmap.lookup_insert_of_ne _ hq

variable [DecidableEq β]

/-- Makes a directory at `p`; does nothing if something is there or its parent is no directory. -/
def mkdir (t : Tree ν β) (p : List ν) : Tree ν β :=
  if h : t.get p = none ∧ t.IsDir p.dropLast then
    t.set p .dir ⟨by unfold IsDir; rw [h.1]; simp, h.2⟩
  else t

/-- Makes the file at `p` hold `c`; does nothing if a directory is there or its parent is none. -/
def put (t : Tree ν β) (p : List ν) (c : List β) : Tree ν β :=
  if h : ¬ t.IsDir p ∧ t.IsDir p.dropLast then t.set p (.file c) h else t

@[simp] theorem cwd_mkdir (t : Tree ν β) (p : List ν) : (t.mkdir p).cwd = t.cwd := by
  unfold mkdir; split_ifs <;> rfl

@[simp] theorem cwd_put (t : Tree ν β) (p : List ν) (c : List β) : (t.put p c).cwd = t.cwd := by
  unfold put; split_ifs <;> rfl

theorem get_mkdir (t : Tree ν β) (p q : List ν) :
    (t.mkdir p).get q =
      if q = p ∧ t.get p = none ∧ t.IsDir p.dropLast then some .dir else t.get q := by
  unfold mkdir
  split_ifs with h hq hq
  · rw [get_set, if_pos hq.1]
  · rw [get_set, if_neg fun he => hq ⟨he, h⟩]
  · exact absurd hq.2 h
  · rfl

theorem get_put (t : Tree ν β) (p q : List ν) (c : List β) :
    (t.put p c).get q =
      if q = p ∧ ¬ t.IsDir p ∧ t.IsDir p.dropLast then some (.file c) else t.get q := by
  unfold put
  split_ifs with h hq hq
  · rw [get_set, if_pos hq.1]
  · rw [get_set, if_neg fun he => hq ⟨he, h⟩]
  · exact absurd hq.2 h
  · rfl

theorem get_mkdir_of_ne (t : Tree ν β) {p q : List ν} (h : q ≠ p) :
    (t.mkdir p).get q = t.get q := by
  rw [get_mkdir, if_neg fun hq => h hq.1]

theorem get_put_of_ne (t : Tree ν β) {p q : List ν} (c : List β) (h : q ≠ p) :
    (t.put p c).get q = t.get q := by
  rw [get_put, if_neg fun hq => h hq.1]

@[simp] theorem file?_mkdir (t : Tree ν β) (p q : List ν) : (t.mkdir p).file? q = t.file? q := by
  unfold file?
  rw [get_mkdir]
  split_ifs with h
  · rw [h.1, h.2.1]
  · rfl

theorem file?_put {t : Tree ν β} {p : List ν} (hp : ¬ t.IsDir p) (hd : t.IsDir p.dropLast)
    (q : List ν) (c : List β) : (t.put p c).file? q = if q = p then some c else t.file? q := by
  unfold file?
  rw [get_put]
  by_cases hq : q = p
  · rw [if_pos ⟨hq, hp, hd⟩, if_pos hq]
  · rw [if_neg fun h => hq h.1, if_neg hq]

theorem file?_put_of_ne (t : Tree ν β) {p q : List ν} (c : List β) (h : q ≠ p) :
    (t.put p c).file? q = t.file? q := by
  unfold file?; rw [get_put_of_ne t c h]

theorem isDir_mkdir (t : Tree ν β) (p q : List ν) :
    (t.mkdir p).IsDir q ↔ t.IsDir q ∨ q = p ∧ t.get p = none ∧ t.IsDir p.dropLast := by
  by_cases h : q = p ∧ t.get p = none ∧ t.IsDir p.dropLast
  · refine ⟨fun _ => Or.inr h, fun _ => ?_⟩
    change (t.mkdir p).get q = _
    rw [get_mkdir, if_pos h]
  · change (t.mkdir p).get q = _ ↔ _
    rw [get_mkdir, if_neg h]
    exact ⟨Or.inl, fun h' => h'.resolve_right h⟩

@[simp] theorem isDir_put (t : Tree ν β) (p q : List ν) (c : List β) :
    (t.put p c).IsDir q ↔ t.IsDir q := by
  change (t.put p c).get q = _ ↔ _
  rw [get_put]
  split_ifs with h
  · obtain ⟨rfl, h, -⟩ := h
    exact ⟨fun h' => by simp at h', fun h' => absurd h' h⟩
  · rfl

/-- Opening a file for writing empties it; then it is written. -/
theorem file?_put_put {t : Tree ν β} {p : List ν} (hp : ¬ t.IsDir p) (hd : t.IsDir p.dropLast)
    (q : List ν) (c c' : List β) :
    ((t.put p c).put p c').file? q = if q = p then some c' else t.file? q := by
  have hp' : ¬ (t.put p c).IsDir p := by rwa [isDir_put]
  have hd' : (t.put p c).IsDir p.dropLast := by rwa [isDir_put]
  rw [file?_put hp' hd', file?_put hp hd]
  split_ifs <;> rfl

/-! ### The files of a directory -/

/-- The files at or below `d`. -/
def filesUnder (t : Tree ν β) (d : List ν) : Finset (List ν) :=
  t.node.keys.filter fun p => d <+: p ∧ t.IsFile p

omit [DecidableEq β] in
theorem mem_filesUnder {t : Tree ν β} {d p : List ν} :
    p ∈ t.filesUnder d ↔ d <+: p ∧ t.IsFile p := by
  rw [filesUnder, Finset.mem_filter, Finmap.mem_keys, and_iff_right_iff_imp]
  rintro ⟨-, h⟩
  obtain ⟨c, hc⟩ := isFile_iff.mp h
  exact Finmap.mem_of_lookup_eq_some hc

/-! ### Trees that grow -/

/-- Every directory of `t` is one of `t'`, and every file of `t` is a file of `t'`. -/
structure Below (t t' : Tree ν β) : Prop where
  dir : ∀ p, t.IsDir p → t'.IsDir p
  file : ∀ p, t.IsFile p → t'.IsFile p

omit [DecidableEq β] in
theorem Below.refl (t : Tree ν β) : Below t t := ⟨fun _ h => h, fun _ h => h⟩

omit [DecidableEq β] in
theorem Below.trans {t t' t'' : Tree ν β} (h : Below t t') (h' : Below t' t'') : Below t t'' :=
  ⟨fun p hp => h'.dir p (h.dir p hp), fun p hp => h'.file p (h.file p hp)⟩

omit [DecidableEq β] in
theorem Below.get_ne_none {t t' : Tree ν β} (h : Below t t') {p : List ν} (hp : t.get p ≠ none) :
    t'.get p ≠ none := by
  rcases t.get_cases p with h' | h' | h'
  · exact absurd h' hp
  · have hd := h.dir p h'
    unfold IsDir at hd
    rw [hd]
    simp
  · exact (h.file p h').get_ne_none

theorem below_mkdir (t : Tree ν β) (p : List ν) : Below t (t.mkdir p) := by
  refine ⟨fun q hq => (isDir_mkdir t p q).mpr (Or.inl hq), fun q hq => ?_⟩
  unfold IsFile
  rw [file?_mkdir]
  exact hq

theorem isFile_put (t : Tree ν β) (p q : List ν) (c : List β) :
    (t.put p c).IsFile q ↔ t.IsFile q ∨ q = p ∧ ¬ t.IsDir p ∧ t.IsDir p.dropLast := by
  by_cases h : q = p ∧ ¬ t.IsDir p ∧ t.IsDir p.dropLast
  · refine ⟨fun _ => Or.inr h, fun _ => ?_⟩
    rw [isFile_iff]
    exact ⟨c, by rw [get_put, if_pos h]⟩
  · rw [isFile_iff, get_put, if_neg h, ← isFile_iff]
    exact ⟨Or.inl, fun h' => h'.resolve_right h⟩

theorem below_put (t : Tree ν β) (p : List ν) (c : List β) : Below t (t.put p c) :=
  ⟨fun q hq => (isDir_put t p q c).mpr hq, fun q hq => (isFile_put t p q c).mpr (Or.inl hq)⟩

/-- Whether a file appears does not depend on what is put into it. -/
theorem below_put_put (t : Tree ν β) (p : List ν) (c c' : List β) :
    Below (t.put p c) (t.put p c') :=
  ⟨fun q hq => by rwa [isDir_put] at hq ⊢, fun q hq => by rwa [isFile_put] at hq ⊢⟩

/-! ### Paths -/

end Tree

/-- One component of a path. -/
inductive Move (ν : Type) where
  | stay
  | up
  | down (a : ν)
  deriving DecidableEq

/-- The same component with its name renamed. -/
def Move.map {ν μ : Type} (f : ν → μ) : Move ν → Move μ
  | stay => stay
  | up => up
  | down a => down (f a)

section paths

variable {ν β : Type}

/-- One move; the root is its own parent. -/
def move (p : List ν) : Move ν → List ν
  | .stay => p
  | .up => p.dropLast
  | .down a => p ++ [a]

/-- The last place of a path. -/
def target (start : List ν) (ms : List (Move ν)) : List ν := ms.foldl move start

/-- The places a path passes, from the start on. -/
def trail (start : List ν) (ms : List (Move ν)) : List (List ν) := ms.scanl move start

theorem trail_cons (start : List ν) (m : Move ν) (ms : List (Move ν)) :
    trail start (m :: ms) = start :: trail (move start m) ms := List.scanl_cons

theorem start_mem_trail (start : List ν) (ms : List (Move ν)) : start ∈ trail start ms := by
  cases ms <;> simp [trail]

theorem target_append (start : List ν) (ms ms' : List (Move ν)) :
    target start (ms ++ ms') = target (target start ms) ms' := List.foldl_append

theorem target_concat (start : List ν) (ms : List (Move ν)) (m : Move ν) :
    target start (ms ++ [m]) = move (target start ms) m := target_append start ms [m]

/-- Renaming commutes with following a path. -/
theorem target_map {μ : Type} (f : ν → μ) (start : List ν) (ms : List (Move ν)) :
    target (start.map f) (ms.map (Move.map f)) = (target start ms).map f := by
  induction ms generalizing start with
  | nil => rfl
  | cons m ms ih =>
    have hm : move (start.map f) (m.map f) = (move start m).map f := by
      cases m with
      | stay => rfl
      | up => exact List.map_dropLast.symm
      | down a => simp [move, Move.map]
    calc target (start.map f) ((m :: ms).map (Move.map f))
        = target (move (start.map f) (m.map f)) (ms.map (Move.map f)) := rfl
      _ = target ((move start m).map f) (ms.map (Move.map f)) := by rw [hm]
      _ = (target start (m :: ms)).map f := ih (move start m)

/-- The second half of a path goes on from where the first one ends. -/
theorem mem_trail_append {start q : List ν} {ms ms' : List (Move ν)} :
    q ∈ trail start (ms ++ ms') ↔ q ∈ trail start ms ∨ q ∈ trail (target start ms) ms' := by
  induction ms generalizing start with
  | nil =>
    have hnil : q ∈ trail start [] → q ∈ trail start ms' := by
      intro h
      obtain rfl : q = start := by simpa [trail] using h
      exact start_mem_trail q ms'
    exact ⟨Or.inr, fun h => h.elim hnil id⟩
  | cons m ms ih =>
    rw [List.cons_append, trail_cons, trail_cons, List.mem_cons, List.mem_cons, ih, or_assoc]
    rfl

/-! How far a path goes up does not depend on where it starts. -/

/-- One more move after `k` levels up and then down by the names of the list. -/
def climbMove : ℕ × List ν → Move ν → ℕ × List ν
  | c, .stay => c
  | (k, []), .up => (k + 1, [])
  | (k, a :: names), .up => (k, (a :: names).dropLast)
  | (k, names), .down a => (k, names ++ [a])

/-- Where a path leads, seen from its start: so many levels up, and then down by these names. -/
def climb (ms : List (Move ν)) : ℕ × List ν := ms.foldl climbMove (0, [])

theorem climb_concat (ms : List (Move ν)) (m : Move ν) :
    climb (ms ++ [m]) = climbMove (climb ms) m := by
  rw [climb, List.foldl_append]
  rfl

theorem move_take_append (start : List ν) (c : ℕ × List ν) (m : Move ν) :
    move (start.take (start.length - c.1) ++ c.2) m =
      start.take (start.length - (climbMove c m).1) ++ (climbMove c m).2 := by
  rcases c with ⟨k, names⟩
  cases m with
  | stay => rfl
  | down a => exact List.append_assoc _ names [a]
  | up =>
    rcases names with _ | ⟨a, names⟩
    · have hlen : min (start.length - k) start.length - 1 = start.length - (k + 1) := by omega
      have hmin : min (start.length - (k + 1)) (start.length - k) = start.length - (k + 1) := by
        omega
      simp only [climbMove, move, List.append_nil]
      rw [List.dropLast_eq_take, List.length_take, hlen, List.take_take, hmin]
    · exact List.dropLast_append_of_ne_nil (List.cons_ne_nil a names)

/-- **Where a path leads** from any start. -/
theorem target_eq_climb (start : List ν) (ms : List (Move ν)) :
    target start ms = start.take (start.length - (climb ms).1) ++ (climb ms).2 := by
  induction ms using List.reverseRecOn with
  | nil => simp [target, climb]
  | append_singleton ms m ih => rw [target_concat, ih, climb_concat, move_take_append]

/-- **A path leads to its start or below** if it goes down again by the names it went up. -/
theorem prefix_target_iff {start : List ν} {ms : List (Move ν)} :
    start <+: target start ms ↔ start.drop (start.length - (climb ms).1) <+: (climb ms).2 := by
  have hsplit := List.take_append_drop (start.length - (climb ms).1) start
  rw [target_eq_climb]
  nth_rewrite 1 [← hsplit]
  exact List.prefix_append_right_inj _

theorem climb_fst_le (ms ms' : List (Move ν)) : (climb ms).1 ≤ (climb (ms ++ ms')).1 := by
  induction ms' using List.reverseRecOn with
  | nil => rw [List.append_nil]
  | append_singleton ms' m ih =>
    refine ih.trans ?_
    rw [← List.append_assoc, climb_concat]
    rcases climb (ms ++ ms') with ⟨k, _ | ⟨a, names⟩⟩ <;> cases m <;> simp [climbMove]

theorem prefix_target_of_climb {start : List ν} {ms : List (Move ν)} (hms : (climb ms).1 = 0) :
    start <+: target start ms := by
  rw [prefix_target_iff, hms, Nat.sub_zero, List.drop_length]
  exact List.nil_prefix

/-- A path that never goes above its start passes only what is below it. -/
theorem prefix_of_climb {start q : List ν} {ms : List (Move ν)} (hms : (climb ms).1 = 0)
    (h : q ∈ trail start ms) : start <+: q := by
  induction ms using List.reverseRecOn with
  | nil =>
    obtain rfl : q = start := by simpa [trail] using h
    exact List.prefix_refl q
  | append_singleton ms m ih =>
    have hms' : (climb ms).1 = 0 := Nat.le_zero.mp (hms ▸ climb_fst_le ms [m])
    rcases mem_trail_append.mp h with h | h
    · exact ih hms' h
    · rw [trail_cons, List.mem_cons] at h
      rcases h with rfl | h
      · exact prefix_target_of_climb hms'
      · obtain rfl : q = target start (ms ++ [m]) := by
          rw [target_concat]
          simpa [trail] using h
        exact prefix_target_of_climb hms

theorem climb_map {μ : Type} (f : ν → μ) (ms : List (Move ν)) :
    climb (ms.map (Move.map f)) = ((climb ms).1, (climb ms).2.map f) := by
  induction ms using List.reverseRecOn with
  | nil => rfl
  | append_singleton ms m ih =>
    rw [List.map_append, List.map_singleton, climb_concat, climb_concat, ih]
    rcases climb ms with ⟨k, _ | ⟨a, names⟩⟩ <;> cases m <;>
      simp [climbMove, Move.map, List.map_dropLast]

theorem climb_of_up_notMem {ms : List (Move ν)} (hms : Move.up ∉ ms) : (climb ms).1 = 0 := by
  induction ms using List.reverseRecOn with
  | nil => rfl
  | append_singleton ms m ih =>
    rw [List.mem_append, not_or, List.mem_singleton] at hms
    have hk := ih hms.1
    rw [climb_concat]
    rcases hc : climb ms with ⟨k, names⟩
    rw [hc] at hk
    cases m with
    | stay => exact hk
    | up => exact absurd rfl hms.2
    | down a => exact hk

/-- A path that never goes up stays below its start. -/
theorem prefix_of_mem_trail {start q : List ν} {ms : List (Move ν)} (hms : Move.up ∉ ms)
    (h : q ∈ trail start ms) : start <+: q := prefix_of_climb (climb_of_up_notMem hms) h

/-- Such a path leads to the same place, seen from its start, wherever this is. -/
theorem target_append_start {start q : List ν} {ms : List (Move ν)} (hms : Move.up ∉ ms) :
    target (start ++ q) ms = start ++ target q ms := by
  induction ms generalizing q with
  | nil => rfl
  | cons m ms ih =>
    rw [List.mem_cons, not_or] at hms
    have hm : move (start ++ q) m = start ++ move q m := by
      cases m with
      | stay => rfl
      | up => exact absurd rfl hms.1
      | down a => exact List.append_assoc start q [a]
    calc target (start ++ q) (m :: ms) = target (move (start ++ q) m) ms := rfl
      _ = target (start ++ move q m) ms := by rw [hm]
      _ = start ++ target q (m :: ms) := ih hms.2

theorem target_mem_trail (start : List ν) (ms : List (Move ν)) :
    target start ms ∈ trail start ms := by
  induction ms generalizing start with
  | nil => simp [target, trail]
  | cons m ms ih =>
    rw [trail_cons]
    exact List.mem_cons_of_mem _ (ih _)

/-- The places such a path passes are the beginnings of its target. -/
theorem prefix_target {start : List ν} {ms : List (Move ν)} (hms : Move.up ∉ ms)
    {q : List ν} (h : q ∈ trail start ms) : q <+: target start ms := by
  induction ms generalizing start with
  | nil =>
    obtain rfl : q = start := by simpa [trail] using h
    exact List.prefix_refl q
  | cons m ms ih =>
    rw [trail_cons, List.mem_cons] at h
    rw [List.mem_cons, not_or] at hms
    rcases h with rfl | h
    · exact prefix_of_mem_trail (by simp [hms]) (target_mem_trail q (m :: ms))
    · exact ih hms.2 h

variable [DecidableEq ν] [DecidableEq β]

/-- Makes every place of the list that is missing, in order. -/
def Tree.mkdirs (t : Tree ν β) (ps : List (List ν)) : Tree ν β := ps.foldl Tree.mkdir t

namespace Tree

theorem mkdirs_cons (t : Tree ν β) (p : List ν) (ps : List (List ν)) :
    t.mkdirs (p :: ps) = (t.mkdir p).mkdirs ps := rfl

theorem mkdirs_append (t : Tree ν β) (ps qs : List (List ν)) :
    t.mkdirs (ps ++ qs) = (t.mkdirs ps).mkdirs qs := List.foldl_append

@[simp] theorem file?_mkdirs (t : Tree ν β) (ps : List (List ν)) (q : List ν) :
    (t.mkdirs ps).file? q = t.file? q := by
  induction ps generalizing t with
  | nil => rfl
  | cons p ps ih => rw [mkdirs_cons, ih, file?_mkdir]

@[simp] theorem cwd_mkdirs (t : Tree ν β) (ps : List (List ν)) : (t.mkdirs ps).cwd = t.cwd := by
  induction ps generalizing t with
  | nil => rfl
  | cons p ps ih => rw [mkdirs_cons, ih, cwd_mkdir]

theorem below_mkdirs (t : Tree ν β) (ps : List (List ν)) : Below t (t.mkdirs ps) := by
  induction ps generalizing t with
  | nil => exact Below.refl t
  | cons p ps ih => exact (below_mkdir t p).trans (ih _)

/-- Only listed places change. -/
theorem get_mkdirs_of_notMem (t : Tree ν β) {ps : List (List ν)} {q : List ν} (h : q ∉ ps) :
    (t.mkdirs ps).get q = t.get q := by
  induction ps generalizing t with
  | nil => rfl
  | cons p ps ih =>
    rw [List.mem_cons, not_or] at h
    rw [mkdirs_cons, ih _ h.2, get_mkdir_of_ne t h.1]

theorem mkdir_of_get_ne_none {t : Tree ν β} {p : List ν} (h : t.get p ≠ none) : t.mkdir p = t := by
  unfold mkdir
  rw [dif_neg fun h' => h h'.1]

/-- The places of the list that are missing when their turn comes. -/
def missing (t : Tree ν β) : List (List ν) → List (List ν)
  | [] => []
  | p :: ps => if t.get p = none then p :: missing (t.mkdir p) ps else missing t ps

/-- Making the missing places is making all of them. -/
theorem mkdirs_missing (t : Tree ν β) (ps : List (List ν)) :
    t.mkdirs (t.missing ps) = t.mkdirs ps := by
  induction ps generalizing t with
  | nil => rfl
  | cons p ps ih =>
    rw [missing, mkdirs_cons]
    split_ifs with hp
    · rw [mkdirs_cons, ih]
    · rw [mkdir_of_get_ne_none hp, ih]

theorem mem_missing {t : Tree ν β} {ps : List (List ν)} {q : List ν} (h : q ∈ t.missing ps) :
    q ∈ ps ∧ t.get q = none := by
  induction ps generalizing t with
  | nil => cases h
  | cons p ps ih =>
    rw [missing] at h
    split_ifs at h with hp
    · rcases List.mem_cons.mp h with rfl | h
      · exact ⟨List.mem_cons_self, hp⟩
      · obtain ⟨hq, hnone⟩ := ih h
        refine ⟨List.mem_cons_of_mem p hq, by_contra fun hsome => ?_⟩
        exact (below_mkdir t p).get_ne_none hsome hnone
    · obtain ⟨hq, hnone⟩ := ih h
      exact ⟨List.mem_cons_of_mem p hq, hnone⟩

theorem isDir_of_mkdirs {t : Tree ν β} {ps : List (List ν)} {q : List ν}
    (h : (t.mkdirs ps).IsDir q) : t.IsDir q ∨ q ∈ ps := by
  by_cases hq : q ∈ ps
  · exact Or.inr hq
  · left
    unfold IsDir at h ⊢
    rwa [get_mkdirs_of_notMem t hq] at h

/-- One move from a directory leads to a directory, a file, or a place that can be made. -/
theorem isDir_mkdir_move {t : Tree ν β} {p : List ν} (hp : t.IsDir p) (m : Move ν)
    (hf : ¬ t.IsFile (move p m)) : (t.mkdir (move p m)).IsDir (move p m) := by
  rw [isDir_mkdir]
  rcases t.get_cases (move p m) with h | h | h
  · right
    refine ⟨rfl, h, ?_⟩
    cases m with
    | stay => exact isDir_dropLast hp
    | up => exact isDir_dropLast (isDir_dropLast hp)
    | down a =>
      unfold move
      rw [List.dropLast_concat]
      exact hp
  · exact Or.inl h
  · exact absurd h hf

theorem isDir_mkdirs_trail_aux {t : Tree ν β} {start : List ν} {ms : List (Move ν)}
    (hs : (t.mkdir start).IsDir start) (hf : ∀ p ∈ trail start ms, ¬ t.IsFile p) :
    ∀ p ∈ trail start ms, (t.mkdirs (trail start ms)).IsDir p := by
  induction ms generalizing t start with
  | nil =>
    intro p hp
    obtain rfl : p = start := by simpa [trail] using hp
    exact hs
  | cons m ms ih =>
    rw [trail_cons] at hf ⊢
    rw [mkdirs_cons]
    have hf' : ∀ p ∈ trail (move start m) ms, ¬ (t.mkdir start).IsFile p := by
      intro p hp
      unfold IsFile
      rw [file?_mkdir]
      exact hf p (List.mem_cons_of_mem _ hp)
    have hm := isDir_mkdir_move hs m (hf' _ (start_mem_trail _ _))
    intro p hp
    rcases List.mem_cons.mp hp with rfl | hp
    · exact (below_mkdirs _ _).dir p hs
    · exact ih hm hf' p hp

/-- **Making a trail**: from a directory, with no file in the way, every place becomes a
directory. -/
theorem isDir_mkdirs_trail {t : Tree ν β} {start : List ν} {ms : List (Move ν)}
    (hs : t.IsDir start) (hf : ∀ p ∈ trail start ms, ¬ t.IsFile p) :
    ∀ p ∈ trail start ms, (t.mkdirs (trail start ms)).IsDir p :=
  isDir_mkdirs_trail_aux ((below_mkdir t start).dir _ hs) hf

end Tree

end paths

end Exlic.Lib.FileTree
