import Exlic.Py.Paths

/-! # Joined paths

`Continues s a b`: the path `s` goes along `a` and then along `b`, as joins with a relative path do
(`continues_join`). So a relative path goes on from the place of the path it is joined to
(`resolve_join`, `mem_passed_join`), and a path denotes the same place whether it is joined at once
or its directory first and then its last component (`resolve_rpartition`). `locate_join`: `open`
finds a file in a directory whose whole way is made of directories. -/

namespace Exlic.Py.PathJoin

open Exlic.Lib.FileTree Exlic.Py.Strings Exlic.Py.Utf8 Exlic.Py.Paths

/-- The path does not start with a slash. -/
def Relative (s : Str) : Prop := s.head? ≠ some slash

instance (s : Str) : Decidable (Relative s) := by unfold Relative; infer_instance

theorem relative_of_notMem {s : Str} (h : slash ∉ s) : Relative s :=
  fun he => h (List.mem_of_head? he)

theorem splitSlash_ne_nil (s : Str) : splitSlash s ≠ [] := by
  rcases s with _ | ⟨c, s⟩
  · simp [splitSlash]
  · unfold splitSlash
    split_ifs
    · simp
    · split <;> simp

theorem splitSlash_append : ∀ a b : Str,
    splitSlash (a ++ slash :: b) = splitSlash a ++ splitSlash b
  | [], b => by simp [splitSlash]
  | c :: a, b => by
    rw [List.cons_append, splitSlash, splitSlash, splitSlash_append a b]
    split_ifs
    · rfl
    · rcases h : splitSlash a with _ | ⟨p, ps⟩
      · exact absurd h (splitSlash_ne_nil a)
      · rfl

theorem splitSlash_of_notMem : ∀ {s : Str}, slash ∉ s → splitSlash s = [s]
  | [], _ => rfl
  | c :: s, h => by
    rw [List.mem_cons, not_or] at h
    rw [splitSlash, if_neg (fun hc => h.1 hc.symm), splitSlash_of_notMem h.2]

theorem moves_append (a b : Str) :
    moves (a ++ slash :: b) = (moves a).bind fun ms => (moves b).map fun ms' => ms ++ ms' := by
  unfold moves
  rw [splitSlash_append, List.mapM_append]
  rcases (splitSlash a).mapM fun c => (encode c).map component with _ | ms
  · rfl
  · rcases (splitSlash b).mapM fun c => (encode c).map component with _ | ms' <;> rfl

theorem moves_nil : moves [] = some [.stay] := rfl

theorem nul_ne_slash : nul ≠ slash := by decide

/-- The moves `ms₁` lead where `ms` lead, and pass no other places. -/
def Shortcut (ms₁ ms : List (Move Name)) : Prop :=
  ∀ start, target start ms₁ = target start ms ∧ ∀ q ∈ trail start ms₁, q ∈ trail start ms

theorem Shortcut.refl (ms : List (Move Name)) : Shortcut ms ms := fun _ => ⟨rfl, fun _ h => h⟩

theorem Shortcut.stay (ms : List (Move Name)) : Shortcut ms (ms ++ [.stay]) :=
  fun start => ⟨(target_concat start ms .stay).symm, fun _ h => mem_trail_append.mpr (Or.inl h)⟩

/-- The path `s` goes along `a` and then along `b`. -/
structure Continues (s a b : Str) : Prop where
  start_eq : ∀ cwd : Place, start cwd s = start cwd a
  nul_mem : nul ∈ s ↔ nul ∈ a ∨ nul ∈ b
  moves_eq : (moves a = none ∨ moves b = none) ∧ moves s = none ∨
    ∃ ms ms' ms₁, moves a = some ms ∧ moves b = some ms' ∧ Shortcut ms₁ ms ∧
      moves s = some (ms₁ ++ ms')

theorem start_append {cwd : Place} {a : Str} (ha : a ≠ []) (b : Str) :
    start cwd (a ++ b) = start cwd a := by
  rcases a with _ | ⟨c, a⟩
  · exact absurd rfl ha
  · rfl

/-- A slash between two paths. -/
theorem continues_append {a : Str} (ha : a ≠ []) (b : Str) :
    Continues (a ++ slash :: b) a b := by
  refine ⟨fun cwd => start_append ha _, by simp [nul_ne_slash], ?_⟩
  rw [moves_append]
  rcases moves a with _ | ms
  · exact Or.inl ⟨Or.inl rfl, rfl⟩
  · rcases moves b with _ | ms'
    · exact Or.inl ⟨Or.inr rfl, rfl⟩
    · exact Or.inr ⟨_, _, ms, rfl, rfl, Shortcut.refl ms, rfl⟩

/-- No slash more than there is one already. -/
theorem continues_of_slash (a b : Str) : Continues (a ++ slash :: b) (a ++ [slash]) b := by
  refine ⟨fun cwd => ?_, by simp [nul_ne_slash], ?_⟩
  · have h : start cwd ((a ++ [slash]) ++ b) = start cwd (a ++ [slash]) :=
      start_append (by simp) b
    rwa [List.append_assoc] at h
  · rw [moves_append, moves_append, moves_nil]
    rcases moves a with _ | ms
    · exact Or.inl ⟨Or.inl rfl, rfl⟩
    · rcases moves b with _ | ms'
      · exact Or.inl ⟨Or.inr rfl, rfl⟩
      · exact Or.inr ⟨_, _, ms, rfl, rfl, Shortcut.stay ms, rfl⟩

/-- **What `join` does** with a relative path. -/
theorem continues_join {a b : Str} (ha : a ≠ []) (hb : Relative b) : Continues (join a b) a b := by
  unfold join
  rw [if_neg hb]
  split_ifs with h
  · obtain ⟨a', rfl⟩ := List.getLast?_eq_some_iff.mp (h.resolve_left ha)
    rw [List.append_assoc]
    exact continues_of_slash a' b
  · exact continues_append ha b

theorem start_of_relative {b : Str} (hb : Relative b) (p : Place) : start p b = p := if_neg hb

/-- **The place of a path that goes on.** -/
theorem Continues.resolve {s a b : Str} (h : Continues s a b) (hb : Relative b) (cwd : Place) :
    resolve cwd s = (resolve cwd a).bind fun p => resolve p b := by
  unfold Paths.resolve
  simp only [start_of_relative hb, h.nul_mem, h.start_eq]
  by_cases hna : nul ∈ a
  · simp [hna]
  by_cases hnb : nul ∈ b
  · simp [hnb]
  simp only [hna, hnb, or_self, if_false]
  obtain ⟨hnone | hnone, hs⟩ | ⟨ms, ms', ms₁, hma, hmb, hshort, hs⟩ := h.moves_eq
  · rw [hs, hnone]
    rfl
  · rw [hs, hnone]
    simp
  · rw [hs, hma, hmb]
    simp only [Option.map_some, Option.bind_some, target_append]
    rw [(hshort (start cwd a)).1]

/-- The places a path passes, also if the system would refuse it. -/
def passed (cwd : Place) (s : Str) : List Place :=
  match moves s with
  | some ms => trail (start cwd s) ms
  | none => []

/-- **The way of a path that goes on**: the places of the first path, and from its end those of the
second one. -/
theorem Continues.mem_passed {s a b : Str} (h : Continues s a b) (hb : Relative b)
    {cwd p : Place} (hp : Paths.resolve cwd a = some p) {q : Place} (hq : q ∈ passed cwd s) :
    q ∈ passed cwd a ∨ q ∈ passed p b := by
  obtain ⟨-, hs⟩ | ⟨ma, mb, ms₁, hma, hmb, hshort, hs⟩ := h.moves_eq
  · rw [passed, hs] at hq
    cases hq
  have hplace : target (start cwd a) ma = p := by
    unfold Paths.resolve at hp
    split_ifs at hp
    rw [hma] at hp
    exact Option.some.inj hp
  obtain ⟨htarget, htrail⟩ := hshort (start cwd a)
  simp only [passed, hs, h.start_eq] at hq
  simp only [passed, hma, hmb, start_of_relative hb]
  rw [← hplace, ← htarget]
  exact (mem_trail_append.mp hq).imp_left (htrail q)

theorem Continues.mem_passed_right {s a b : Str} (h : Continues s a b) (hb : Relative b)
    {cwd p : Place} (hp : Paths.resolve cwd a = some p) (hs : moves s ≠ none) {q : Place}
    (hq : q ∈ passed p b) : q ∈ passed cwd s := by
  obtain ⟨-, hnone⟩ | ⟨ma, mb, ms₁, hma, hmb, hshort, hms⟩ := h.moves_eq
  · exact absurd hnone hs
  have hplace : target (start cwd a) ma = p := by
    unfold Paths.resolve at hp
    split_ifs at hp
    rw [hma] at hp
    exact Option.some.inj hp
  simp only [passed, hmb, start_of_relative hb] at hq
  simp only [passed, hms, h.start_eq]
  rw [← hplace, ← (hshort (start cwd a)).1] at hq
  exact mem_trail_append.mpr (Or.inr hq)

theorem mem_passed_of_way {cwd : Place} {s : Str} {w : List Place} (hw : way cwd s = some w)
    {q : Place} (hq : q ∈ w) : q ∈ passed cwd s := by
  unfold way at hw
  split_ifs at hw
  obtain ⟨ms, hms, rfl⟩ := Option.map_eq_some_iff.mp hw
  rw [passed, hms]
  exact hq

theorem way_eq_passed {cwd : Place} {s : Str} {w : List Place} (hw : way cwd s = some w) :
    w = passed cwd s := by
  unfold way at hw
  split_ifs at hw
  obtain ⟨ms, hms, rfl⟩ := Option.map_eq_some_iff.mp hw
  rw [passed, hms]

theorem exists_resolve_of_way {cwd : Place} {s : Str} {w : List Place}
    (hw : way cwd s = some w) : ∃ p, resolve cwd s = some p := by
  unfold way at hw
  split_ifs at hw with h
  obtain ⟨ms, hms, -⟩ := Option.map_eq_some_iff.mp hw
  rw [not_or] at h
  exact ⟨_, by rw [resolve, if_neg h.2, hms]; rfl⟩

theorem exists_way_of_resolve {cwd p : Place} {s : Str} (hs : s ≠ [])
    (hp : resolve cwd s = some p) : ∃ w, way cwd s = some w := by
  unfold resolve at hp
  split_ifs at hp with hnul
  obtain ⟨ms, hms, -⟩ := Option.map_eq_some_iff.mp hp
  refine ⟨trail (start cwd s) ms, ?_⟩
  rw [way, if_neg (by simp [hs, hnul]), hms]
  rfl

/-- A path of one component makes one move. -/
theorem moves_of_notMem {s : Str} (hs : slash ∉ s) :
    moves s = (encode s).map fun name => [component name] := by
  unfold moves
  rw [splitSlash_of_notMem hs, List.mapM_cons, List.mapM_nil]
  rcases encode s with _ | name <;> rfl

/-- So it passes its start and its end. -/
theorem passed_of_notMem {p d q : Place} {s : Str} (hs : slash ∉ s) (hd : resolve p s = some d)
    (hq : q ∈ passed p s) : q = p ∨ q = d := by
  rw [resolve, start_of_relative (relative_of_notMem hs), moves_of_notMem hs] at hd
  split_ifs at hd
  rw [passed, start_of_relative (relative_of_notMem hs), moves_of_notMem hs] at hq
  rcases henc : encode s with _ | name
  · rw [henc] at hd
    cases hd
  · rw [henc] at hd hq
    obtain rfl := Option.some.inj hd
    simpa [trail, target] using hq

theorem join_nil (b : Str) : join [] b = b := by
  simp [join]

/-- **A relative path goes on** from the place of the path it is joined to. -/
theorem resolve_join {cwd : Place} {a b : Str} (hb : Relative b) :
    resolve cwd (join a b) = (resolve cwd a).bind fun p => resolve p b := by
  by_cases ha : a = []
  · have hcwd : resolve cwd [] = some cwd := rfl
    rw [ha, join_nil, hcwd]
    rfl
  · exact (continues_join ha hb).resolve hb cwd

theorem mem_passed_join {cwd p : Place} {a b : Str} (hb : Relative b)
    (hp : resolve cwd a = some p) {q : Place} (hq : q ∈ passed cwd (join a b)) :
    q ∈ passed cwd a ∨ q ∈ passed p b := by
  by_cases ha : a = []
  · subst ha
    have hcwd : p = cwd := (Option.some.inj hp).symm
    rw [join_nil] at hq
    rw [hcwd]
    exact Or.inr hq
  · exact (continues_join ha hb).mem_passed hb hp hq

theorem mem_passed_join_right {cwd p : Place} {a b : Str} (hb : Relative b)
    (hp : resolve cwd a = some p) (hs : moves (join a b) ≠ none) {q : Place}
    (hq : q ∈ passed p b) : q ∈ passed cwd (join a b) := by
  by_cases ha : a = []
  · subst ha
    have hcwd : p = cwd := (Option.some.inj hp).symm
    rw [hcwd] at hq
    rwa [join_nil]
  · exact (continues_join ha hb).mem_passed_right hb hp hs hq

theorem head?_join {a : Str} (ha : a ≠ []) {b : Str} (hb : Relative b) :
    (join a b).head? = a.head? := by
  rcases a with _ | ⟨c, a⟩
  · exact absurd rfl ha
  · unfold join
    rw [if_neg hb]
    split_ifs <;> rfl

/-- What `join` puts before a relative path. -/
def pad (a : Str) : Str := if a = [] ∨ a.getLast? = some slash then a else a ++ [slash]

theorem join_eq_pad (a : Str) {b : Str} (hb : Relative b) : join a b = pad a ++ b := by
  unfold join pad
  rw [if_neg hb]
  split_ifs
  · rfl
  · rw [List.append_assoc]
    rfl

theorem pad_append (a : Str) {b : Str} (hb : b ≠ []) : pad (a ++ b) = a ++ pad b := by
  obtain ⟨y, hy⟩ : ∃ y, b.getLast? = some y := ⟨_, List.getLast?_eq_some_getLast hb⟩
  have hlast : (a ++ b).getLast? = some y := by rw [List.getLast?_append, hy, Option.some_or]
  unfold pad
  rw [hlast, hy]
  simp only [List.append_eq_nil_iff, hb, and_false, false_or]
  split_ifs
  · rfl
  · rw [List.append_assoc]

theorem pad_pad (a : Str) : pad (pad a) = pad a := by
  by_cases h : a = [] ∨ a.getLast? = some slash
  · have hpad : pad a = a := if_pos h
    rw [hpad, hpad]
  · have hpad : pad a = a ++ [slash] := if_neg h
    rw [hpad, pad_append a (List.cons_ne_nil slash [])]
    rfl

/-- **Joining is associative.** -/
theorem join_assoc (a b c : Str) : join (join a b) c = join a (join b c) := by
  by_cases hc : Relative c
  swap
  · have habs : ∀ a, join a c = c := fun a => if_pos (not_not.mp hc)
    rw [habs, habs, habs]
  by_cases hbnil : b = []
  · have hnil : Relative [] := by simp [Relative]
    rw [hbnil, join_nil, join_eq_pad a hnil, List.append_nil, join_eq_pad _ hc, pad_pad,
      join_eq_pad a hc]
  have hbc : (join b c).head? = b.head? := head?_join hbnil hc
  by_cases hb : Relative b
  · have hrel : Relative (join b c) := by
      unfold Relative
      rwa [hbc]
    rw [join_eq_pad a hb, join_eq_pad _ hc, pad_append _ hbnil, join_eq_pad a hrel,
      join_eq_pad b hc, List.append_assoc]
  · have hab : join a b = b := if_pos (not_not.mp hb)
    have habc : join a (join b c) = join b c := by
      refine if_pos ?_
      rw [hbc]
      exact not_not.mp hb
    rw [hab, habc]

theorem join_ne_nil {a : Str} (ha : a ≠ []) (b : Str) : join a b ≠ [] := by
  unfold join
  split_ifs with hb h
  · rintro rfl
    simp at hb
  · simp [ha]
  · simp

/-- **A file in a directory** is found if the way to the directory leads through directories. -/
theorem locate_join {accepts : Str → Bool} {t : Files} {a b : Str} {w : List Place} {p : Place}
    (hb : slash ∉ b) (hw : way t.cwd a = some w) (hdirs : ∀ q ∈ w, t.IsDir q)
    (hp : resolve t.cwd (join a b) = some p) (hfree : ¬ t.IsDir p)
    (haccepts : accepts (join a b)) : locate accepts t (join a b) = .ok p := by
  unfold way at hw
  split_ifs at hw with hne
  rw [not_or] at hne
  obtain ⟨ms, hms, rfl⟩ := Option.map_eq_some_iff.mp hw
  unfold resolve at hp
  split_ifs at hp with hnul
  obtain ⟨all, hall, rfl⟩ := Option.map_eq_some_iff.mp hp
  have hc := continues_join hne.1 (relative_of_notMem hb)
  obtain ⟨-, hnone⟩ | ⟨ms', last, ms₁, hms', hlast, hshort, hs⟩ := hc.moves_eq
  · rw [hnone] at hall
    cases hall
  rw [hms] at hms'
  obtain rfl := Option.some.inj hms'
  -- the last component is a single move
  obtain ⟨m, rfl⟩ : ∃ m, last = [m] := by
    rw [moves_of_notMem hb] at hlast
    obtain ⟨name, -, hname⟩ := Option.map_eq_some_iff.mp hlast
    exact ⟨component name, hname.symm⟩
  refine locate_eq_ok.mpr
    ⟨haccepts, all, hall, hnul, join_ne_nil hne.1 b, fun q hq => ?_, rfl, hfree⟩
  rw [hs] at hall
  obtain rfl := Option.some.inj hall
  rw [List.dropLast_concat, hc.start_eq] at hq
  exact hdirs q ((hshort (start t.cwd a)).2 q hq)

/-! ### Paths that do not go up -/

theorem exists_of_mapM {α β : Type} {f : α → Option β} : ∀ {as : List α} {bs : List β},
    as.mapM f = some bs → ∀ b ∈ bs, ∃ a ∈ as, f a = some b
  | [], bs, h, b, hb => by
    rw [List.mapM_nil] at h
    cases h
    cases hb
  | a :: as, bs, h, b, hb => by
    rw [List.mapM_cons] at h
    obtain ⟨c, hc, h⟩ := Option.bind_eq_some_iff.mp h
    obtain ⟨cs, hcs, h⟩ := Option.bind_eq_some_iff.mp h
    obtain rfl : c :: cs = bs := Option.some.inj h
    rcases List.mem_cons.mp hb with rfl | hb
    · exact ⟨a, by simp, hc⟩
    · obtain ⟨a', ha', h'⟩ := exists_of_mapM hcs b hb
      exact ⟨a', List.mem_cons_of_mem a ha', h'⟩

/-- A relative path without `..`. -/
structure Descends (s : Str) : Prop where
  relative : Relative s
  not_up : ∀ c ∈ splitSlash s, encode c ≠ some [0x2E, 0x2E]

instance (s : Str) : Decidable (Descends s) :=
  decidable_of_iff (Relative s ∧ ∀ c ∈ splitSlash s, encode c ≠ some [0x2E, 0x2E])
    ⟨fun h => ⟨h.1, h.2⟩, fun h => ⟨h.relative, h.not_up⟩⟩

theorem Descends.up_notMem {s : Str} (h : Descends s) {ms : List (Move Name)}
    (hms : moves s = some ms) : Move.up ∉ ms := by
  intro hup
  obtain ⟨c, hc, hcomp⟩ := exists_of_mapM hms _ hup
  obtain ⟨name, hname, hup⟩ := Option.map_eq_some_iff.mp hcomp
  refine h.not_up c hc ?_
  unfold component at hup
  split_ifs at hup with h1 h2
  rw [hname, h2]

theorem Descends.prefix_of_passed {s : Str} (h : Descends s) {p q : Place} (hq : q ∈ passed p s) :
    p <+: q := by
  unfold passed at hq
  split at hq
  · next ms hms =>
    rw [start_of_relative h.relative] at hq
    exact prefix_of_mem_trail (h.up_notMem hms) hq
  · cases hq

theorem mem_passed_of_resolve {p q : Place} {s : Str} (h : resolve p s = some q) :
    q ∈ passed p s := by
  unfold resolve at h
  split_ifs at h
  obtain ⟨ms, hms, rfl⟩ := Option.map_eq_some_iff.mp h
  rw [passed, hms]
  exact target_mem_trail _ ms

/-- The places it passes lie between its start and its end. -/
theorem Descends.passed_prefix {s : Str} (h : Descends s) {p d q : Place}
    (hd : resolve p s = some d) (hq : q ∈ passed p s) : q <+: d := by
  unfold resolve at hd
  split_ifs at hd
  obtain ⟨ms, hms, rfl⟩ := Option.map_eq_some_iff.mp hd
  rw [passed, hms] at hq
  exact prefix_target (h.up_notMem hms) hq

/-- **A path that does not go up** leads below its start. -/
theorem Descends.prefix_of_resolve {s : Str} (h : Descends s) {p q : Place}
    (hq : resolve p s = some q) : p <+: q := h.prefix_of_passed (mem_passed_of_resolve hq)

/-- It leads to the same place, seen from its start, wherever this is. -/
theorem Descends.resolve_append {s : Str} (h : Descends s) (p q : Place) :
    resolve (p ++ q) s = (resolve q s).map fun d => p ++ d := by
  unfold resolve
  rw [start_of_relative h.relative, start_of_relative h.relative]
  split_ifs
  · rfl
  · rcases hms : moves s with _ | ms
    · rfl
    · have hplace : target (p ++ q) ms = p ++ target q ms :=
        target_append_start (h.up_notMem hms)
      rw [Option.map_some, Option.map_some, Option.map_some, hplace]

/-! ### The directory and the last component -/

theorem relative_rpartition_fst {s : Str} (hs : Relative s) :
    Relative (rpartition slash s).1 := by
  obtain ⟨hsplit, hmid⟩ := rpartition_spec slash s
  rcases hd : (rpartition slash s).1 with _ | ⟨c, d⟩
  · simp [Relative]
  · rw [hd] at hsplit
    rw [← hsplit] at hs
    exact hs

/-- **A path is its directory and then its last component.** -/
theorem resolve_rpartition {p : Place} {s : Str} (hs : Relative s) :
    ((resolve p (rpartition slash s).1).bind fun q => resolve q (rpartition slash s).2.2) =
      resolve p s := by
  obtain ⟨hsplit, hmid⟩ := rpartition_spec slash s
  have hname : Relative (rpartition slash s).2.2 := relative_of_notMem (notMem_rpartition slash s)
  obtain hmid | ⟨hmid, hdir⟩ := hmid
  · have hdir : (rpartition slash s).1 ≠ [] := by
      intro he
      rw [he, hmid] at hsplit
      rw [← hsplit] at hs
      exact hs rfl
    have hc := continues_append hdir (rpartition slash s).2.2
    rw [← hc.resolve hname p]
    rw [hmid, List.append_assoc] at hsplit
    exact congrArg _ hsplit
  · rw [hmid, hdir] at hsplit
    have hp : resolve p [] = some p := rfl
    rw [hdir, hp, Option.bind_some]
    exact congrArg (resolve p) hsplit

/-- The directory of a path that does not go up does not go up. -/
theorem Descends.rpartition_fst {s : Str} (h : Descends s) : Descends (rpartition slash s).1 := by
  refine ⟨relative_rpartition_fst h.relative, fun c hc => ?_⟩
  obtain ⟨hsplit, hmid⟩ := rpartition_spec slash s
  obtain hmid | ⟨-, hdir⟩ := hmid
  · rw [hmid, List.append_assoc] at hsplit
    refine h.not_up c ?_
    rw [← hsplit, List.singleton_append, splitSlash_append]
    exact List.mem_append_left _ hc
  · rw [hdir] at hc
    obtain rfl : c = [] := by simpa [splitSlash] using hc
    simp [encode]

end Exlic.Py.PathJoin
