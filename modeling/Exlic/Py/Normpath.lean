import Exlic.Py.Leading

/-! # Normalisation of paths

`normpath` normalises a path without asking the file system, so it is defined for every path, also
for one that cannot be used: a component that cannot be encoded stands for itself. A path that is
joined goes on from where the first one ends (`normpath_join`), and for a path that can be used this
is the place it denotes (`normpath_of_resolve`). -/

namespace Exlic.Py.Normpath

open Exlic.Lib.FileTree Exlic.Py.Strings Exlic.Py.Utf8 Exlic.Py.Paths Exlic.Py.PathJoin
open Exlic.Py.Leading

/-- What a component of a normalised path stands for: a file name, or itself if it cannot be
encoded. -/
abbrev Part : Type := Name ⊕ Str

def partMove (c : Str) : Move Part :=
  match encode c with
  | some name => (component name).map .inl
  | none => .down (.inr c)

theorem partMove_of_encode {c : Str} {name : Name} (h : encode c = some name) :
    partMove c = (component name).map .inl := by
  rw [partMove, h]

/-- A place as a normalised path. -/
def parts (p : Place) : List Part := p.map .inl

/-- `path.normpath(path.join(cwd, s))`. -/
def normpath (cwd : List Part) (s : Str) : List Part :=
  target (start cwd s) ((splitSlash s).map partMove)

theorem parts_prefix_iff {p q : Place} : parts p <+: parts q ↔ p <+: q := by
  constructor
  · rintro ⟨rest, hrest⟩
    obtain ⟨p', rest', hq, hp', -⟩ := List.map_eq_append_iff.mp hrest.symm
    have hp : p' = p := List.map_injective_iff.mpr Sum.inl_injective hp'
    rw [hq, hp]
    exact List.prefix_append p rest'
  · rintro ⟨rest, rfl⟩
    unfold parts
    rw [List.map_append]
    exact List.prefix_append _ _

theorem map_partMove {s : Str} {ms : List (Move Name)} (hms : moves s = some ms) :
    (splitSlash s).map partMove = ms.map (Move.map .inl) := by
  have hall : ∀ {cs : List Str} {ms : List (Move Name)},
      (cs.mapM fun c => (encode c).map component) = some ms →
        cs.map partMove = ms.map (Move.map .inl) := by
    intro cs
    induction cs with
    | nil =>
      intro ms h
      rw [List.mapM_nil] at h
      obtain rfl := Option.some.inj h
      rfl
    | cons c cs ih =>
      intro ms h
      rw [List.mapM_cons] at h
      obtain ⟨m, hm, h⟩ := Option.bind_eq_some_iff.mp h
      obtain ⟨rest, hrest, h⟩ := Option.bind_eq_some_iff.mp h
      obtain rfl := Option.some.inj h
      obtain ⟨name, hname, rfl⟩ := Option.map_eq_some_iff.mp hm
      rw [List.map_cons, List.map_cons, ih hrest, partMove_of_encode hname]
  exact hall hms

/-- **A path that can be used** leads to the place it denotes. -/
theorem normpath_of_resolve {cwd p : Place} {s : Str} (h : resolve cwd s = some p) :
    normpath (parts cwd) s = parts p := by
  unfold resolve at h
  split_ifs at h
  obtain ⟨ms, hms, rfl⟩ := Option.map_eq_some_iff.mp h
  have hstart : start (parts cwd) s = parts (start cwd s) := by
    unfold start
    split_ifs <;> rfl
  rw [normpath, hstart, map_partMove hms]
  exact target_map Sum.inl (start cwd s) ms

/-- **A joined path** goes on from where the first one ends. -/
theorem normpath_join (cwd : List Part) (a b : Str) :
    normpath cwd (join a b) = normpath (normpath cwd a) b := by
  by_cases hb : Relative b
  swap
  · have hjoin : join a b = b := if_pos (not_not.mp hb)
    have hstart : ∀ cwd : List Part, start cwd b = [] := fun cwd => if_pos (not_not.mp hb)
    rw [hjoin, normpath, normpath, hstart, hstart]
  have hsecond : ∀ p : List Part, normpath p b = target p ((splitSlash b).map partMove) := by
    intro p
    rw [normpath, start, if_neg hb]
  by_cases ha : a = []
  · rw [ha, join_nil]
    rfl
  have hfirst : ∀ b', normpath cwd (a ++ b') =
      target (start cwd a) ((splitSlash (a ++ b')).map partMove) := by
    intro b'
    rcases a with _ | ⟨c, a⟩
    · exact absurd rfl ha
    · rfl
  rw [hsecond]
  unfold join
  rw [if_neg hb]
  split_ifs with hlast
  · -- the slash is there already
    obtain ⟨a', rfl⟩ := List.getLast?_eq_some_iff.mp (hlast.resolve_left ha)
    rw [hfirst, normpath, List.append_assoc, List.singleton_append, splitSlash_append,
      splitSlash_append, List.map_append, List.map_append, target_append, target_append]
    rfl
  · rw [hfirst, normpath, splitSlash_append, List.map_append, target_append]

/-! ### Paths that stay below -/

/-- Where a path leads, seen from its start: so many levels up, and then down by these names. -/
def levels (s : Str) : ℕ × List Part := climb ((splitSlash s).map partMove)

/-- Joined to a path that leads to `root`, the path `s` leads to `root` or below. It is relative and
does not go up, or it comes back by the names it went up; or it is absolute and begins with
`root`. -/
def StaysBelow (root : Place) (s : Str) : Prop :=
  if Relative s then (parts root).drop (root.length - (levels s).1) <+: (levels s).2
  else parts root <+: (levels s).2

instance (root : Place) (s : Str) : Decidable (StaysBelow root s) := by
  unfold StaysBelow
  infer_instance

theorem length_parts (p : Place) : (parts p).length = p.length := List.length_map _

/-- **What it says** of the joined path. -/
theorem staysBelow_iff {cwd root : Place} {a : Str} (ha : resolve cwd a = some root) (s : Str) :
    StaysBelow root s ↔ parts root <+: normpath (parts cwd) (join a s) := by
  rw [normpath_join, normpath_of_resolve ha]
  by_cases hs : Relative s
  · have hstart : start (parts root) s = parts root := if_neg hs
    rw [StaysBelow, if_pos hs, normpath, hstart, prefix_target_iff, length_parts]
    rfl
  · have hstart : start (parts root) s = [] := if_pos (not_not.mp hs)
    rw [StaysBelow, if_neg hs, normpath, hstart, target_eq_climb, List.take_nil, List.nil_append]
    rfl

/-- The path never goes above its start. -/
structure StaysIn (s : Str) : Prop where
  relative : Relative s
  levels_eq : (levels s).1 = 0

instance (s : Str) : Decidable (StaysIn s) :=
  decidable_of_iff (Relative s ∧ (levels s).1 = 0) ⟨fun h => ⟨h.1, h.2⟩, fun h => ⟨h.1, h.2⟩⟩

theorem StaysIn.staysBelow {s : Str} (h : StaysIn s) (root : Place) : StaysBelow root s := by
  rw [StaysBelow, if_pos h.relative, h.levels_eq, Nat.sub_zero, ← length_parts, List.drop_length]
  exact List.nil_prefix

/-- Nor do its leading parts. -/
theorem StaysIn.lead {s s' : Str} (h : StaysIn s) (hs' : s' ∈ leads s) : StaysIn s' := by
  refine ⟨relative_of_leads hs' h.relative, ?_⟩
  obtain rfl | ⟨rest, rfl⟩ := mem_leads.mp hs'
  · exact h.levels_eq
  · have hle := climb_fst_le ((splitSlash s').map partMove) ((splitSlash rest).map partMove)
    have hzero := h.levels_eq
    unfold levels at hzero ⊢
    rw [splitSlash_append, List.map_append] at hzero
    omega

/-- It passes only what is below its start. -/
theorem StaysIn.prefix_of_way {s : Str} (h : StaysIn s) {p q : Place} {w : List Place}
    (hw : way p s = some w) (hq : q ∈ w) : p <+: q := by
  unfold way at hw
  split_ifs at hw
  obtain ⟨ms, hms, rfl⟩ := Option.map_eq_some_iff.mp hw
  rw [start_of_relative h.relative] at hq
  have hzero := h.levels_eq
  rw [levels, map_partMove hms, climb_map] at hzero
  exact prefix_of_climb hzero hq

end Exlic.Py.Normpath
