import Exlic.Cli
import Exlic.Py.Leading

/-! # `fileutils.create_dir`

The function is not in the source, so what is known of it is stated here. It goes through the
leading parts of its path, as far as their way is `Clear`: they can be used, keep the limits and
have no file in the way.

* `Touches`: it makes nothing but missing places on clear ways of leading parts.
* `CreateDirSpec`: it returns exactly if the way of the whole path is clear, and then this way is
  made of directories.
* `MakesLeading`: the clear ways of leading parts are made of directories also after it has raised,
  unless it has refused a path that cannot be encoded.

Permissions and a full disk are left out. `makeMissing` is a function that does all this
(`makeMissing_spec`, `makeMissing_leading`); with the limits of Linux and an output in UTF-8 it
makes an environment, `utf8Env`. -/

namespace Exlic.CreateDir

open Exlic.Lib.FileTree Exlic.Lib.FileTree.Tree
open Exlic.Py.Strings Exlic.Py.Utf8 Exlic.Py.Paths Exlic.Py.PathJoin Exlic.Py.Leading Exlic.Cli

/-- In the tree `t`, the path `s` can be made a directory by the way `w`. -/
structure Clear (accepts : Str → Bool) (t : Files) (s : Str) (w : List Place) : Prop where
  accepted : accepts s
  way_eq : way t.cwd s = some w
  no_file : ∀ p ∈ w, ¬ t.IsFile p

/-- It touches only the named directory and its missing parents. -/
structure Touches (env : Env) : Prop where
  missing : ∀ (t : Files) s, ∀ p ∈ (env.createDir t s).1, t.get p = none
  leading : ∀ (t : Files) s, ∀ p ∈ (env.createDir t s).1,
    ∃ s' ∈ leads s, ∃ w, Clear env.accepts t s' w ∧ p ∈ w

/-- It accepts a directory that exists, and otherwise makes it with its parents; it raises if the
path cannot be used, is too long or has a file in the way. -/
structure CreateDirSpec (env : Env) : Prop extends Touches env where
  returns_iff : ∀ (t : Files) s,
    (env.createDir t s).2 = none ↔ ∃ w, Clear env.accepts t s w
  makes : ∀ (t : Files) s w, Clear env.accepts t s w →
    ∀ p ∈ w, (t.mkdirs (env.createDir t s).1).IsDir p

/-- It goes through the path; one that cannot be encoded it may refuse at once. -/
def Starts (env : Env) (t : Files) (s : Str) : Prop :=
  moves s ≠ none ∨ (env.createDir t s).1 ≠ []

/-- It makes what it can of a path it goes through, also if it raises then. -/
def MakesLeading (env : Env) : Prop :=
  ∀ (t : Files) s, Starts env t s → ∀ s' ∈ leads s, ∀ w, Clear env.accepts t s' w →
    ∀ p ∈ w, (t.mkdirs (env.createDir t s).1).IsDir p

section spec

variable {env : Env} {t : Files} {s : Str}

/-- On the way to a path that can be used, it touches this way only. -/
theorem Touches.mem_way (h : Touches env) {w : List Place} (hw : way t.cwd s = some w) {p : Place}
    (hp : p ∈ (env.createDir t s).1) : p ∈ w := by
  obtain ⟨s', hs', w', hclear, hpw⟩ := h.leading t s p hp
  rw [way_eq_passed hw]
  exact passed_of_leads hs' (moves_ne_none_of_way hw) hclear.way_eq hpw

/-- What is known after `create_dir` has returned. -/
theorem CreateDirSpec.of_returned (h : CreateDirSpec env) {made : List Place}
    (hc : env.createDir t s = (made, none)) :
    ∃ w, Clear env.accepts t s w ∧ (∀ p ∈ made, p ∈ w) ∧ ∀ p ∈ w, (t.mkdirs made).IsDir p := by
  have hreturned : (env.createDir t s).2 = none := by rw [hc]
  obtain ⟨w, hclear⟩ := (h.returns_iff t s).mp hreturned
  have hmakes := h.makes t s w hclear
  have hmade := fun p hp => h.mem_way (p := p) hclear.way_eq hp
  rw [hc] at hmakes hmade
  exact ⟨w, hclear, hmade, hmakes⟩

/-- When `create_dir` returns, and what it leaves. -/
theorem CreateDirSpec.returns (h : CreateDirSpec env) {w : List Place}
    (hclear : Clear env.accepts t s w) :
    ∃ made, env.createDir t s = (made, none) ∧ (∀ p ∈ made, p ∈ w) ∧
      ∀ p ∈ w, (t.mkdirs made).IsDir p := by
  have hreturned : (env.createDir t s).2 = none := (h.returns_iff t s).mpr ⟨w, hclear⟩
  have hc : env.createDir t s = ((env.createDir t s).1, none) := by rw [← hreturned]
  exact ⟨_, hc, fun p hp => h.mem_way hclear.way_eq hp, h.makes t s w hclear⟩

end spec

/-! ### A function that does this -/

/-- The way of a path, if it is clear. -/
def clearWay (accepts : Str → Bool) (t : Files) (s : Str) : Option (List Place) :=
  match way t.cwd s with
  | none => none
  | some w => if accepts s ∧ ∀ p ∈ w, ¬ t.IsFile p then some w else none

/-- Makes every missing place on the clear ways of the leading parts, in order. -/
def makeMissing (accepts : Str → Bool) (t : Files) (s : Str) : List Place × Option Exn :=
  (t.missing ((leads s).filterMap (clearWay accepts t)).flatten,
    if (clearWay accepts t s).isSome then none else some .osError)

theorem clearWay_eq_some {accepts : Str → Bool} {t : Files} {s : Str} {w : List Place} :
    clearWay accepts t s = some w ↔ Clear accepts t s w := by
  unfold clearWay
  rcases hw : way t.cwd s with _ | w'
  · refine ⟨nofun, fun hc => ?_⟩
    have hsome : none = some w := hw.symm.trans hc.way_eq
    cases hsome
  · simp only
    split_ifs with h
    · rw [Option.some.injEq]
      refine ⟨fun he => he ▸ ⟨h.1, hw, h.2⟩, fun hc => ?_⟩
      exact Option.some.inj (hw.symm.trans hc.way_eq)
    · refine ⟨nofun, fun hc => absurd ⟨hc.accepted, ?_⟩ h⟩
      obtain rfl := Option.some.inj (hw.symm.trans hc.way_eq)
      exact hc.no_file

theorem isDir_start (t : Files) (s : Str) : t.IsDir (start t.cwd s) := by
  unfold start
  split_ifs
  · exact t.isDir_root
  · exact t.isDir_cwd

/-- Making a list of places makes those of a clear way in it. -/
theorem isDir_mkdirs_clear {accepts : Str → Bool} {t : Files} {s : Str} {w : List Place}
    (hclear : Clear accepts t s w) (before after : List Place) :
    ∀ p ∈ w, (t.mkdirs (before ++ w ++ after)).IsDir p := by
  intro p hp
  have hw := hclear.way_eq
  unfold way at hw
  split_ifs at hw
  obtain ⟨ms, -, rfl⟩ := Option.map_eq_some_iff.mp hw
  have hstart : (t.mkdirs before).IsDir (start t.cwd s) :=
    (below_mkdirs t before).dir _ (isDir_start t s)
  have hfree : ∀ q ∈ trail (start t.cwd s) ms, ¬ (t.mkdirs before).IsFile q := by
    intro q hq
    rw [Tree.IsFile, file?_mkdirs]
    exact hclear.no_file q hq
  have hmade := isDir_mkdirs_trail hstart hfree p hp
  rw [mkdirs_append, mkdirs_append]
  exact (below_mkdirs _ after).dir p hmade

section makeMissing

variable {accepts : Str → Bool} {stdout : Str → Bool}

theorem isDir_makeMissing {t : Files} {s s' : Str} (hs' : s' ∈ leads s) {w : List Place}
    (hclear : Clear accepts t s' w) : ∀ p ∈ w, (t.mkdirs (makeMissing accepts t s).1).IsDir p := by
  have hmem : w ∈ (leads s).filterMap (clearWay accepts t) :=
    List.mem_filterMap.mpr ⟨s', hs', clearWay_eq_some.mpr hclear⟩
  obtain ⟨before, after, heq⟩ := List.append_of_mem hmem
  simp only [makeMissing, heq, List.flatten_append, List.flatten_cons]
  rw [mkdirs_missing, ← List.append_assoc]
  exact isDir_mkdirs_clear hclear before.flatten after.flatten

theorem makeMissing_leading : MakesLeading ⟨makeMissing accepts, accepts, stdout⟩ :=
  fun _ _ _ _ hs' _ hclear => isDir_makeMissing hs' hclear

theorem makeMissing_spec : CreateDirSpec ⟨makeMissing accepts, accepts, stdout⟩ where
  missing t s p hp := (mem_missing hp).2
  leading t s p hp := by
    obtain ⟨w, hw, hpw⟩ := List.mem_flatten.mp (mem_missing hp).1
    obtain ⟨s', hs', hclear⟩ := List.mem_filterMap.mp hw
    exact ⟨s', hs', w, clearWay_eq_some.mp hclear, hpw⟩
  returns_iff t s := by
    simp only [makeMissing, ← clearWay_eq_some]
    rcases clearWay accepts t s with _ | w <;> simp
  makes t s w hclear := isDir_makeMissing (self_mem_leads s) hclear

end makeMissing

/-- The contract says nothing of what is raised. -/
theorem CreateDirSpec.mapExn {env : Env} (h : CreateDirSpec env) (f : Exn → Exn) :
    CreateDirSpec { env with
      createDir := fun t s => ((env.createDir t s).1, (env.createDir t s).2.map f) } where
  missing := h.missing
  leading := h.leading
  returns_iff t s := by simpa using h.returns_iff t s
  makes := h.makes

/-! ### An environment -/

/-- The limits of Linux: 255 bytes for a name, 4095 for a path. -/
def linuxAccepts (s : Str) : Bool :=
  ((splitSlash s).all fun c => ((encode c).getD []).length ≤ 255) ∧
    ((encode s).getD []).length ≤ 4095

/-- `create_dir` as above, and an output that encodes everything but surrogates. -/
def utf8Env : Env where
  createDir := makeMissing linuxAccepts
  accepts := linuxAccepts
  stdout s := s.all fun c => ¬ High c ∧ ¬ Low c

/-- The default of `output_dir`. -/
def licenses : Str := str ['l', 'i', 'c', 'e', 'n', 's', 'e', 's']

/-- Where `licenses` is, seen from the root. -/
def licensesDir : Place := [[0x6C, 0x69, 0x63, 0x65, 0x6E, 0x73, 0x65, 0x73]]

/-- A tree that has only the empty output directory. -/
def emptyLicenses : Files := Tree.bare.mkdir licensesDir

theorem get_emptyLicenses {p : Place} (hp : p ≠ []) (hp' : p ≠ licensesDir) :
    emptyLicenses.get p = none := by
  rw [emptyLicenses, get_mkdir_of_ne _ hp', get_bare hp]

theorem not_isFile_emptyLicenses (p : Place) : ¬ emptyLicenses.IsFile p := by
  rw [Tree.IsFile, emptyLicenses, file?_mkdir, file?_bare]
  simp

end Exlic.CreateDir
