import Exlic.Again
import Exlic.Layout

/-! # What a run leaves in the output directory

If no path goes up, what a run makes in an empty output directory is the same wherever this
directory is: seen from it, the fresh records write the `corpus` (`writes_eq_corpus`), which is
determined by the pickles alone. So a run can be done over anywhere else (`same_anywhere`), and the
directory of each language holds exactly the fresh records of this language
(`language_directory`). -/

namespace Exlic.OutputDir

open Exlic.Lib.Command Exlic.Lib.Command.Outcome Exlic.Lib.FileTree Exlic.Lib.Firsts
open Exlic.Lib.Writes
open Exlic.Py.Strings Exlic.Py.Utf8 Exlic.Py.Paths Exlic.Py.PathJoin
open Exlic.Cli Exlic.Records Exlic.Steps Exlic.History Exlic.CreateDir Exlic.Completion
open Exlic.Destination Exlic.FinalTree Exlic.Report Exlic.Layout
open Exlic.Refinement (item resolve_fresh)
open Exlic.Corpus (samePath)

variable {env env' : Env} {outputDir outputDir' : Str} {t t' : Files} {ps : List Pickle}
  {r r' : Record} {s : State} {root root' : Place}

/-! ### Places seen from the output directory -/

/-- The directory of a record, seen from the output directory. -/
def dirIn (r : Record) : Option Place :=
  (resolve [] r.language).bind fun p => resolve p (rpartition slash r.repoPath).1

/-- Where a record is saved, seen from the output directory. -/
def placeIn (r : Record) : Option Place :=
  (resolve [] r.language).bind fun p => resolve p r.repoPath

/-- What the fresh records write, seen from the output directory. -/
def corpus (ps : List Pickle) : List (Place × Bytes) :=
  (fresh (records ps)).map fun r => ((placeIn r).getD [], (encode r.text).getD [])

/-- What those of the language `name` write, seen from its directory. -/
def corpusOf (name : Name) (ps : List Pickle) : List (Place × Bytes) :=
  ((fresh (records ps)).filter fun r => encode r.language = some name).map fun r =>
    ((resolve [] r.repoPath).getD [], (encode r.text).getD [])

section record

variable (hroot : resolve t.cwd outputDir = some root) (hr : Below r)
include hroot hr

/-- A path below the directory of the language. -/
theorem resolve_below {b : Str} (hb : Descends b) :
    ((resolve t.cwd (join outputDir r.language)).bind fun p => resolve p b) =
      ((resolve [] r.language).bind fun p => resolve p b).map fun q => root ++ q := by
  have hlang : resolve t.cwd (join outputDir r.language) =
      (resolve [] r.language).map fun q => root ++ q := by
    have happend := hr.1.resolve_append root []
    rw [List.append_nil] at happend
    rw [resolve_join hr.1.relative, hroot, Option.bind_some, happend]
  rw [hlang]
  rcases resolve [] r.language with _ | p
  · rfl
  · exact hb.resolve_append root p

theorem resolve_fdirOf_root :
    resolve t.cwd (fdirOf outputDir r) = (dirIn r).map fun q => root ++ q := by
  rw [resolve_fdirOf hr.2.relative]
  exact resolve_below hroot hr hr.2.rpartition_fst

theorem resolve_flocOf_root :
    resolve t.cwd (flocOf outputDir r) = (placeIn r).map fun q => root ++ q := by
  rw [resolve_flocOf hr.2.relative]
  exact resolve_below hroot hr hr.2

/-- Whether a path names a file does not depend on the output directory. -/
theorem namesFile_iff : NamesFile outputDir t.cwd r ↔
    ∃ d name, dirIn r = some d ∧ placeIn r = some (d ++ [name]) := by
  have hd := resolve_fdirOf_root hroot hr
  have hp := resolve_flocOf_root hroot hr
  unfold NamesFile
  rw [hd, hp]
  constructor
  · rintro ⟨d, name, hd, hp⟩
    obtain ⟨d', hd', rfl⟩ := Option.map_eq_some_iff.mp hd
    obtain ⟨p', hp', heq⟩ := Option.map_eq_some_iff.mp hp
    rw [List.append_assoc] at heq
    rw [List.append_cancel_left heq] at hp'
    exact ⟨d', name, hd', hp'⟩
  · rintro ⟨d, name, hd, hp⟩
    refine ⟨root ++ d, name, by rw [hd]; rfl, ?_⟩
    rw [hp, Option.map_some, List.append_assoc]

end record

/-- The output directory can be reached, and nothing is in it. -/
structure EmptyOutput (outputDir : Str) (t : Files) (root : Place) : Prop where
  place : resolve t.cwd outputDir = some root
  reach : ∀ q ∈ passed t.cwd outputDir, t.IsDir q
  empty : ∀ q, root <+: q → q ≠ root → t.get q = none

theorem EmptyOutput.isDir_root (h : EmptyOutput outputDir t root) : t.IsDir root :=
  h.reach root (mem_passed_of_resolve h.place)

theorem EmptyOutput.not_isFile (h : EmptyOutput outputDir t root) {p : Place}
    (hp : root <+: p) : ¬ t.IsFile p := by
  by_cases hne : p = root
  · rw [hne]
    exact fun hfile => hfile.not_isDir h.isDir_root
  · exact fun hfile => hfile.get_ne_none (h.empty p hp hne)

/-! ### What a run leaves in the output directory -/

section run

variable (hlanguages : ∀ p ∈ ps, encode (languageOf p.name) ≠ some [0x2E, 0x2E])
  (hpaths : ∀ r ∈ fresh (records ps), Descends r.repoPath)
  (hout : EmptyOutput outputDir t root) (hrun : cli env ps outputDir t = .ok s)
include hlanguages hpaths hout hrun

/-- The place of a fresh record. -/
theorem exists_placeIn (hr : r ∈ fresh (records ps)) :
    ∃ q, placeIn r = some q ∧ resolve t.cwd (flocOf outputDir r) = some (root ++ q) := by
  have hp := resolve_fresh hrun hr
  have hbelow := below_of_fresh hlanguages hpaths hr
  rw [resolve_flocOf_root hout.place hbelow] at hp
  obtain ⟨q, hq, -⟩ := Option.map_eq_some_iff.mp hp
  refine ⟨q, hq, ?_⟩
  rw [resolve_flocOf_root hout.place hbelow, hq]
  rfl

/-- **What the fresh records write** is the corpus, put into the output directory. -/
theorem writes_eq_corpus : writes outputDir t.cwd (records ps) =
    (corpus ps).map (Prod.map (fun q => root ++ q) id) := by
  unfold writes corpus
  rw [List.map_map]
  refine List.map_congr_left fun r hr => ?_
  obtain ⟨q, hq, hp⟩ := exists_placeIn hlanguages hpaths hout hrun hr
  rw [item, hp, Function.comp_apply, hq]
  rfl

theorem file?_in_output (q : Place) : s.tree.file? (root ++ q) = last (corpus ps) q := by
  have hfree : ∀ p, root <+: p → ¬ t.IsFile p := fun p hp => hout.not_isFile hp
  have hinj : Function.Injective fun q : Place => root ++ q := fun _ _ => List.append_cancel_left
  rw [file?_eq_last hrun hfree (List.prefix_append root q),
    writes_eq_corpus hlanguages hpaths hout hrun]
  exact last_map_injective hinj (corpus ps) q

/-- The directories are those that lie above something of the corpus. -/
theorem isDir_in_output (hC : CreateDirSpec env) (q : Place) :
    s.tree.IsDir (root ++ q) ↔ q = [] ∨ ∃ w ∈ corpus ps, q <+: w.1 ∧ q ≠ w.1 := by
  have hplaced := placed_of_cli hC hrun
  constructor
  · intro hdir
    by_cases hq : q = []
    · exact Or.inl hq
    have hnone : t.get (root ++ q) = none :=
      hout.empty _ (List.prefix_append root q) (by simpa using hq)
    have hnew := ((isDir_of_cli hC hrun _).mp hdir).resolve_left (Tree.not_isDir_of_get hnone)
    obtain ⟨r, hr, w, hw, hqw⟩ := hnew
    obtain ⟨q', hq', hp⟩ := exists_placeIn hlanguages hpaths hout hrun hr
    have hnames := namesFile_of_placed hplaced hr
    obtain ⟨-, hbetween⟩ := spot_in_empty hout.place hout.reach hlanguages hpaths hout.empty
      hnames hr ⟨hw, hp⟩
    obtain ⟨-, hpre, hne⟩ := (hbetween _ hqw).resolve_left (Tree.not_isDir_of_get hnone)
    have hmem : (q', (encode r.text).getD []) ∈ corpus ps :=
      List.mem_map.mpr ⟨r, hr, by rw [hq']; rfl⟩
    refine Or.inr ⟨_, hmem, (List.prefix_append_right_inj root).mp hpre, ?_⟩
    rintro rfl
    exact hne rfl
  · rintro (rfl | ⟨w, hw, hpre, hne⟩)
    · rw [List.append_nil]
      exact (replays_of_ok hrun).below.dir root hout.isDir_root
    · obtain ⟨r, hr, rfl⟩ := List.mem_map.mp hw
      obtain ⟨q', hq', hp⟩ := exists_placeIn hlanguages hpaths hout hrun hr
      simp only [hq', Option.getD_some] at hpre hne
      have hfile : s.tree.IsFile (root ++ q') := hplaced.isFile hr hp
      have hpre' : root ++ q <+: root ++ q' := (List.prefix_append_right_inj root).mpr hpre
      refine Tree.isDir_of_prefix hfile.get_ne_none hpre' ?_
      exact fun heq => hne (List.append_cancel_left heq)

/-! ### The directories of the languages -/

section languages

variable (hnamed : ∀ p ∈ ps, encode (languageOf p.name) ∉ [some [], some [0x2E]])
include hnamed

/-- The place of a fresh record, seen from the output directory, starts with its language. -/
theorem placeIn_eq_cons (hr : r ∈ fresh (records ps)) : ∃ name q,
    encode r.language = some name ∧ resolve [] r.repoPath = some q ∧
      placeIn r = some (name :: q) := by
  obtain ⟨p, hp, hlanguage⟩ := exists_pickle (mem_of_mem_firsts _ hr)
  obtain ⟨place, hplace, -⟩ := exists_placeIn hlanguages hpaths hout hrun hr
  obtain ⟨d, hd, hfile⟩ := Option.bind_eq_some_iff.mp hplace
  have hslash := slash_notMem_language hr
  unfold resolve at hd
  split_ifs at hd
  rw [moves_of_notMem hslash, start_of_relative (relative_of_notMem hslash), Option.map_map] at hd
  obtain ⟨name, hname, rfl⟩ := Option.map_eq_some_iff.mp hd
  -- the language is a proper name
  have hup := hlanguages p hp
  have hstay := hnamed p hp
  rw [← hlanguage, hname] at hup hstay
  have hdown : component name = .down name := by
    unfold component
    rw [if_neg (by simpa using hstay), if_neg (by simpa using hup)]
  have hd : target [] [component name] = [name] ++ [] := by
    rw [hdown]
    rfl
  rw [Function.comp_apply, hd, (hpaths r hr).resolve_append [name] []] at hfile
  obtain ⟨q, hq, rfl⟩ := Option.map_eq_some_iff.mp hfile
  exact ⟨name, q, hname, hq, hplace⟩

theorem placeIn_eq_iff (hr : r ∈ fresh (records ps)) (name : Name) (q : Place) :
    (placeIn r).getD [] = name :: q ↔
      encode r.language = some name ∧ (resolve [] r.repoPath).getD [] = q := by
  obtain ⟨name', place, hname, hplace, hp⟩ :=
    placeIn_eq_cons hlanguages hpaths hout hrun hnamed hr
  rw [hname, hplace, hp, Option.getD_some, Option.getD_some, List.cons.injEq, Option.some.injEq]

theorem mem_corpusOf_iff {name : Name} {q : Place} {c : Bytes} :
    (q, c) ∈ corpusOf name ps ↔ (name :: q, c) ∈ corpus ps := by
  simp only [corpus, corpusOf, List.mem_map, List.mem_filter, decide_eq_true_eq, Prod.mk.injEq]
  constructor
  · rintro ⟨r, ⟨hr, hname⟩, hplace, hc⟩
    have hp := (placeIn_eq_iff hlanguages hpaths hout hrun hnamed hr name q).mpr ⟨hname, hplace⟩
    exact ⟨r, hr, hp, hc⟩
  · rintro ⟨r, hr, hp, hc⟩
    obtain ⟨hname, hplace⟩ :=
      (placeIn_eq_iff hlanguages hpaths hout hrun hnamed hr name q).mp hp
    exact ⟨r, ⟨hr, hname⟩, hplace, hc⟩

/-- **The directory of a language** holds the fresh records of this language, and nothing else: no
record of another language replaces one of its files. -/
theorem language_directory (hC : CreateDirSpec env) (name : Name) (q : Place) :
    s.tree.file? (root ++ name :: q) = last (corpusOf name ps) q ∧
    (s.tree.IsDir (root ++ name :: q) ↔ ∃ w ∈ corpusOf name ps, q <+: w.1 ∧ q ≠ w.1) := by
  constructor
  · rw [file?_in_output hlanguages hpaths hout hrun]
    exact last_filter fun r hr => placeIn_eq_iff hlanguages hpaths hout hrun hnamed hr name q
  · have hmem : ∀ q' c, (q', c) ∈ corpusOf name ps ↔ (name :: q', c) ∈ corpus ps := fun q' c =>
      mem_corpusOf_iff hlanguages hpaths hout hrun hnamed
    rw [isDir_in_output hlanguages hpaths hout hrun hC, or_iff_right (List.cons_ne_nil name q)]
    constructor
    · rintro ⟨⟨_, c⟩, hw, ⟨rest, rfl⟩, hne⟩
      refine ⟨(q ++ rest, c), (hmem _ c).mpr hw, List.prefix_append q rest, fun heq => hne ?_⟩
      exact congrArg (List.cons name) heq
    · rintro ⟨⟨q', c⟩, hw, hpre, hne⟩
      refine ⟨(name :: q', c), (hmem q' c).mp hw, List.cons_prefix_cons.mpr ⟨rfl, hpre⟩, ?_⟩
      exact fun heq => hne (List.cons.inj heq).2

end languages

end run

theorem emptyOutput_licenses : EmptyOutput licenses emptyLicenses licensesDir where
  place := by decide +kernel
  reach := by decide +kernel
  empty q hq hne := by
    refine get_emptyLicenses ?_ hne
    rintro rfl
    exact absurd hq (by decide)

/-- The path of `samePath` in another language. -/
def otherLanguage : Pickle where
  name := str ['c', '_', '0']
  load := .ok ⟨[(str ['r'], [(str ['a', '/', 'L'], str ['C'])])], by decide⟩

/-- Seen from `licenses/c`, its text is at `a/L`. -/
theorem language_directory_otherLanguage :
    let ps := [samePath, otherLanguage]
    let s := (cli utf8Env ps licenses emptyLicenses).state
    s.tree.file? (licensesDir ++ [0x63] :: [[0x61], [0x4C]]) =
        last (corpusOf [0x63] ps) [[0x61], [0x4C]] ∧
      (s.tree.IsDir (licensesDir ++ [0x63] :: [[0x61], [0x4C]]) ↔
        ∃ w ∈ corpusOf [0x63] ps, [[0x61], [0x4C]] <+: w.1 ∧ [[0x61], [0x4C]] ≠ w.1) := by
  intro ps s
  have hC : CreateDirSpec utf8Env := makeMissing_spec
  exact language_directory (by decide +kernel) (by decide +kernel) emptyOutput_licenses
    (eq_ok_of_isOk (by decide +kernel)) (by decide +kernel) hC [0x63] [[0x61], [0x4C]]

/-! ### Another output directory -/

section moved

variable (hlanguages : ∀ p ∈ ps, encode (languageOf p.name) ≠ some [0x2E, 0x2E])
  (hpaths : ∀ r ∈ fresh (records ps), Descends r.repoPath)
  (hout : EmptyOutput outputDir t root) (hrun : cli env ps outputDir t = .ok s)
  (hout' : EmptyOutput outputDir' t' root')
include hlanguages hpaths hout hrun hout'

/-- **There is room for the records** in any empty output directory. -/
theorem free_moved (hC : CreateDirSpec env) (houtput' : outputDir' ≠ []) :
    Free outputDir' t' (fresh (records ps)) := by
  have hplaced := placed_of_cli hC hrun
  have hbelow : ∀ r ∈ fresh (records ps), Below r := fun r hr =>
    below_of_fresh hlanguages hpaths hr
  refine free_of_names hout'.place hout'.reach hlanguages hpaths hout'.empty houtput'
    (fun r hr => ?_) (fun r hr r' hr' p p' hp hp' hpre => ?_)
  · have hnames := namesFile_of_placed hplaced hr
    rw [namesFile_iff hout.place (hbelow r hr)] at hnames
    exact (namesFile_iff hout'.place (hbelow r hr)).mpr hnames
  · rw [resolve_flocOf_root hout'.place (hbelow r hr)] at hp
    rw [resolve_flocOf_root hout'.place (hbelow r' hr')] at hp'
    obtain ⟨q, hq, rfl⟩ := Option.map_eq_some_iff.mp hp
    obtain ⟨q', hq', rfl⟩ := Option.map_eq_some_iff.mp hp'
    have hfirst : resolve t.cwd (flocOf outputDir r) = some (root ++ q) := by
      rw [resolve_flocOf_root hout.place (hbelow r hr), hq]
      rfl
    have hsecond : resolve t.cwd (flocOf outputDir r') = some (root ++ q') := by
      rw [resolve_flocOf_root hout.place (hbelow r' hr'), hq']
      rfl
    have hpre' : root ++ q' <+: root ++ q :=
      (List.prefix_append_right_inj root).mpr ((List.prefix_append_right_inj root').mp hpre)
    rw [List.append_cancel_left (apart_of_placed hplaced hr hr' hfirst hsecond hpre')]

/-- **A run can be done over anywhere else**: into any other empty output directory where the paths
keep the limits it finishes with the same output, and it leaves there, place by place, the same
directories and files. -/
theorem same_anywhere (hC : CreateDirSpec env) (hC' : CreateDirSpec env')
    (hstdout : env'.stdout = env.stdout) (houtput' : outputDir' ≠ [])
    (haccepted' : Accepted env' outputDir' (fresh (records ps))) :
    ∃ s', cli env' ps outputDir' t' = .ok s' ∧ s'.out = s.out ∧
      ∀ q, s'.tree.get (root' ++ q) = s.tree.get (root ++ q) := by
  have hcompletes := completes_of_cli hC hrun
  have hagain : Completes env' outputDir' t' ps := by
    refine ⟨hcompletes.loads, ?_, hcompletes.encodes, haccepted',
      free_moved hlanguages hpaths hout hrun hout' hC houtput'⟩
    rw [hstdout]
    exact hcompletes.prints
  obtain ⟨s', hrun'⟩ := cli_of_completes hC' hagain
  refine ⟨s', hrun', by rw [cli_report hrun', cli_report hrun], fun q => ?_⟩
  have hdir : s'.tree.IsDir (root' ++ q) ↔ s.tree.IsDir (root ++ q) := by
    rw [isDir_in_output hlanguages hpaths hout' hrun' hC',
      isDir_in_output hlanguages hpaths hout hrun hC]
  have hfile : s'.tree.file? (root' ++ q) = s.tree.file? (root ++ q) := by
    rw [file?_in_output hlanguages hpaths hout' hrun',
      file?_in_output hlanguages hpaths hout hrun]
  exact Tree.get_eq_of hdir hfile

end moved

/-- The path `licenses/x`. -/
def inner : Str := licenses ++ str ['/', 'x']

def innerDir : Place := licensesDir ++ [[0x78]]

theorem emptyOutput_inner : EmptyOutput inner (emptyLicenses.mkdir innerDir) innerDir where
  place := by decide +kernel
  reach := by decide +kernel
  empty q hq hne := by
    have hlicenses : q ≠ licensesDir := by
      rintro rfl
      exact absurd hq (by decide)
    rw [Tree.get_mkdir_of_ne _ hne]
    exact emptyOutput_licenses.empty q ((List.prefix_append licensesDir _).trans hq) hlicenses

/-- The corpus of `licenses` is made once more in `licenses/x`. -/
theorem same_anywhere_inner :
    let s := (cli utf8Env [samePath] licenses emptyLicenses).state
    ∃ s', cli utf8Env [samePath] inner (emptyLicenses.mkdir innerDir) = .ok s' ∧
      s'.out = s.out ∧ ∀ q, s'.tree.get (innerDir ++ q) = s.tree.get (licensesDir ++ q) := by
  intro s
  have hC : CreateDirSpec utf8Env := makeMissing_spec
  exact same_anywhere (by decide +kernel) (by decide +kernel) emptyOutput_licenses
    (eq_ok_of_isOk (by decide +kernel)) emptyOutput_inner hC hC rfl (by decide)
    (by decide +kernel)

end Exlic.OutputDir
