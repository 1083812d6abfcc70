import Exlic.Destination
import Exlic.FinalTree
import Exlic.Stopped

/-! # Where the files of a run lie

A file always lies in the directory that was made for it (`file_in_directory`), so a record whose
path ends in a slash or in `..` is never saved. If no path goes up, a run changes only what is below
the directories of its languages (`confined_to_languages`), and one into an empty output directory
finishes exactly if, besides what can be encoded and loaded, every path names a file and no file is
to be made below another one (`completes_iff_of_below`). -/

namespace Exlic.Layout

open Exlic.Lib.Command Exlic.Lib.Command.Outcome Exlic.Lib.Effects Exlic.Lib.FileTree
open Exlic.Lib.Firsts
open Exlic.Py.Strings Exlic.Py.Utf8 Exlic.Py.Paths Exlic.Py.PathJoin Exlic.Py.Leading
open Exlic.Cli Exlic.Records Exlic.Steps Exlic.History Exlic.CreateDir Exlic.Completion
open Exlic.Destination Exlic.FinalTree Exlic.Stopped
open Exlic.Corpus (samePath)
open Exlic.Recovery (oneFile oneFilePlace)

variable {env : Env} {outputDir : Str} {t l : Files} {ps : List Pickle} {r : Record} {s : State}

/-! ### The file and its directory -/

/-- The file of a record is one component below its directory. -/
def NamesFile (outputDir : Str) (cwd : Place) (r : Record) : Prop :=
  ∃ d name, resolve cwd (fdirOf outputDir r) = some d ∧
    resolve cwd (flocOf outputDir r) = some (d ++ [name])

/-- Where a record is saved, seen from its directory. -/
theorem exists_move_of_floc {cwd p : Place} (hp : resolve cwd (flocOf outputDir r) = some p) :
    ∃ d m, resolve cwd (fdirOf outputDir r) = some d ∧ p = move d m := by
  have hslash := notMem_rpartition slash r.repoPath
  have hname := relative_of_notMem hslash
  rw [flocOf, resolve_join hname] at hp
  obtain ⟨d, hd, hp⟩ := Option.bind_eq_some_iff.mp hp
  unfold resolve at hp
  split_ifs at hp
  rw [start_of_relative hname, moves_of_notMem hslash, Option.map_map] at hp
  obtain ⟨name, -, rfl⟩ := Option.map_eq_some_iff.mp hp
  exact ⟨d, component name, hd, rfl⟩

theorem namesFile_of_placed {last : Files}
    (h : Placed outputDir t.cwd (fresh (records ps)) last) (hr : r ∈ fresh (records ps)) :
    NamesFile outputDir t.cwd r := by
  obtain ⟨w, p, hspot, hdirs, hfile⟩ := h r hr
  obtain ⟨d, m, hd, rfl⟩ := exists_move_of_floc hspot.place_eq
  have hdir : last.IsDir d := by
    refine hdirs d ?_
    have hw := hspot.way_eq
    unfold way at hw
    unfold resolve at hd
    split_ifs at hw hd
    obtain ⟨ms, hms, rfl⟩ := Option.map_eq_some_iff.mp hw
    rw [hms] at hd
    obtain rfl := Option.some.inj hd
    exact target_mem_trail _ ms
  -- the other moves lead from a directory to a directory
  cases m with
  | stay => exact absurd hdir hfile.not_isDir
  | up => exact absurd (Tree.isDir_dropLast hdir) hfile.not_isDir
  | down name => exact ⟨d, name, hd, hspot.place_eq⟩

/-- No record is saved above the place of another one. -/
theorem apart_of_placed {last : Files} {r' : Record}
    (h : Placed outputDir t.cwd (fresh (records ps)) last) (hr : r ∈ fresh (records ps))
    (hr' : r' ∈ fresh (records ps)) {p p' : Place}
    (hp : resolve t.cwd (flocOf outputDir r) = some p)
    (hp' : resolve t.cwd (flocOf outputDir r') = some p') (hpre : p' <+: p) : p' = p := by
  -- the shorter place would be a directory
  by_contra hne
  have hfile : last.IsFile p := h.isFile hr hp
  have hdir : last.IsDir p' := Tree.isDir_of_prefix hfile.get_ne_none hpre hne
  exact (h.isFile hr' hp').not_isDir hdir

/-- **A file lies in the directory made for it**, whatever the paths of the records. -/
theorem file_in_directory (hC : CreateDirSpec env)
    (hrun : cli env ps outputDir t = .ok s) : ∀ r ∈ fresh (records ps), ∃ d name,
      resolve t.cwd (fdirOf outputDir r) = some d ∧ s.tree.IsDir d ∧
      resolve t.cwd (flocOf outputDir r) = some (d ++ [name]) ∧ s.tree.IsFile (d ++ [name]) := by
  intro r hr
  have hplaced := placed_of_cli hC hrun
  obtain ⟨d, name, hd, hfloc⟩ := namesFile_of_placed hplaced hr
  have hfile : s.tree.IsFile (d ++ [name]) := hplaced.isFile hr hfloc
  have hdir : s.tree.IsDir d :=
    Tree.isDir_of_prefix hfile.get_ne_none (List.prefix_append d [name]) (by simp)
  exact ⟨d, name, hd, hdir, hfloc, hfile⟩

theorem file_in_directory_samePath :
    let s := (cli utf8Env [samePath] licenses emptyLicenses).state
    ∃ r ∈ fresh (records [samePath]), ∃ d name,
      resolve emptyLicenses.cwd (fdirOf licenses r) = some d ∧ s.tree.IsDir d ∧
      resolve emptyLicenses.cwd (flocOf licenses r) = some (d ++ [name]) ∧
      s.tree.IsFile (d ++ [name]) := by
  intro s
  have hrun : cli utf8Env [samePath] licenses emptyLicenses = .ok s :=
    eq_ok_of_isOk (by decide +kernel)
  have hpos : 0 < (fresh (records [samePath])).length := by decide +kernel
  obtain ⟨r, hr⟩ := List.exists_mem_of_length_pos hpos
  exact ⟨r, hr, file_in_directory makeMissing_spec hrun r hr⟩

/-! ### Paths that do not go up -/

variable {root : Place}

/-- The place of a record and its directory, seen from the directory of its language. -/
theorem exists_languageDir (hroot : resolve t.cwd outputDir = some root) (hr : Below r) {d : Place}
    (hd : resolve t.cwd (fdirOf outputDir r) = some d) :
    ∃ p, resolve t.cwd (join outputDir r.language) = some p ∧ root <+: p ∧ p <+: d := by
  rw [resolve_fdirOf hr.2.relative] at hd
  obtain ⟨p, hp, hd⟩ := Option.bind_eq_some_iff.mp hd
  exact ⟨p, hp, resolve_languageDir hroot hr hp, hr.2.rpartition_fst.prefix_of_resolve hd⟩

/-- **The way to a record that does not go up**: the way to the output directory, and then places
between the directory of the language and that of the record. -/
theorem way_cases (hroot : resolve t.cwd outputDir = some root) (hr : Below r)
    (hlanguage : slash ∉ r.language) {w : List Place} {d : Place}
    (hw : way t.cwd (fdirOf outputDir r) = some w)
    (hd : resolve t.cwd (fdirOf outputDir r) = some d) {q : Place} (hq : q ∈ w) :
    q ∈ passed t.cwd outputDir ∨
      ∃ p, resolve t.cwd (join outputDir r.language) = some p ∧ root <+: p ∧ p <+: q ∧ q <+: d := by
  obtain ⟨p, hp, hrp, hpd⟩ := exists_languageDir hroot hr hd
  rw [resolve_fdirOf hr.2.relative, hp, Option.bind_some] at hd
  have hdir := hr.2.rpartition_fst
  obtain hq | hq := mem_passed_join hdir.relative hp (mem_passed_of_way hw hq)
  · obtain hq | hq := mem_passed_join hr.1.relative hroot hq
    · exact Or.inl hq
    · have hlang := hp
      rw [resolve_join hr.1.relative, hroot, Option.bind_some] at hlang
      obtain rfl | rfl := passed_of_notMem hlanguage hlang hq
      · exact Or.inl (mem_passed_of_resolve hroot)
      · exact Or.inr ⟨q, hp, hrp, List.prefix_refl q, hpd⟩
  · exact Or.inr ⟨p, hp, hrp, hdir.prefix_of_passed hq, hdir.passed_prefix hd hq⟩

/-- A place that a leading part of its directory passes is on the way to the output directory, or
below the directory of the language. -/
theorem onWay_cases (hroot : resolve t.cwd outputDir = some root) (hr : Below r)
    (hlanguage : slash ∉ r.language) {q : Place} (hq : OnWay outputDir t.cwd r q) :
    q ∈ passed t.cwd outputDir ∨
      ∃ p, resolve t.cwd (join outputDir r.language) = some p ∧ root <+: p ∧ p <+: q := by
  obtain ⟨lead, hlead, w, hw, hqw⟩ := hq
  rw [fdirOf, join_assoc] at hlead
  obtain hq | ⟨lead', hlead', -, w', hw', hqw', -⟩ := passed_of_leads_join hroot hlead hw hqw
  · exact Or.inl hq
  have hlang : ∀ {p : Place}, resolve root r.language = some p →
      resolve t.cwd (join outputDir r.language) = some p ∧ root <+: p := by
    intro p hp
    refine ⟨?_, hr.1.prefix_of_resolve hp⟩
    rw [resolve_join hr.1.relative, hroot, Option.bind_some, hp]
  have hfirst : ∀ {p : Place}, resolve root r.language = some p → q ∈ passed root r.language →
      q ∈ passed t.cwd outputDir ∨
        ∃ p, resolve t.cwd (join outputDir r.language) = some p ∧ root <+: p ∧ p <+: q := by
    intro p hp hq
    obtain rfl | rfl := passed_of_notMem hlanguage hp hq
    · exact Or.inl (mem_passed_of_resolve hroot)
    · exact Or.inr ⟨q, (hlang hp).1, (hlang hp).2, List.prefix_refl q⟩
  obtain ⟨d, hd⟩ := exists_resolve_of_way hw'
  have hne : lead' ≠ [] := by
    rintro rfl
    simp [way] at hw'
  obtain hlead' | ⟨rest, hrest, rfl⟩ := leads_join hlead' hne
  · rw [leads_of_notMem hlanguage, List.mem_singleton] at hlead'
    rw [hlead'] at hd hw'
    exact hfirst hd (mem_passed_of_way hw' hqw')
  · have hdescends := descends_of_leads hrest hr.2.rpartition_fst
    rw [resolve_join hdescends.relative] at hd
    obtain ⟨p, hp, -⟩ := Option.bind_eq_some_iff.mp hd
    obtain hq | hq := mem_passed_join hdescends.relative hp (mem_passed_of_way hw' hqw')
    · exact hfirst hp hq
    · exact Or.inr ⟨p, (hlang hp).1, (hlang hp).2, hdescends.prefix_of_passed hq⟩

/-- A place is not below itself. -/
theorem ne_child {q d : Place} (name : Name) (h : q <+: d) : q ≠ d ++ [name] := by
  rintro rfl
  have hlen := h.length_le
  rw [List.length_append, List.length_singleton] at hlen
  omega

theorem slash_notMem_language (hr : r ∈ fresh (records ps)) : slash ∉ r.language := by
  obtain ⟨p, -, hlang⟩ := exists_pickle (mem_of_mem_firsts _ hr)
  rw [hlang]
  exact slash_notMem_languageOf p.name

section run

variable (hroot : resolve t.cwd outputDir = some root)
  (hreach : ∀ q ∈ passed t.cwd outputDir, t.IsDir q)
  (hlanguages : ∀ p ∈ ps, encode (languageOf p.name) ≠ some [0x2E, 0x2E])
  (hpaths : ∀ r ∈ fresh (records ps), Descends r.repoPath)

include hroot hreach hlanguages hpaths

/-- **What a run whose paths do not go up may change**, wherever it is stopped: only what is below
the directories of its languages. -/
theorem confined_to_languages (hT : Touches env)
    (hl : Interrupted t (cli env ps outputDir t).state.effects l) (q : Place)
    (hq : l.get q ≠ t.get q) : ∃ p ∈ ps, ∃ d,
      resolve t.cwd (join outputDir (languageOf p.name)) = some d ∧ root <+: d ∧ d <+: q := by
  suffices h : t.get q = l.get q ∨ ∃ r ∈ fresh (records ps), ∃ d,
      resolve t.cwd (join outputDir r.language) = some d ∧ root <+: d ∧ d <+: q by
    obtain ⟨r, hr, d, hd⟩ := h.resolve_left fun h => hq h.symm
    obtain ⟨p, hp, hlang⟩ := exists_pickle (mem_of_mem_firsts _ hr)
    rw [hlang] at hd
    exact ⟨p, hp, d, hd⟩
  by_contra! h
  refine h.1 (Tree.get_eq_of ⟨fun hdir => ?_, fun hdir => ?_⟩ ?_)
  · exact (interrupted_between hl).1.dir q hdir
  · obtain hold | ⟨r, hr, honway⟩ := isDir_stopped hl hT hdir
    · exact hold
    · have hbelow := below_of_fresh hlanguages hpaths hr
      obtain hpassed | ⟨p, hp, hrp, hpq⟩ :=
        onWay_cases hroot hbelow (slash_notMem_language hr) honway
      · exact hreach q hpassed
      · exact absurd hpq (h.2 r hr p hp hrp)
  · obtain hold | ⟨r, hr, hplace, -⟩ := file?_stopped hl q
    · exact hold.symm
    · have hbelow := below_of_fresh hlanguages hpaths hr
      rw [resolve_flocOf hbelow.2.relative] at hplace
      obtain ⟨p, hp, hplace⟩ := Option.bind_eq_some_iff.mp hplace
      have hpq := hbelow.2.prefix_of_resolve hplace
      exact absurd hpq (h.2 r hr p hp (resolve_languageDir hroot hbelow hp))

section empty

variable (hempty : ∀ q, root <+: q → q ≠ root → t.get q = none)
include hempty

/-- The places of a record in a tree that has nothing below the root. -/
theorem spot_in_empty (hnames : NamesFile outputDir t.cwd r) (hr : r ∈ fresh (records ps))
    {w : List Place} {p : Place} (hspot : Spot outputDir t.cwd r w p) :
    t.get p = none ∧ ∀ q ∈ w, t.IsDir q ∨ root <+: q ∧ q <+: p ∧ q ≠ p := by
  have hbelow := below_of_fresh hlanguages hpaths hr
  obtain ⟨d, name, hd, hfloc⟩ := hnames
  obtain rfl : p = d ++ [name] := Option.some.inj (hspot.place_eq.symm.trans hfloc)
  obtain ⟨p', -, hrp, hpd⟩ := exists_languageDir hroot hbelow hd
  have hrd := hrp.trans hpd
  refine ⟨hempty _ (hrd.trans (List.prefix_append d [name])) ?_, fun q hq => ?_⟩
  · exact (ne_child name hrd).symm
  · obtain hq | ⟨p', -, hrp, hpq, hqd⟩ :=
      way_cases hroot hbelow (slash_notMem_language hr) hspot.way_eq hd hq
    · exact Or.inl (hreach q hq)
    · exact Or.inr ⟨hrp.trans hpq, hqd.trans (List.prefix_append d [name]),
        ne_child name hqd⟩

theorem free_of_names (houtput : outputDir ≠ [])
    (hnames : ∀ r ∈ fresh (records ps), NamesFile outputDir t.cwd r)
    (hapart : ∀ r ∈ fresh (records ps), ∀ r' ∈ fresh (records ps), ∀ p p',
      resolve t.cwd (flocOf outputDir r) = some p →
      resolve t.cwd (flocOf outputDir r') = some p' → p' <+: p → p' = p) :
    Free outputDir t (fresh (records ps)) := by
  have hspots : ∀ r ∈ fresh (records ps), ∀ w p, Spot outputDir t.cwd r w p →
      t.get p = none ∧ ∀ q ∈ w, t.IsDir q ∨ root <+: q ∧ q <+: p ∧ q ≠ p := fun r hr w p hspot =>
    spot_in_empty hroot hreach hlanguages hpaths hempty (hnames r hr) hr hspot
  refine ⟨fun r hr => ?_, fun r hr w p hspot q hq hfile => ?_,
    fun r hr w p hspot => Tree.not_isDir_of_get (hspots r hr w p hspot).1,
    fun r hr r' hr' w p w' p' hspot hspot' hmem => ?_⟩
  · obtain ⟨d, name, hd, hfloc⟩ := hnames r hr
    obtain ⟨w, hw⟩ := exists_way_of_resolve (join_ne_nil (join_ne_nil houtput _) _) hd
    exact ⟨w, _, hw, hfloc⟩
  · obtain hdir | ⟨hrq, -⟩ := (hspots r hr w p hspot).2 q hq
    · exact hfile.not_isDir hdir
    · by_cases hqr : q = root
      · rw [hqr] at hfile
        exact hfile.not_isDir (hreach root (mem_passed_of_resolve hroot))
      · exact hfile.get_ne_none (hempty q hrq hqr)
  · obtain hdir | ⟨-, hpre, hne⟩ := (hspots r hr w p hspot).2 p' hmem
    · exact Tree.not_isDir_of_get (hspots r' hr' w' p' hspot').1 hdir
    · exact hne (hapart r hr r' hr' p p' hspot.place_eq hspot'.place_eq hpre)

/-- **When a run into an empty output directory finishes**, if no path goes up: every path has to
name a file, and none of these may be needed as a directory. -/
theorem completes_iff_of_below (hC : CreateDirSpec env) (houtput : outputDir ≠ []) :
    (∃ s, cli env ps outputDir t = .ok s) ↔
      (∀ p ∈ ps, (∃ d, p.load = .ok d) ∧ env.stdout (languageOf p.name)) ∧
      (∀ r ∈ records ps, ∃ encoded, encode r.text = some encoded) ∧
      Accepted env outputDir (fresh (records ps)) ∧
      (∀ r ∈ fresh (records ps), NamesFile outputDir t.cwd r) ∧
      ∀ r ∈ fresh (records ps), ∀ r' ∈ fresh (records ps), ∀ p p',
        resolve t.cwd (flocOf outputDir r) = some p →
        resolve t.cwd (flocOf outputDir r') = some p' → p' <+: p → p' = p := by
  constructor
  · rintro ⟨s, hrun⟩
    have hc := completes_of_cli hC hrun
    have hplaced := placed_of_cli hC hrun
    exact ⟨fun p hp => ⟨hc.loads p hp, hc.prints p hp⟩, hc.encodes, hc.accepted,
      fun r hr => namesFile_of_placed hplaced hr,
      fun r hr r' hr' p p' hp hp' hpre => apart_of_placed hplaced hr hr' hp hp' hpre⟩
  · rintro ⟨hpickles, hencodes, haccepted, hnames, hapart⟩
    exact cli_of_completes hC ⟨fun p hp => (hpickles p hp).1, fun p hp => (hpickles p hp).2,
      hencodes, haccepted,
      free_of_names hroot hreach hlanguages hpaths hempty houtput hnames hapart⟩

end empty

end run

/-- What a run that was stopped has changed lies below `licenses/py`. -/
theorem confined_to_languages_oneFile :
    let s := (cli utf8Env [oneFile] licenses emptyLicenses).state
    let l := (replay emptyLicenses (s.effects.take 3)).put oneFilePlace [0x41]
    l.get oneFilePlace ≠ emptyLicenses.get oneFilePlace ∧ ∃ p ∈ [oneFile], ∃ d,
      resolve emptyLicenses.cwd (join licenses (languageOf p.name)) = some d ∧
        licensesDir <+: d ∧ d <+: oneFilePlace := by
  intro s l
  have hC : CreateDirSpec utf8Env := makeMissing_spec
  have hl : Interrupted emptyLicenses s.effects l :=
    .within _ (s.effects.drop 4) oneFilePlace [0x41] [0x41, 0x41] (by decide +kernel) (by decide)
  have hchanged : l.get oneFilePlace ≠ emptyLicenses.get oneFilePlace := by decide +kernel
  exact ⟨hchanged, confined_to_languages (by decide +kernel) (by decide +kernel)
    (by decide +kernel) (by decide +kernel) hC.toTouches hl oneFilePlace hchanged⟩

theorem completes_iff_of_below_fileInWay :
    (∃ s, cli utf8Env [fileInWay] licenses emptyLicenses = .ok s) ↔
      (∀ p ∈ [fileInWay], (∃ d, p.load = .ok d) ∧ utf8Env.stdout (languageOf p.name)) ∧
      (∀ r ∈ records [fileInWay], ∃ encoded, encode r.text = some encoded) ∧
      Accepted utf8Env licenses (fresh (records [fileInWay])) ∧
      (∀ r ∈ fresh (records [fileInWay]), NamesFile licenses emptyLicenses.cwd r) ∧
      ∀ r ∈ fresh (records [fileInWay]), ∀ r' ∈ fresh (records [fileInWay]), ∀ p p',
        resolve emptyLicenses.cwd (flocOf licenses r) = some p →
        resolve emptyLicenses.cwd (flocOf licenses r') = some p' → p' <+: p → p' = p := by
  have hroot : resolve emptyLicenses.cwd licenses = some licensesDir := by decide +kernel
  have hC : CreateDirSpec utf8Env := makeMissing_spec
  refine completes_iff_of_below hroot (by decide +kernel) (by decide +kernel) (by decide +kernel)
    (fun q hq hne => get_emptyLicenses ?_ hne) hC (by decide)
  rintro rfl
  exact absurd hq (by decide)

end Exlic.Layout
