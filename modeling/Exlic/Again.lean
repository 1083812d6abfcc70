import Exlic.FinalTree
import Exlic.Inputs
import Exlic.Report

/-! # Running again

`run_again`: what a run does depends little on the tree it starts with. From any tree between the
first and the last one of a run that finishes, another run finishes with the same output; the files
its records do not write stay.

* `same_for_every_createDir`: `create_dir` matters only by its contract.
* `extend_corpus`: a corpus can be extended by running with more pickles on what is there.
* `resume_without`: a pickle that does not load can be left out on the next run.

In the last two, each run reads its arguments from the tree it finds. -/

namespace Exlic.Again

open Exlic.Lib.Command Exlic.Lib.Command.Outcome Exlic.Lib.FileTree Exlic.Lib.Writes
open Exlic.Py.Strings Exlic.Py.Utf8 Exlic.Py.Paths
open Exlic.Cli Exlic.Records Exlic.Steps Exlic.History Exlic.CreateDir Exlic.Completion
open Exlic.FinalTree Exlic.Report Exlic.Inputs
open Exlic.Corpus (samePath)

variable {env env' : Env} {outputDir : Str} {t u : Files} {ps qs : List Pickle} {s s' : State}

/-- **A run from a tree that lies between** the first and the last one of another run. -/
theorem run_again (hC : CreateDirSpec env) (hC' : CreateDirSpec env')
    (haccepts : env'.accepts = env.accepts) (hstdout : env'.stdout = env.stdout)
    (hrun : cli env ps outputDir t = .ok s) (hcwd : u.cwd = t.cwd)
    (htu : t.Below u) (hus : u.Below s.tree) :
    ∃ s', cli env' ps outputDir u = .ok s' ∧ s'.out = s.out ∧
      (∀ q, s'.tree.IsDir q ↔ s.tree.IsDir q) ∧
      ∀ p, s'.tree.file? p = (last (writes outputDir t.cwd (records ps)) p).or (u.file? p) := by
  have hcompletes := completes_of_cli hC hrun
  have hplaced := placed_of_cli hC hrun
  rw [← hcwd] at hplaced
  have hagain : Completes env' outputDir u ps := by
    refine ⟨hcompletes.loads, ?_, hcompletes.encodes, ?_, hplaced.free hus⟩
    · rw [hstdout]
      exact hcompletes.prints
    · rw [Accepted, haccepts]
      exact hcompletes.accepted
  obtain ⟨s', hrun'⟩ := cli_of_completes hC' hagain
  have hout : s'.out = s.out := by rw [cli_report hrun', cli_report hrun]
  refine ⟨s', hrun', hout, fun q => ?_, fun p => ?_⟩
  · rw [isDir_of_cli hC' hrun', hcwd]
    constructor
    · rintro (hq | hq)
      · exact hus.dir q hq
      · exact (isDir_of_cli hC hrun q).mpr (Or.inr hq)
    · intro hq
      exact ((isDir_of_cli hC hrun q).mp hq).imp_left (htu.dir q)
  · rw [(holds_of_cli hrun').file, hcwd]

/-- Two trees of runs are equal if their directories and files are. -/
theorem tree_eq_of_run (hrun : cli env ps outputDir t = .ok s)
    (hrun' : cli env' qs outputDir u = .ok s') (hcwd : u.cwd = t.cwd)
    (hdir : ∀ q, s'.tree.IsDir q ↔ s.tree.IsDir q)
    (hfile : ∀ p, s'.tree.file? p = s.tree.file? p) : s'.tree = s.tree := by
  refine Tree.ext_get ?_ fun p => Tree.get_eq_of (hdir p) (hfile p)
  rw [(holds_of_cli hrun').cwd, (holds_of_cli hrun).cwd, hcwd]

/-- **Only the contract of `create_dir` matters.** -/
theorem same_for_every_createDir (hC : CreateDirSpec env)
    (hC' : CreateDirSpec env') (haccepts : env'.accepts = env.accepts)
    (hstdout : env'.stdout = env.stdout) (hrun : cli env ps outputDir t = .ok s) :
    ∃ s', cli env' ps outputDir t = .ok s' ∧ s'.tree = s.tree ∧ s'.out = s.out := by
  obtain ⟨s', hrun', hout, hdir, hfile⟩ := run_again hC hC' haccepts hstdout hrun rfl
    (Tree.Below.refl t) (replays_of_ok hrun).below
  refine ⟨s', hrun', tree_eq_of_run hrun hrun' rfl hdir fun p => ?_, hout⟩
  rw [hfile, (holds_of_cli hrun).file]

/-- A `create_dir` that raises something else. -/
theorem same_for_every_createDir_samePath :
    let env : Env := { utf8Env with
      createDir := fun t s =>
        ((utf8Env.createDir t s).1, (utf8Env.createDir t s).2.map fun _ => .valueError) }
    ∃ s', cli env [samePath] licenses emptyLicenses = .ok s' ∧
      s'.tree = (cli utf8Env [samePath] licenses emptyLicenses).state.tree ∧
      s'.out = (cli utf8Env [samePath] licenses emptyLicenses).state.out := by
  intro env
  have hC : CreateDirSpec utf8Env := makeMissing_spec
  have hC' : CreateDirSpec env := hC.mapExn fun _ => .valueError
  exact same_for_every_createDir hC hC' rfl rfl (eq_ok_of_isOk (by decide +kernel))

/-! ### More pickles -/

/-- The pickles `ps` have been read, and `qs` are still to come. -/
theorem run_prefix (hrun : cli env (ps ++ qs) outputDir t = .ok s) :
    ∃ s₁, each (extractPickle env outputDir) ps (State.init t) = .ok s₁ ∧
      s₁.tree.Below s.tree := by
  obtain ⟨s₂, hloop, rfl⟩ := cli_eq_ok.mp hrun
  rw [each_append, andThen_eq_ok] at hloop
  obtain ⟨s₁, hfirst, hrest⟩ := hloop
  refine ⟨s₁, hfirst, ?_⟩
  exact each_backward (M := fun s => s.tree.Below s₂.tree)
    (fun _ _ _ _ hs hs' => (extractPickle_below hs).trans hs') hrest (Tree.Below.refl _)

/-- What the first pickles write, the run over all of them writes too. -/
theorem file?_of_prefix {s₁ : State}
    (hfirst : each (extractPickle env outputDir) ps (State.init t) = .ok s₁) (p : Place) :
    (last (writes outputDir t.cwd (records (ps ++ qs))) p).or (s₁.tree.file? p) =
      (last (writes outputDir t.cwd (records (ps ++ qs))) p).or (t.file? p) := by
  rcases hlast : last (writes outputDir t.cwd (records (ps ++ qs))) p with _ | c
  · rw [records_append, writes, fresh_append, List.map_append, last_append,
      Option.or_eq_none_iff] at hlast
    rw [(Holds.run hfirst).file]
    unfold writes
    rw [hlast.2, Option.none_or]
  · rw [Option.some_or, Option.some_or]

/-- A run over more pickles, on the tree that the first ones have left. -/
theorem run_on_prefix (hC : CreateDirSpec env)
    (hrun : cli env (ps ++ qs) outputDir t = .ok s) {s₁ : State}
    (hfirst : each (extractPickle env outputDir) ps (State.init t) = .ok s₁)
    (hbelow : s₁.tree.Below s.tree) :
    ∃ s', cli env (ps ++ qs) outputDir s₁.tree = .ok s' ∧ s'.tree = s.tree ∧ s'.out = s.out := by
  have hstart := replays_of_ok (cli_eq_ok.mpr ⟨s₁, hfirst, rfl⟩)
  have hcwd : s₁.tree.cwd = t.cwd := (Holds.run hfirst).cwd
  obtain ⟨s', hrun', hout, hdir, hfile⟩ := run_again hC hC rfl rfl hrun hcwd hstart.below
    hbelow
  refine ⟨s', hrun', tree_eq_of_run hrun hrun' hcwd hdir fun p => ?_, hout⟩
  rw [hfile, file?_of_prefix hfirst, (holds_of_cli hrun).file]

/-- The records of a part of the pickles that are fresh there are fresh in all of them. -/
theorem fresh_subset (ps qs : List Pickle) :
    fresh (records ps) ⊆ fresh (records (ps ++ qs)) := by
  rw [records_append, fresh_append]
  exact List.subset_append_left _ _

/-- A pickle that does not load has no records. -/
theorem records_without {p : Pickle} {e : Exn} (hload : p.load = .error e) (ps qs : List Pickle) :
    records (ps ++ p :: qs) = records (ps ++ qs) := by
  have hp : recordsOf p = [] := by rw [recordsOf, hload]
  have hcons : records (p :: qs) = recordsOf p ++ records qs := rfl
  rw [records_append, records_append, hcons, hp, List.nil_append]

section onTree

variable {unpickle : Bytes → Except Exn LicensesByRepo} {names names' : List Str}

/-- **Extending a corpus**: if a run over more pickles finishes, so does one over the first of them,
and on what this one leaves the longer run gives the same tree and the same output. -/
theorem extend_corpus (hC : CreateDirSpec env)
    (hexists : ∀ name ∈ names ++ names', PathExists t name)
    (hspared : Spared outputDir t.cwd (names ++ names')
      (fresh (records ((names ++ names').map (pickleAt env unpickle t)))))
    (hrun : cliOnTree env unpickle (names ++ names') outputDir t = .ok s) :
    ∃ s₁, cliOnTree env unpickle names outputDir t = .ok s₁ ∧
      ∃ s', cliOnTree env unpickle (names ++ names') outputDir s₁.tree = .ok s' ∧
        s'.tree = s.tree ∧ s'.out = s.out := by
  rw [cliOnTree_eq hexists hspared, List.map_append] at hrun
  obtain ⟨s₁, hfirst, hbelow⟩ := run_prefix hrun
  obtain ⟨s', hrun', hsame⟩ := run_on_prefix hC hrun hfirst hbelow
  have hcli : cli env (names.map (pickleAt env unpickle t)) outputDir t =
      .ok (s₁.print (.total s₁.totLicSaved s₁.totLicSkipped)) := cli_eq_ok.mpr ⟨s₁, hfirst, rfl⟩
  -- the first run spares all arguments, also those of the second one
  have hspared₁ : Spared outputDir t.cwd (names ++ names')
      (fresh (records (names.map (pickleAt env unpickle t)))) := by
    refine hspared.mono (List.Subset.refl _) ?_
    rw [List.map_append]
    exact fresh_subset _ _
  refine ⟨s₁.print (.total s₁.totLicSaved s₁.totLicSkipped), ?_, s', ?_, hsame⟩
  · have hnames := List.subset_append_left names names'
    rw [cliOnTree_eq (fun name hname => hexists name (hnames hname))
      (hspared₁.mono hnames (List.Subset.refl _))]
    exact hcli
  · have hagain := cliOnTree_after hcli hexists hspared₁ hspared
    rw [List.map_append] at hagain
    exact hagain.trans hrun'

/-- **Leaving out a pickle that does not load**: the run it stops can be run again without it, with
the tree and the output of a run that never met it. -/
theorem resume_without (hC : CreateDirSpec env) {broken : Str} {e : Exn}
    (hexists : ∀ name ∈ names ++ broken :: names', PathExists t name)
    (hspared : Spared outputDir t.cwd (names ++ broken :: names')
      (fresh (records ((names ++ names').map (pickleAt env unpickle t)))))
    (hload : (pickleAt env unpickle t broken).load = .error e)
    (hrun : cliOnTree env unpickle (names ++ names') outputDir t = .ok s) :
    ∃ s₁, cliOnTree env unpickle (names ++ broken :: names') outputDir t = .raised e s₁ ∧
      ∃ s', cliOnTree env unpickle (names ++ names') outputDir s₁.tree = .ok s' ∧
        s'.tree = s.tree ∧ s'.out = s.out := by
  have hsub : names ++ names' ⊆ names ++ broken :: names' :=
    (List.Sublist.append_left (List.sublist_cons_self broken names') names).subset
  have hexists' : ∀ name ∈ names ++ names', PathExists t name :=
    fun name hname => hexists name (hsub hname)
  have hspared' := hspared.mono hsub (List.Subset.refl _)
  rw [cliOnTree_eq hexists' hspared', List.map_append] at hrun
  obtain ⟨s₁, hfirst, hbelow⟩ := run_prefix hrun
  obtain ⟨s', hrun', hsame⟩ := run_on_prefix hC hrun hfirst hbelow
  have hraise : cli env ((names ++ broken :: names').map (pickleAt env unpickle t)) outputDir t =
      .raised e s₁ := by
    rw [List.map_append, List.map_cons, cli]
    exact andThen_eq_raised.mpr (Or.inl (each_eq_raised.mpr
      ⟨_, _, _, s₁, rfl, hfirst, extractPickle_of_error hload s₁⟩))
  have hrecords : records ((names ++ broken :: names').map (pickleAt env unpickle t)) =
      records ((names ++ names').map (pickleAt env unpickle t)) := by
    rw [List.map_append, List.map_cons, List.map_append, records_without hload]
  rw [← hrecords] at hspared
  refine ⟨s₁, ?_, s', ?_, hsame⟩
  · rw [cliOnTree_eq hexists hspared, hraise]
  · have hspared₁ := hspared.mono hsub (List.Subset.refl _)
    have hagain := cliOnTree_after hraise hexists' hspared₁ hspared'
    rw [List.map_append] at hagain
    exact hagain.trans hrun'

end onTree

/-- The dict `{'r': [('b/L', 'B')]}`, pickled with protocol 2. -/
def otherBytes : Bytes :=
  [0x80, 0x02, 0x7D, 0x71, 0x00, 0x58, 0x01, 0x00, 0x00, 0x00, 0x72, 0x71, 0x01, 0x5D, 0x71, 0x02,
    0x58, 0x03, 0x00, 0x00, 0x00, 0x62, 0x2F, 0x4C, 0x71, 0x03, 0x58, 0x01, 0x00, 0x00, 0x00, 0x42,
    0x71, 0x04, 0x86, 0x71, 0x05, 0x61, 0x73, 0x2E]

/-- `pickle.load` on these bytes and those of `onePickle`. -/
def unpickleBoth (bytes : Bytes) : Except Exn LicensesByRepo :=
  if bytes = otherBytes then
    .ok ⟨[(str ['r'], [(str ['b', '/', 'L'], str ['B'])])], by decide⟩
  else unpickleBytes bytes

/-- A second pickle next to the first one, and a file that is no pickle. -/
def threeFiles : Files :=
  (onePickle.put [[0x63, 0x5F, 0x30]] otherBytes).put [[0x62, 0x5F, 0x30]] [0x41]

theorem pathExists_threeFiles :
    ∀ name ∈ [str ['p', 'y', '_', '0'], str ['b', '_', '0'], str ['c', '_', '0']],
      PathExists threeFiles name := by
  intro name hname
  simp only [List.mem_cons, List.not_mem_nil, or_false] at hname
  obtain rfl | rfl | rfl := hname
  all_goals exact ⟨_, rfl, by decide, by decide, by decide +kernel, by decide +kernel⟩

theorem extend_corpus_threeFiles :
    let names : List Str := [str ['p', 'y', '_', '0']]
    let names' : List Str := [str ['c', '_', '0']]
    let s := (cliOnTree utf8Env unpickleBoth (names ++ names') licenses threeFiles).state
    ∃ s₁, cliOnTree utf8Env unpickleBoth names licenses threeFiles = .ok s₁ ∧
      ∃ s', cliOnTree utf8Env unpickleBoth (names ++ names') licenses s₁.tree = .ok s' ∧
        s'.tree = s.tree ∧ s'.out = s.out := by
  intro names names' s
  have hC : CreateDirSpec utf8Env := makeMissing_spec
  refine extend_corpus hC (fun name hname => ?_) (by decide +kernel)
    (eq_ok_of_isOk (by decide +kernel))
  refine pathExists_threeFiles name ?_
  revert name hname
  decide

/-- `b_0` cannot be loaded. -/
theorem resume_without_threeFiles :
    let names : List Str := [str ['p', 'y', '_', '0']]
    let broken : Str := str ['b', '_', '0']
    let names' : List Str := [str ['c', '_', '0']]
    let s := (cliOnTree utf8Env unpickleBoth (names ++ names') licenses threeFiles).state
    ∃ s₁, cliOnTree utf8Env unpickleBoth (names ++ broken :: names') licenses threeFiles =
        .raised .valueError s₁ ∧
      ∃ s', cliOnTree utf8Env unpickleBoth (names ++ names') licenses s₁.tree = .ok s' ∧
        s'.tree = s.tree ∧ s'.out = s.out := by
  intro names broken names' s
  have hC : CreateDirSpec utf8Env := makeMissing_spec
  have hopen : openRb utf8Env.accepts threeFiles broken = .ok [0x41] := by decide +kernel
  have hload : (pickleAt utf8Env unpickleBoth threeFiles broken).load = .error .valueError := by
    rw [pickleAt, hopen]
    rfl
  exact resume_without hC pathExists_threeFiles (by decide +kernel) hload
    (eq_ok_of_isOk (by decide +kernel))

end Exlic.Again
