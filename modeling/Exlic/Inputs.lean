import Exlic.Stopped

/-! # The pickles as files

The program opens each pickle when its turn comes, in the tree as it is then; what `pickle.load`
makes of the bytes is a parameter. `cliOnTree` reads this way, `cli` gets the pickles as they were
at the start. The two are the same (`reads_as_at_start`) if every argument exists at the start,
which is what `click.Path(exists=True)` checks, and no record is saved in the place of an argument:
then the arguments can be read as before also after the run (`pickleAt_of_run`). So a run on what
another one has left reads what this one read (`cliOnTree_after`). -/

namespace Exlic.Inputs

open Exlic.Lib.Command Exlic.Lib.Command.Outcome Exlic.Lib.Effects Exlic.Lib.FileTree
open Exlic.Py.Strings Exlic.Py.Utf8 Exlic.Py.Paths
open Exlic.Cli Exlic.Records Exlic.Steps Exlic.History Exlic.CreateDir Exlic.Stopped

/-! ### Reading a file -/

/-- The path leads through directories to something. -/
def PathExists (t : Files) (s : Str) : Prop :=
  ∃ ms, moves s = some ms ∧ nul ∉ s ∧ s ≠ [] ∧
    (∀ q ∈ trail (start t.cwd s) ms.dropLast, t.IsDir q) ∧ t.get (target (start t.cwd s) ms) ≠ none

/-- The pickle that the argument `name` names in the tree `t`. -/
def pickleAt (env : Env) (unpickle : Bytes → Except Exn LicensesByRepo) (t : Files) (name : Str) :
    Pickle where
  name := name
  load := (openRb env.accepts t name).bind unpickle

/-- `cli`, reading every pickle when its turn comes. -/
def cliOnTree (env : Env) (unpickle : Bytes → Except Exn LicensesByRepo) (licensePickles : List Str)
    (outputDir : Str) (t : Files) : Outcome Exn State :=
  (each (fun name s => extractPickle env outputDir (pickleAt env unpickle s.tree name) s)
    licensePickles (State.init t)).andThen fun s =>
      .ok (s.print (.total s.totLicSaved s.totLicSkipped))

variable {env : Env} {unpickle : Bytes → Except Exn LicensesByRepo} {outputDir : Str}
  {t u : Files} {ps : List Pickle} {name : Str} {names : List Str} {s : State}

/-- The path exists wherever the tree has grown. -/
theorem PathExists.mono (h : PathExists t name) (hcwd : u.cwd = t.cwd) (hbelow : t.Below u) :
    PathExists u name := by
  obtain ⟨ms, hms, hnul, hne, hdirs, hget⟩ := h
  refine ⟨ms, hms, hnul, hne, ?_, ?_⟩
  · rw [hcwd]
    exact fun q hq => hbelow.dir q (hdirs q hq)
  · rw [hcwd]
    exact hbelow.get_ne_none hget

theorem PathExists.openRb_eq (h : PathExists t name) (accepts : Str → Bool) :
    ∃ p, resolve t.cwd name = some p ∧ t.get p ≠ none ∧ ∀ u : Files, u.cwd = t.cwd → t.Below u →
      openRb accepts u name = if ¬ accepts name then .error .osError else contentAt u p := by
  obtain ⟨ms, hms, hnul, hne, hdirs, hget⟩ := h
  refine ⟨target (start t.cwd name) ms, ?_, hget, fun u hcwd hbelow => ?_⟩
  · rw [resolve, if_neg hnul, hms]
    rfl
  · have hfind : ((trail (start u.cwd name) ms.dropLast).find? fun p => ¬ u.IsDir p) = none := by
      rw [List.find?_eq_none, hcwd]
      intro q hq
      simpa using hbelow.dir q (hdirs q hq)
    rw [openRb, hms]
    simp only
    rw [if_neg hnul, if_neg hne, hfind, hcwd]

/-- Where something was and no file has changed, it is still there. -/
theorem get_of_below {p : Place} (hbelow : t.Below u) (hp : t.get p ≠ none)
    (hfile : u.file? p = t.file? p) : u.get p = t.get p := by
  refine Tree.get_eq_of ⟨fun hdir => ?_, hbelow.dir p⟩ hfile
  obtain h | h | h := t.get_cases p
  · exact absurd h hp
  · exact h
  · exact absurd hdir (hbelow.file p h).not_isDir

/-- **A file that was not written is read as before.** -/
theorem openRb_congr {accepts : Str → Bool} (h : PathExists t name) (hcwd : u.cwd = t.cwd)
    (hbelow : t.Below u) (hfile : ∀ p, resolve t.cwd name = some p → u.file? p = t.file? p) :
    openRb accepts u name = openRb accepts t name := by
  obtain ⟨p, hp, hget, hopen⟩ := h.openRb_eq accepts
  rw [hopen u hcwd hbelow, hopen t rfl (Tree.Below.refl t), contentAt, contentAt,
    get_of_below hbelow hget (hfile p hp)]

/-! ### Reading during a run -/

/-- No record is saved in the place of an argument. -/
def Spared (outputDir : Str) (cwd : Place) (names : List Str) (news : List Record) : Prop :=
  ∀ name ∈ names, ∀ r ∈ news, resolve cwd (flocOf outputDir r) ≠ resolve cwd name

instance (outputDir : Str) (cwd : Place) (names : List Str) (news : List Record) :
    Decidable (Spared outputDir cwd names news) := by
  unfold Spared; infer_instance

theorem Spared.mono {cwd : Place} {names' : List Str} {news news' : List Record}
    (h : Spared outputDir cwd names news) (hnames : names' ⊆ names) (hnews : news' ⊆ news) :
    Spared outputDir cwd names' news' :=
  fun name hname r hr => h name (hnames hname) r (hnews hr)

/-- **An argument that is spared** can be read after a run as before. -/
theorem openRb_of_run {env' : Env} (hexists : PathExists t name)
    (hspared : ∀ r ∈ fresh (records ps), resolve t.cwd (flocOf outputDir r) ≠ resolve t.cwd name)
    {accepts : Str → Bool} :
    openRb accepts (cli env' ps outputDir t).state.tree name = openRb accepts t name := by
  have hreplays := cli_replays env' ps outputDir t
  have hcwd : (cli env' ps outputDir t).state.tree.cwd = t.cwd := by rw [hreplays, cwd_replay]
  refine openRb_congr hexists hcwd hreplays.below fun p hp => ?_
  refine file?_of_cli env' ps outputDir t fun r hr => ?_
  rw [← hp]
  exact hspared r hr

theorem pickleAt_of_run {env' : Env} (hexists : ∀ name ∈ names, PathExists t name)
    (hspared : Spared outputDir t.cwd names (fresh (records ps))) :
    ∀ name ∈ names, pickleAt env unpickle (cli env' ps outputDir t).state.tree name =
      pickleAt env unpickle t name := by
  intro name hname
  rw [pickleAt, pickleAt, openRb_of_run (hexists name hname) (hspared name hname)]

/-- **Reading when the turn comes** is reading at the start. -/
theorem cliOnTree_eq (hexists : ∀ name ∈ names, PathExists t name)
    (hspared : Spared outputDir t.cwd names
      (fresh (records (names.map (pickleAt env unpickle t))))) :
    cliOnTree env unpickle names outputDir t =
      cli env (names.map (pickleAt env unpickle t)) outputDir t := by
  let g := fun name => extractPickle env outputDir (pickleAt env unpickle t name)
  have hloop :
      each (fun name s => extractPickle env outputDir (pickleAt env unpickle s.tree name) s) names
        (State.init t) = each g names (State.init t) := by
    -- the invariant: the arguments so far have been read as at the start
    refine each_agree
      (I := fun rest s => ∃ done, names = done ++ rest ∧ each g done (State.init t) = .ok s)
      (fun name rest s ⟨done, hnames, hdone⟩ => ?_) names _ ⟨[], rfl, rfl⟩
    have hcli := cli_eq_ok.mpr ⟨s, by rw [each_map]; exact hdone, rfl⟩
    have hmem : name ∈ names := by rw [hnames]; simp
    have hspared' : Spared outputDir t.cwd names
        (fresh (records (done.map (pickleAt env unpickle t)))) := by
      refine hspared.mono (List.Subset.refl _) ?_
      rw [hnames, List.map_append, records_append, fresh_append]
      exact List.subset_append_left _ _
    have hturn : pickleAt env unpickle
        (cli env (done.map (pickleAt env unpickle t)) outputDir t).state.tree name =
          pickleAt env unpickle t name := pickleAt_of_run hexists hspared' name hmem
    rw [hcli] at hturn
    change pickleAt env unpickle s.tree name = pickleAt env unpickle t name at hturn
    refine ⟨by rw [hturn], ends_iff.mpr ⟨fun s' hs' => ?_, fun _ _ _ => trivial⟩⟩
    refine ⟨done ++ [name], by rw [hnames]; simp, ?_⟩
    rw [each_append, hdone, andThen_ok, each_cons, hs']
    rfl
  rw [cliOnTree, hloop, cli, each_map]

/-- **A run on what another one has left** reads what was there before that one, if both spare its
arguments. -/
theorem cliOnTree_after {env' : Env} {o : Outcome Exn State}
    (hrun : cli env' ps outputDir t = o) (hexists : ∀ name ∈ names, PathExists t name)
    (hspared : Spared outputDir t.cwd names (fresh (records ps)))
    (hspared' : Spared outputDir t.cwd names
      (fresh (records (names.map (pickleAt env unpickle t))))) :
    cliOnTree env unpickle names outputDir o.state.tree =
      cli env (names.map (pickleAt env unpickle t)) outputDir o.state.tree := by
  have hreplays := cli_replays env' ps outputDir t
  rw [hrun] at hreplays
  have hcwd : o.state.tree.cwd = t.cwd := by rw [hreplays, cwd_replay]
  have hbelow : t.Below o.state.tree := hreplays.below
  have hsame : names.map (pickleAt env unpickle o.state.tree) =
      names.map (pickleAt env unpickle t) := by
    refine List.map_congr_left fun name hname => ?_
    rw [← hrun]
    exact pickleAt_of_run hexists hspared name hname
  rw [← hsame] at hspared' ⊢
  rw [← hcwd] at hspared'
  exact cliOnTree_eq (fun name hname => (hexists name hname).mono hcwd hbelow) hspared'

/-- **Reading when the turn comes** is reading at the start, and every argument is intact when the
run ends. -/
theorem reads_as_at_start (hexists : ∀ name ∈ names, PathExists t name)
    (hspared : Spared outputDir t.cwd names
      (fresh (records (names.map (pickleAt env unpickle t))))) :
    cliOnTree env unpickle names outputDir t =
        cli env (names.map (pickleAt env unpickle t)) outputDir t ∧
      ∀ name ∈ names,
        openRb env.accepts (cliOnTree env unpickle names outputDir t).state.tree name =
          openRb env.accepts t name := by
  have hcli := cliOnTree_eq hexists hspared
  refine ⟨hcli, fun name hname => ?_⟩
  rw [hcli]
  exact openRb_of_run (hexists name hname) (hspared name hname)

/-- The dict `{'r': [('a/L', 'A')]}`, pickled with protocol 2. -/
def pickleBytes : Bytes :=
  [0x80, 0x02, 0x7D, 0x71, 0x00, 0x58, 0x01, 0x00, 0x00, 0x00, 0x72, 0x71, 0x01, 0x5D, 0x71, 0x02,
    0x58, 0x03, 0x00, 0x00, 0x00, 0x61, 0x2F, 0x4C, 0x71, 0x03, 0x58, 0x01, 0x00, 0x00, 0x00, 0x41,
    0x71, 0x04, 0x86, 0x71, 0x05, 0x61, 0x73, 0x2E]

/-- `pickle.load` on these bytes. -/
def unpickleBytes (bytes : Bytes) : Except Exn LicensesByRepo :=
  if bytes = pickleBytes then
    .ok ⟨[(str ['r'], [(str ['a', '/', 'L'], str ['A'])])], by decide⟩
  else .error .valueError

/-- The output directory, and next to it a pickle. -/
def onePickle : Files := emptyLicenses.put [[0x70, 0x79, 0x5F, 0x30]] pickleBytes

theorem reads_as_at_start_onePickle :
    let names : List Str := [str ['p', 'y', '_', '0']]
    let o := cliOnTree utf8Env unpickleBytes names licenses onePickle
    o = cli utf8Env (names.map (pickleAt utf8Env unpickleBytes onePickle)) licenses onePickle ∧
      ∀ name ∈ names, openRb utf8Env.accepts o.state.tree name =
        openRb utf8Env.accepts onePickle name := by
  intro names o
  refine reads_as_at_start (fun name hname => ?_) (by decide +kernel)
  obtain rfl := List.mem_singleton.mp hname
  exact ⟨_, rfl, by decide, by decide, by decide +kernel, by decide +kernel⟩

end Exlic.Inputs
