import Exlic.History
import Exlic.CreateDir
import Exlic.Py.Normpath

/-! # Where a run writes

`Confined`: all directories and files a run asks for are below the output directory, and whenever it
is stopped everything else is as it was. This holds of every run, however it ends, in which each
record that is new when its turn comes `Stays` in the output directory; and of no other one, if
`create_dir` makes what it can (`confined_iff_stays`).

`Stays` is about the language and the `repo_path` of the record and the tree it meets. Every record
whose path does not start with a slash and has nowhere more `..` than components before does stay
(`stays_of_staysIn`). -/

namespace Exlic.Containment

open Exlic.Lib.Command Exlic.Lib.Command.Outcome Exlic.Lib.Effects Exlic.Lib.FileTree
open Exlic.Py.Strings Exlic.Py.Utf8 Exlic.Py.Paths Exlic.Py.PathJoin Exlic.Py.Leading
open Exlic.Py.Normpath
open Exlic.Cli Exlic.Records Exlic.Steps Exlic.History Exlic.CreateDir
open Exlic.Py.Sha1 (hexdigest)

/-- The run touches nothing but what is below `root`. -/
structure Confined (root : Place) (t : Files) (s : State) : Prop where
  /-- Every directory and every file that is asked for is below `root`, after normalisation. -/
  calls : ∀ c ∈ s.calls, parts root <+: normpath (parts t.cwd) c.path
  /-- When the run is stopped, everything else is as it was. -/
  stopped : ∀ l, Interrupted t s.effects l → ∀ q, ¬ root <+: q → l.get q = t.get q
  /-- When it ends, too. -/
  ended : ∀ q, ¬ root <+: q → s.tree.get q = t.get q

/-- The directory of a record, as it is joined to the output directory. -/
def dirOf (r : Record) : Str := join r.language (rpartition slash r.repoPath).1

/-- The file of a record, as it is joined to the output directory. -/
def fileOf (r : Record) : Str := join (dirOf r) (rpartition slash r.repoPath).2.2

theorem fdirOf_eq (outputDir : Str) (r : Record) : fdirOf outputDir r = join outputDir (dirOf r) :=
  join_assoc outputDir r.language _

theorem flocOf_eq (outputDir : Str) (r : Record) :
    flocOf outputDir r = join outputDir (fileOf r) := by
  rw [flocOf, fdirOf_eq, join_assoc]
  rfl

/-- The record stays below `root`, in the tree `u` that it meets. -/
structure Stays (env : Env) (outputDir : Str) (root : Place) (u : Files) (r : Record) : Prop where
  dir : StaysBelow root (dirOf r)
  /-- What can be made on the way is below `root` or there already. -/
  missing : Starts env u (fdirOf outputDir r) → ∀ s ∈ leads (dirOf r), ∀ w, way root s = some w →
    env.accepts (join outputDir s) → (∀ q ∈ w, ¬ u.IsFile q) →
      ∀ q ∈ w, root <+: q ∨ u.get q ≠ none
  /-- The name does not lead away, if the directory can be had. -/
  file : (env.createDir u (fdirOf outputDir r)).2 = none → StaysBelow root (fileOf r)

/-- The turn of the record `r` comes in the state `s`, and its text is new. -/
def Saving (env : Env) (ps : List Pickle) (outputDir : Str) (t : Files) (r : Record) (s : State) :
    Prop :=
  Comes env ps outputDir t r s ∧
    ∃ encoded, encode r.text = some encoded ∧ hexdigest encoded ∉ s.seen

/-- All calls and effects so far are below `root`. -/
structure Kept (root : Place) (t : Files) (s : State) : Prop where
  replays : Replays t s
  calls : ∀ c ∈ s.calls, parts root <+: normpath (parts t.cwd) c.path
  effects : ∀ e ∈ s.effects, root <+: e.place

variable {env : Env} {ps : List Pickle} {outputDir : Str} {t : Files} {root : Place} {r : Record}
  {s s' : State}

theorem Kept.confined (h : Kept root t s) : Confined root t s := by
  have hplace : ∀ q, ¬ root <+: q → ∀ e ∈ s.effects, q ≠ e.place := by
    rintro q hq e he rfl
    exact hq (h.effects e he)
  refine ⟨h.calls, fun l hl q hq => get_interrupted hl (hplace q hq), fun q hq => ?_⟩
  rw [h.replays]
  exact get_replay_of_notMem t (hplace q hq)

theorem Kept.congr (htree : s'.tree = s.tree) (hcalls : s'.calls = s.calls)
    (heffects : s'.effects = s.effects) (h : Kept root t s) : Kept root t s' :=
  ⟨h.replays.congr htree heffects, by rw [hcalls]; exact h.calls,
    by rw [heffects]; exact h.effects⟩

theorem Kept.cwd (h : Kept root t s) : s.tree.cwd = t.cwd := by
  rw [h.replays, cwd_replay]

section reached

-- the output directory is there
variable (hroot : resolve t.cwd outputDir = some root)
  (hreach : ∀ q ∈ passed t.cwd outputDir, t.IsDir q)

include hroot

theorem Stays.call_dir {u : Files} (h : Stays env outputDir root u r) :
    parts root <+: normpath (parts t.cwd) (fdirOf outputDir r) := by
  rw [fdirOf_eq]
  exact (staysBelow_iff hroot _).mp h.dir

theorem Stays.call_file {u : Files} (h : Stays env outputDir root u r)
    (hc : (env.createDir u (fdirOf outputDir r)).2 = none) :
    parts root <+: normpath (parts t.cwd) (flocOf outputDir r) := by
  rw [flocOf_eq]
  exact (staysBelow_iff hroot _).mp (h.file hc)

include hreach

/-- **What `create_dir` makes for a record that stays** is below `root`. -/
theorem Kept.made_below (h : Kept root t s) (hT : Touches env)
    (hr : Stays env outputDir root s.tree r) :
    ∀ q ∈ (env.createDir s.tree (fdirOf outputDir r)).1, root <+: q := by
  intro q hq
  have hnone : s.tree.get q = none := hT.missing _ _ q hq
  obtain ⟨lead, hlead, w, hclear, hqw⟩ := hT.leading _ _ q hq
  have hway := hclear.way_eq
  rw [fdirOf_eq] at hlead
  rw [h.cwd] at hway
  obtain hold | ⟨lead', hlead', rfl, w', hw', hqw', hsub⟩ :=
    passed_of_leads_join hroot hlead hway hqw
  · -- the way to the output directory is there already
    have hdir : s.tree.IsDir q := h.replays.below.dir q (hreach q hold)
    exact absurd hdir (Tree.not_isDir_of_get hnone)
  · have hfree : ∀ p ∈ w', ¬ s.tree.IsFile p := fun p hp => hclear.no_file p (hsub p hp)
    have hstarts : Starts env s.tree (fdirOf outputDir r) := Or.inr (List.ne_nil_of_mem hq)
    exact (hr.missing hstarts lead' hlead' w' hw' hclear.accepted hfree q hqw').resolve_right
      (absurd hnone)

/-- **One record** that stays, if it is new. -/
theorem saveRecord_kept (hT : Touches env) (hk : Kept root t s)
    (hr : (∃ encoded, encode r.text = some encoded ∧ hexdigest encoded ∉ s.seen) →
      Stays env outputDir root s.tree r) :
    Kept root t (saveRecord env outputDir r s).state := by
  rcases h : saveRecord env outputDir r s with s' | ⟨e, s'⟩
  · obtain ⟨encoded, henc, ⟨-, rfl⟩ | ⟨hseen, made, p, hc, hl, rfl⟩⟩ := saveRecord_eq_ok.mp h
    · exact Kept.congr (s := s) rfl rfl rfl hk
    have hstays := hr ⟨encoded, henc, hseen⟩
    have hmade := hk.made_below hroot hreach hT hstays
    have hreturned : (env.createDir s.tree (fdirOf outputDir r)).2 = none := by rw [hc]
    have hfile := hstays.call_file hroot hreturned
    have hp : root <+: p := by
      have hplace := resolve_of_locate hl
      rw [Tree.cwd_mkdirs, hk.cwd] at hplace
      rwa [normpath_of_resolve hplace, parts_prefix_iff] at hfile
    rw [hc] at hmade
    refine ⟨hk.replays.saved outputDir r encoded made p, fun c hc => ?_, fun e he => ?_⟩
    · simp only [state_ok, saved, List.mem_append, List.mem_cons, List.not_mem_nil,
        or_false] at hc
      obtain hc | rfl | rfl := hc
      · exact hk.calls c hc
      · exact hstays.call_dir hroot
      · exact hfile
    · simp only [state_ok, saved, List.mem_append, List.mem_map, List.mem_cons, List.not_mem_nil,
        or_false] at he
      obtain he | ⟨q, hq, rfl⟩ | rfl | rfl := he
      · exact hk.effects e he
      · exact hmade q hq
      · exact hp
      · exact hp
  · obtain ⟨htree, heffects, hcalls, -⟩ |
      ⟨encoded, henc, hseen, made, opened, rfl, hopened, htree, heffects, hcalls⟩ :=
        saveRecord_raised h
    · exact hk.congr htree hcalls heffects
    have hstays := hr ⟨encoded, henc, hseen⟩
    refine ⟨hk.replays.made htree heffects, fun c hc => ?_, fun e he => ?_⟩
    · rw [state_raised, hcalls, List.mem_append, List.mem_cons] at hc
      obtain hc | rfl | hc := hc
      · exact hk.calls c hc
      · exact hstays.call_dir hroot
      · obtain ⟨rfl, -⟩ | ⟨rfl, -, hreturned⟩ := hopened
        · cases hc
        · obtain rfl := List.mem_singleton.mp hc
          exact hstays.call_file hroot hreturned
    · rw [state_raised, heffects, List.mem_append, List.mem_map] at he
      obtain he | ⟨q, hq, rfl⟩ := he
      · exact hk.effects e he
      · exact hk.made_below hroot hreach hT hstays q hq

/-- Runs whose new records stay are confined. -/
theorem cli_kept (hT : Touches env)
    (hstays : ∀ r s, Saving env ps outputDir t r s → Stays env outputDir root s.tree r) :
    Kept root t (cli env ps outputDir t).state := by
  refine cli_turns (fun r s hcomes hs => ?_) (fun _ _ => Kept.congr) ?_
  · exact saveRecord_kept hroot hreach hT hs fun hnew => hstays r s ⟨hcomes, hnew⟩
  · exact ⟨rfl, by simp [State.init], by simp [State.init]⟩

/-- The new records of a confined run stay. -/
theorem stays_of_confined (hM : MakesLeading env) (hr : Saving env ps outputDir t r s)
    (hrun : Confined root t (cli env ps outputDir t).state) :
    Stays env outputDir root s.tree r := by
  obtain ⟨hcomes, encoded, henc, hseen⟩ := hr
  obtain ⟨hdir, hfile, hmade⟩ := saveRecord_asks env outputDir henc hseen
  have hgrows := grows_of_comes hcomes
  have hreplays := replays_of_comes hcomes
  have hcwd : s.tree.cwd = t.cwd := by rw [hreplays, cwd_replay]
  refine ⟨?_, fun hstarts lead hlead w hw haccepted hfree q hq => ?_, fun hreturned => ?_⟩
  · rw [staysBelow_iff hroot, ← fdirOf_eq]
    exact hrun.calls _ (hgrows.calls.subset hdir)
  · refine or_iff_not_imp_left.mpr fun hout hnone => ?_
    have hne : lead ≠ [] := by
      rintro rfl
      simp [way] at hw
    have hlead' := join_mem_leads (a := outputDir) hlead hne
    rw [← fdirOf_eq] at hlead'
    obtain ⟨w', hw', hsub, hcases⟩ := exists_way_join hroot hw
    have hclear : Clear env.accepts s.tree (join outputDir lead) w' := by
      refine ⟨haccepted, by rw [hcwd]; exact hw', fun p hp hpfile => ?_⟩
      obtain hp | hp := hcases p hp
      · exact hpfile.not_isDir (hreplays.below.dir p (hreach p hp))
      · exact hfree p hp hpfile
    -- `create_dir` has made a directory of it, and nothing outside has changed
    have hfinal : (cli env ps outputDir t).state.tree.IsDir q :=
      (hmade.trans hgrows.tree).dir q (hM _ _ hstarts _ hlead' w' hclear q (hsub q hq))
    have hold : t.get q ≠ none := by
      rw [← hrun.ended q hout, hfinal]
      simp
    exact hreplays.below.get_ne_none hold hnone
  · rw [staysBelow_iff hroot, ← flocOf_eq]
    exact hrun.calls _ (hgrows.calls.subset (hfile hreturned))

end reached

/-- **When a run writes only inside its output directory**, however it ends. It is enough that every
record that is new when its turn comes stays, whatever else `create_dir` does; and it is necessary,
if it makes what it can. -/
theorem confined_iff_stays (hT : Touches env) (ps : List Pickle)
    (hroot : resolve t.cwd outputDir = some root)
    (hreach : ∀ q ∈ passed t.cwd outputDir, t.IsDir q) :
    ((∀ r s, Saving env ps outputDir t r s → Stays env outputDir root s.tree r) →
      Confined root t (cli env ps outputDir t).state) ∧
    (MakesLeading env → (Confined root t (cli env ps outputDir t).state ↔
      ∀ r s, Saving env ps outputDir t r s → Stays env outputDir root s.tree r)) := by
  have henough : (∀ r s, Saving env ps outputDir t r s → Stays env outputDir root s.tree r) →
      Confined root t (cli env ps outputDir t).state :=
    fun h => (cli_kept hroot hreach hT h).confined
  exact ⟨henough, fun hM =>
    ⟨fun hrun r s hr => stays_of_confined hroot hreach hM hr hrun, henough⟩⟩

/-- A path that starts with a slash. -/
def absolutePath : Pickle where
  name := str ['p', 'y', '_', '0']
  load := .ok ⟨[(str ['r'], [(str ['/', 'x', '/', 'L'], str ['A'])])], by decide⟩

theorem isDir_passed_licenses :
    ∀ q ∈ passed emptyLicenses.cwd licenses, emptyLicenses.IsDir q := by
  decide +kernel

/-- The file is written outside of the output directory, which exists and is empty. -/
theorem not_confined_absolutePath :
    CreateDirSpec utf8Env ∧ MakesLeading utf8Env ∧
      resolve emptyLicenses.cwd licenses = some licensesDir ∧
      (∀ q ∈ passed emptyLicenses.cwd licenses, emptyLicenses.IsDir q) ∧
      ¬ Confined licensesDir emptyLicenses
        (cli utf8Env [absolutePath] licenses emptyLicenses).state := by
  refine ⟨makeMissing_spec, makeMissing_leading, by decide +kernel, isDir_passed_licenses,
    fun h => ?_⟩
  have hcall : Call.openWb (str ['/', 'x', '/', 'L']) ∈
      (cli utf8Env [absolutePath] licenses emptyLicenses).state.calls := by decide +kernel
  have hout : ¬ parts licensesDir <+:
      normpath (parts emptyLicenses.cwd) (str ['/', 'x', '/', 'L']) := by decide +kernel
  exact hout (h.calls _ hcall)

/-- **Records that never go up too far** stay, in every tree. -/
theorem stays_of_staysIn (env : Env) (outputDir : Str) (root : Place) (u : Files)
    (hdir : StaysIn (dirOf r)) (hfile : StaysIn (fileOf r)) : Stays env outputDir root u r := by
  refine ⟨hdir.staysBelow root, fun _ s hs w hw _ _ q hq => Or.inl ?_,
    fun _ => hfile.staysBelow root⟩
  exact (hdir.lead hs).prefix_of_way hw hq

/-- A path with `..` that stays inside, and the same text at an absolute path later. -/
def insidePaths : Pickle where
  name := str ['p', 'y', '_', '0']
  load := .ok ⟨[(str ['r'], [(str ['a', '/', '.', '.', '/', 'b', '/', 'L'], str ['A']),
    (str ['/', 'x', '/', 'L'], str ['A'])])], by decide⟩

theorem confined_insidePaths : Confined licensesDir emptyLicenses
    (cli utf8Env [insidePaths] licenses emptyLicenses).state := by
  have hC : CreateDirSpec utf8Env := makeMissing_spec
  have hstays : ∀ r ∈ fresh (records [insidePaths]), StaysIn (dirOf r) ∧ StaysIn (fileOf r) := by
    decide +kernel
  refine (confined_iff_stays hC.toTouches [insidePaths] (by decide +kernel)
    isDir_passed_licenses).1 fun r s hr => ?_
  obtain ⟨hcomes, encoded, henc, hseen⟩ := hr
  obtain ⟨hdir, hfile⟩ := hstays r (mem_fresh_of_comes hcomes henc hseen)
  exact stays_of_staysIn utf8Env licenses licensesDir s.tree hdir hfile

end Exlic.Containment
