import Exlic.Recovery
import Exlic.History

/-! # A run that is stopped anywhere

`cli_effects`: every effect of a run belongs to one of its fresh records. So whenever a run is
stopped, and however it would have ended, every file is as it was before or holds a part of the text
of a fresh record that is saved there, and every directory was there before or is passed by a
leading part of the directory of a fresh record (`stopped_anywhere`). -/

namespace Exlic.Stopped

open Exlic.Lib.Command Exlic.Lib.Command.Outcome Exlic.Lib.Effects Exlic.Lib.FileTree
open Exlic.Py.Strings Exlic.Py.Utf8 Exlic.Py.Paths Exlic.Py.Leading
open Exlic.Cli Exlic.Records Exlic.Steps Exlic.History Exlic.CreateDir
open Exlic.Recovery (oneFile oneFilePlace)

variable {env : Env} {outputDir : Str} {t l : Files} {ps : List Pickle} {r : Record} {s : State}

section effects

variable {P : Record → Effect Name UInt8 → Prop}
  (hmade : ∀ r s, Comes env ps outputDir t r s →
    ∀ q ∈ (env.createDir s.tree (fdirOf outputDir r)).1, P r (.made q))
  (hfile : ∀ r p encoded, resolve t.cwd (flocOf outputDir r) = some p →
    encode r.text = some encoded → P r (.truncated p) ∧ P r (.written p encoded))
include hmade hfile

/-- **One record**, however it ends: its effects are its own. -/
theorem saveRecord_effects (hcomes : Comes env ps outputDir t r s)
    (hs : ∀ e ∈ s.effects, ∃ r ∈ fresh (records ps), P r e) :
    ∀ e ∈ (saveRecord env outputDir r s).state.effects, ∃ r ∈ fresh (records ps), P r e := by
  have hmake := hmade r s hcomes
  intro e he
  rcases h : saveRecord env outputDir r s with s' | ⟨e', s'⟩
  · rw [h, state_ok] at he
    obtain ⟨encoded, henc, ⟨-, rfl⟩ | ⟨hnew, made, p, hc, hl, rfl⟩⟩ := saveRecord_eq_ok.mp h
    · exact hs e he
    have hr := mem_fresh_of_comes hcomes henc hnew
    have hplace : resolve t.cwd (flocOf outputDir r) = some p := by
      have hfound := resolve_of_locate hl
      rwa [Tree.cwd_mkdirs, replays_of_comes hcomes, cwd_replay] at hfound
    obtain ⟨htruncated, hwritten⟩ := hfile r p encoded hplace henc
    simp only [saved, List.mem_append, List.mem_map, List.mem_cons, List.not_mem_nil,
      or_false] at he
    obtain he | ⟨q, hq, rfl⟩ | rfl | rfl := he
    · exact hs e he
    · rw [hc] at hmake
      exact ⟨r, hr, hmake q hq⟩
    · exact ⟨r, hr, htruncated⟩
    · exact ⟨r, hr, hwritten⟩
  · rw [h, state_raised] at he
    obtain ⟨-, heffects, -⟩ | ⟨encoded, henc, hnew, made, opened, rfl, -, -, heffects, -⟩ :=
      saveRecord_raised h
    · rw [heffects] at he
      exact hs e he
    · rw [heffects, List.mem_append, List.mem_map] at he
      obtain he | ⟨q, hq, rfl⟩ := he
      · exact hs e he
      · exact ⟨r, mem_fresh_of_comes hcomes henc hnew, hmake q hq⟩

/-- **Every effect of a run is that of a fresh record.** -/
theorem cli_effects :
    ∀ e ∈ (cli env ps outputDir t).state.effects, ∃ r ∈ fresh (records ps), P r e := by
  refine cli_turns (K := fun s => ∀ e ∈ s.effects, ∃ r ∈ fresh (records ps), P r e)
    (fun r s hcomes hs => saveRecord_effects hmade hfile hcomes hs) (fun s s' _ _ heffects hs => ?_)
    (fun e he => by cases he)
  rwa [heffects]

end effects

/-- The effect changes no file but that of the record, and leaves a part of its text there. -/
def OwnFile (outputDir : Str) (cwd : Place) (r : Record) (e : Effect Name UInt8) : Prop :=
  ∀ p, e.file = some p → resolve cwd (flocOf outputDir r) = some p ∧
    ∃ encoded, encode r.text = some encoded ∧ e.content <+: encoded

/-- The place is passed by a leading part of the directory of the record. -/
def OnWay (outputDir : Str) (cwd : Place) (r : Record) (q : Place) : Prop :=
  ∃ s ∈ leads (fdirOf outputDir r), ∃ w, way cwd s = some w ∧ q ∈ w

/-- What changes files, whatever `create_dir` does. -/
theorem cli_files (env : Env) (ps : List Pickle) (outputDir : Str) (t : Files) :
    ∀ e ∈ (cli env ps outputDir t).state.effects,
      ∃ r ∈ fresh (records ps), OwnFile outputDir t.cwd r e := by
  refine cli_effects (fun _ _ _ _ _ _ hp => by cases hp) fun r p encoded hplace henc => ⟨?_, ?_⟩
  · intro q hq
    obtain rfl := Option.some.inj hq
    exact ⟨hplace, encoded, henc, List.nil_prefix⟩
  · intro q hq
    obtain rfl := Option.some.inj hq
    exact ⟨hplace, encoded, henc, List.prefix_refl _⟩

/-- What makes directories. -/
theorem cli_dirs (hT : Touches env) (ps : List Pickle) (outputDir : Str) (t : Files) :
    ∀ e ∈ (cli env ps outputDir t).state.effects,
      ∃ r ∈ fresh (records ps), ∀ q, e = .made q → OnWay outputDir t.cwd r q := by
  refine cli_effects (fun r s hcomes q hq q' he => ?_) fun _ _ _ _ _ => ⟨nofun, nofun⟩
  obtain ⟨s', hs', w, hclear, hqw⟩ := hT.leading _ _ q hq
  have hw := hclear.way_eq
  rw [replays_of_comes hcomes, cwd_replay] at hw
  cases he
  exact ⟨s', hs', w, hw, hqw⟩

/-- A file changes only where a fresh record is saved. -/
theorem file?_of_cli (env : Env) (ps : List Pickle) (outputDir : Str) (t : Files) {p : Place}
    (hp : ∀ r ∈ fresh (records ps), resolve t.cwd (flocOf outputDir r) ≠ some p) :
    (cli env ps outputDir t).state.tree.file? p = t.file? p := by
  rw [cli_replays env ps outputDir t]
  refine file?_replay_of_notMem t fun e he hfile => ?_
  obtain ⟨r, hr, howned⟩ := cli_files env ps outputDir t e he
  exact hp r hr (howned p hfile).1

section stopped

variable (hl : Interrupted t (cli env ps outputDir t).state.effects l)
include hl

theorem isDir_stopped (hT : Touches env) {q : Place} (hq : l.IsDir q) :
    t.IsDir q ∨ ∃ r ∈ fresh (records ps), OnWay outputDir t.cwd r q := by
  refine (isDir_interrupted_cases hl hq).imp_right fun hmade => ?_
  obtain ⟨r, hr, howned⟩ := cli_dirs hT ps outputDir t _ hmade
  exact ⟨r, hr, howned q rfl⟩

theorem file?_stopped (p : Place) : l.file? p = t.file? p ∨ ∃ r ∈ fresh (records ps),
    resolve t.cwd (flocOf outputDir r) = some p ∧
    ∃ encoded part, encode r.text = some encoded ∧ part <+: encoded ∧ l.file? p = some part := by
  refine (file?_interrupted_cases hl p).imp_right ?_
  rintro ⟨e, he, hp, part, hpart, hfile⟩
  obtain ⟨r, hr, howned⟩ := cli_files env ps outputDir t e he
  obtain ⟨hplace, encoded, henc, hcontent⟩ := howned p hp
  exact ⟨r, hr, hplace, encoded, part, henc, hpart.trans hcontent, hfile⟩

/-- **A run that is stopped anywhere** has lost no file or directory, has made no others than those
of its fresh records, and has changed files only to parts of their texts. -/
theorem stopped_anywhere (hT : Touches env) :
    t.Below l ∧
    (∀ q, l.IsDir q → t.IsDir q ∨ ∃ r ∈ fresh (records ps), OnWay outputDir t.cwd r q) ∧
    ∀ p, l.file? p = t.file? p ∨ ∃ r ∈ fresh (records ps),
      resolve t.cwd (flocOf outputDir r) = some p ∧
      ∃ encoded part, encode r.text = some encoded ∧ part <+: encoded ∧ l.file? p = some part :=
  ⟨(interrupted_between hl).1, fun _ hq => isDir_stopped hl hT hq, file?_stopped hl⟩

end stopped

/-- Stopped while the first of two texts is written. -/
theorem stopped_anywhere_oneFile :
    let s := (cli utf8Env [oneFile] licenses emptyLicenses).state
    let l := (replay emptyLicenses (s.effects.take 3)).put oneFilePlace [0x41]
    emptyLicenses.Below l ∧
    (∀ q, l.IsDir q → emptyLicenses.IsDir q ∨
      ∃ r ∈ fresh (records [oneFile]), OnWay licenses emptyLicenses.cwd r q) ∧
    ∀ p, l.file? p = emptyLicenses.file? p ∨ ∃ r ∈ fresh (records [oneFile]),
      resolve emptyLicenses.cwd (flocOf licenses r) = some p ∧
      ∃ encoded part, encode r.text = some encoded ∧ part <+: encoded ∧ l.file? p = some part := by
  intro s l
  have hC : CreateDirSpec utf8Env := makeMissing_spec
  have hl : Interrupted emptyLicenses s.effects l :=
    .within _ (s.effects.drop 4) oneFilePlace [0x41] [0x41, 0x41] (by decide +kernel) (by decide)
  exact stopped_anywhere hl hC.toTouches

end Exlic.Stopped
