import Exlic.Steps
import Exlic.CreateDir

/-! # Running again after an interruption

`recovery`: if a run finishes, is stopped anywhere on the way, and the program is run again on the
tree that was left, this second run finishes too, with the same tree and the same output.

The proof follows both runs (`Follows`): the second tree always lies between the first one and the
last one, so no directory is in the way of a file nor a file in the way of a directory; what the
first run has written so far is the same in both, all other files are as they were left. -/

namespace Exlic.Recovery

open Exlic.Lib.Command Exlic.Lib.Command.Outcome Exlic.Lib.Effects Exlic.Lib.FileTree
open Exlic.Py.Strings Exlic.Py.Utf8 Exlic.Py.Paths
open Exlic.Cli Exlic.Records Exlic.Steps Exlic.CreateDir

/-- The first run has written to `p`. -/
def WrittenTo (s : State) (p : Place) : Prop := ∃ e ∈ s.effects, e.file = some p

/-- The second run, in the state `u`, follows the first one, in the state `s`: it began with the
tree `l`, and the first one ends with the tree `last`. -/
structure Follows (l last : Files) (s u : State) : Prop where
  seen : u.seen = s.seen
  licSaved : u.licSaved = s.licSaved
  licSkipped : u.licSkipped = s.licSkipped
  totLicSaved : u.totLicSaved = s.totLicSaved
  totLicSkipped : u.totLicSkipped = s.totLicSkipped
  out : u.out = s.out
  cwd : u.tree.cwd = s.tree.cwd
  above : s.tree.Below u.tree
  below : u.tree.Below last
  written : ∀ p, WrittenTo s p → u.tree.file? p = s.tree.file? p
  untouched : ∀ p, ¬ WrittenTo s p → u.tree.file? p = l.file? p

variable {env : Env} {outputDir : Str} {l last : Files} {r : Record} {s s' u : State}

theorem writtenTo_saved {encoded : Bytes} {made : List Place} {p q : Place} :
    WrittenTo (saved outputDir r encoded made p s) q ↔ q = p ∨ WrittenTo s q := by
  unfold WrittenTo
  simp only [saved, List.mem_append, List.mem_map, List.mem_cons, List.not_mem_nil, or_false]
  constructor
  · rintro ⟨e, he | ⟨d, -, rfl⟩ | rfl | rfl, hq⟩
    · exact Or.inr ⟨e, he, hq⟩
    · cases hq
    · exact Or.inl (Option.some.inj hq).symm
    · exact Or.inl (Option.some.inj hq).symm
  · rintro (rfl | ⟨e, he, hq⟩)
    · exact ⟨.truncated q, Or.inr (Or.inr (Or.inl rfl)), rfl⟩
    · exact ⟨e, Or.inl he, hq⟩

/-- **`create_dir` returns again**, and leaves the directories it left in the first run. -/
theorem Follows.createDir (hC : CreateDirSpec env) (h : Follows l last s u) {fdir : Str}
    {made : List Place} (hc : env.createDir s.tree fdir = (made, none))
    (hlast : (s.tree.mkdirs made).Below last) :
    ∃ made', env.createDir u.tree fdir = (made', none) ∧
      (∀ q, (s.tree.mkdirs made).IsDir q → (u.tree.mkdirs made').IsDir q) ∧
      ∀ q, (u.tree.mkdirs made').IsDir q → last.IsDir q := by
  obtain ⟨w, hclear, hmade, hdir⟩ := hC.of_returned hc
  have hfree : ∀ q ∈ w, ¬ u.tree.IsFile q := fun q hq hfile =>
    (h.below.file q hfile).not_isDir (hlast.dir q (hdir q hq))
  have hw := hclear.way_eq
  rw [← h.cwd] at hw
  obtain ⟨made', hc', hmade', hdir'⟩ := hC.returns ⟨hclear.accepted, hw, hfree⟩
  refine ⟨made', hc', fun q hq => ?_, fun q hq => ?_⟩
  · rcases Tree.isDir_of_mkdirs hq with hq | hq
    · exact (Tree.below_mkdirs _ made').dir q (h.above.dir q hq)
    · exact hdir' q (hmade q hq)
  · rcases Tree.isDir_of_mkdirs hq with hq | hq
    · exact h.below.dir q hq
    · exact hlast.dir q (hdir q (hmade' q hq))

/-- **One record.** -/
theorem Follows.step (hC : CreateDirSpec env) (h : Follows l last s u)
    (hs : saveRecord env outputDir r s = .ok s') (hlast : s'.tree.Below last) :
    ∃ u', saveRecord env outputDir r u = .ok u' ∧ Follows l last s' u' := by
  obtain ⟨encoded, henc, ⟨hseen, rfl⟩ | ⟨hseen, made, p, hc, hl, rfl⟩⟩ := saveRecord_eq_ok.mp hs
  · refine ⟨skipped r u, saveRecord_eq_ok.mpr ⟨encoded, henc, Or.inl ⟨by rwa [h.seen], rfl⟩⟩, ?_⟩
    refine ⟨h.seen, h.licSaved, ?_, h.totLicSaved, h.totLicSkipped, h.out, h.cwd, h.above, h.below,
      h.written, h.untouched⟩
    simp only [skipped, h.licSkipped]
  have hmkdirs := (below_saved outputDir r encoded made p s).trans hlast
  obtain ⟨made', hc', hdirs, hdirs'⟩ := h.createDir hC hc hmkdirs
  -- `p` is a file in the end, so it is no directory in the second run
  have hfile : last.IsFile p := by
    refine hlast.file p ?_
    rw [Tree.IsFile, file?_saved hl, if_pos rfl]
    rfl
  have hl' : locate env.accepts (u.tree.mkdirs made') (flocOf outputDir r) = .ok p := by
    obtain ⟨haccepts, ms, hms, h0, hne, htrail, htarget, -⟩ := locate_eq_ok.mp hl
    rw [Tree.cwd_mkdirs] at htrail htarget
    refine locate_eq_ok.mpr
      ⟨haccepts, ms, hms, h0, hne, ?_, ?_, fun hd => hfile.not_isDir (hdirs' p hd)⟩
    · rw [Tree.cwd_mkdirs, h.cwd]
      exact fun q hq => hdirs q (htrail q hq)
    · rw [Tree.cwd_mkdirs, h.cwd, htarget]
  refine ⟨saved outputDir r encoded made' p u, saveRecord_eq_ok.mpr ⟨encoded, henc,
    Or.inr ⟨by rwa [h.seen], made', p, hc', hl', rfl⟩⟩, ?_⟩
  have hisDir : ∀ (made : List Place) (s : State) (q : Place),
      (saved outputDir r encoded made p s).tree.IsDir q ↔ (s.tree.mkdirs made).IsDir q := by
    intro made s q
    rw [saved, Tree.isDir_put, Tree.isDir_put]
  refine ⟨?_, ?_, h.licSkipped, h.totLicSaved, h.totLicSkipped, h.out, ?_, ?_, ?_, fun q hq => ?_,
    fun q hq => ?_⟩
  · simp only [saved, h.seen]
  · simp only [saved, h.licSaved]
  · simp [saved, h.cwd]
  · refine ⟨fun q hq => ?_, fun q hq => ?_⟩
    · rw [hisDir] at hq ⊢
      exact hdirs q hq
    · rw [Tree.IsFile, file?_saved hl] at hq
      rw [Tree.IsFile, file?_saved hl']
      split_ifs at hq ⊢
      · rfl
      · exact h.above.file q hq
  · refine ⟨fun q hq => ?_, fun q hq => ?_⟩
    · rw [hisDir] at hq
      exact hdirs' q hq
    · rw [Tree.IsFile, file?_saved hl'] at hq
      split_ifs at hq with hqp
      · rw [hqp]
        exact hfile
      · exact h.below.file q hq
  · rw [file?_saved hl', file?_saved hl]
    split_ifs with hqp
    · rfl
    · exact h.written q ((writtenTo_saved.mp hq).resolve_left hqp)
  · rw [writtenTo_saved, not_or] at hq
    rw [file?_saved hl', if_neg hq.1]
    exact h.untouched q hq.2

/-- **One pickle.** -/
theorem Follows.pickle (hC : CreateDirSpec env) (h : Follows l last s u) {p : Pickle}
    (hs : extractPickle env outputDir p s = .ok s') (hlast : s'.tree.Below last) :
    ∃ u', extractPickle env outputDir p u = .ok u' ∧ Follows l last s' u' := by
  obtain ⟨d, hload, s₁, hloop, hstdout, rfl⟩ := extractPickle_eq_ok.mp hs
  have hstart : Follows l last (startPickle s) (startPickle u) :=
    ⟨h.seen, rfl, rfl, h.totLicSaved, h.totLicSkipped, h.out, h.cwd, h.above, h.below, h.written,
      h.untouched⟩
  have hlast₁ : s₁.tree.Below last := hlast
  obtain ⟨u₁, hloop', h₁⟩ := each_completes (f := saveRecord env outputDir)
    (fun _ _ _ _ hs hs' => (saveRecord_below hs).trans hs')
    (fun _ _ _ _ _ hQ hs hs' => Follows.step hC hQ hs hs') hstart hloop hlast₁
  refine ⟨finished (languageOf p.name) u₁,
    extractPickle_eq_ok.mpr ⟨d, hload, u₁, hloop', hstdout, rfl⟩, ?_⟩
  refine ⟨h₁.seen, h₁.licSaved, h₁.licSkipped, ?_, ?_, ?_, h₁.cwd, h₁.above, h₁.below, h₁.written,
    h₁.untouched⟩
  · simp only [finished, State.print, h₁.totLicSaved, h₁.licSaved]
  · simp only [finished, State.print, h₁.totLicSkipped, h₁.licSkipped]
  · simp only [finished, State.print, h₁.out, h₁.licSaved, h₁.licSkipped]

/-- At the end of the first run, both trees are the same. -/
theorem Follows.tree_eq {t : Files} (h : Follows l s.tree s u) (hreplays : Replays t s)
    (hl : Interrupted t s.effects l) : u.tree = s.tree := by
  refine Tree.ext_get h.cwd fun p => Tree.get_eq_of ⟨h.below.dir p, h.above.dir p⟩ ?_
  by_cases hp : WrittenTo s p
  · exact h.written p hp
  · have hne : ∀ e ∈ s.effects, e.file ≠ some p := fun e he hf => hp ⟨e, he, hf⟩
    rw [h.untouched p hp, file?_interrupted hl hne, hreplays, file?_replay_of_notMem t hne]

/-- **Recovery.** A run that finishes may be stopped after any of its effects; run again on what it
left, the program finishes with the same tree and the same output. -/
theorem recovery (hC : CreateDirSpec env) {ps : List Pickle} {t : Files}
    (hrun : cli env ps outputDir t = .ok s) (hl : Interrupted t s.effects l) :
    ∃ s', cli env ps outputDir l = .ok s' ∧ s'.tree = s.tree ∧ s'.out = s.out := by
  have hreplays : Replays t s := replays_of_ok hrun
  obtain ⟨s₁, hloop, hprint⟩ := andThen_eq_ok.mp hrun
  obtain rfl := (Outcome.ok.inj hprint).symm
  obtain ⟨htl, hls⟩ := interrupted_between hl
  rw [← hreplays] at hls
  have hinit : Follows l s₁.tree (State.init t) (State.init l) := by
    refine ⟨rfl, rfl, rfl, rfl, rfl, rfl, cwd_interrupted hl, htl, hls, fun p hp => ?_,
      fun p _ => rfl⟩
    obtain ⟨e, he, -⟩ := hp
    cases he
  obtain ⟨u, hu, hfollows⟩ := each_completes (f := extractPickle env outputDir)
    (M := fun s => s.tree.Below s₁.tree) (Q := Follows l s₁.tree)
    (fun _ _ _ _ hs hs' => (extractPickle_below hs).trans hs')
    (fun _ _ _ _ _ hQ hs hs' => Follows.pickle hC hQ hs hs') hinit hloop (Tree.Below.refl _)
  refine ⟨_, andThen_eq_ok.mpr ⟨u, hu, rfl⟩, hfollows.tree_eq hreplays hl, ?_⟩
  simp only [State.print, hfollows.out, hfollows.totLicSaved, hfollows.totLicSkipped]

/-- Two texts for one path. -/
def oneFile : Pickle where
  name := str ['p', 'y', '_', '0']
  load := .ok ⟨[(str ['r'], [(str ['a', '/', 'L'], str ['A', 'A']),
    (str ['a', '/', 'L'], str ['B'])])], by decide⟩

/-- The place of this path. -/
def oneFilePlace : Place := licensesDir ++ [[0x70, 0x79], [0x61], [0x4C]]

/-- The run was stopped while the first text was written. -/
theorem recovery_oneFile :
    let s := (cli utf8Env [oneFile] licenses emptyLicenses).state
    ∃ s', cli utf8Env [oneFile] licenses
        ((replay emptyLicenses (s.effects.take 3)).put oneFilePlace [0x41]) = .ok s' ∧
      s'.tree = s.tree ∧ s'.out = s.out := by
  intro s
  refine recovery makeMissing_spec (eq_ok_of_isOk (by decide +kernel)) ?_
  exact .within _ (s.effects.drop 4) oneFilePlace [0x41] [0x41, 0x41] (by decide +kernel)
    (by decide)

end Exlic.Recovery
