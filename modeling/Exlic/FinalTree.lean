import Exlic.Completion
import Exlic.Corpus
import Exlic.Lib.Writes

/-! # The tree a run leaves

`final_tree`: when a run finishes, every place holds the text of the last fresh record that is saved
there, and what it held before if there is none; the directories are those of before and the ways to
the fresh records. Nothing is assumed of the checksums or of the places. The same is known after
each record (`Leaves`).

So a text that is kept is that of a fresh record which no later one replaces (`kept_iff`), and two
texts with one checksum are never both kept (`noCollision_of_kept`). -/

namespace Exlic.FinalTree

open Exlic.Lib.Command Exlic.Lib.Command.Outcome Exlic.Lib.FileTree Exlic.Lib.Firsts
open Exlic.Lib.Writes
open Exlic.Py.Strings Exlic.Py.Utf8 Exlic.Py.Paths
open Exlic.Cli Exlic.Records Exlic.Steps Exlic.History Exlic.CreateDir Exlic.Completion
open Exlic.Refinement (item resolve_fresh)
open Exlic.Corpus (samePath twoPaths)

/-- What the fresh records write, in order. -/
def writes (outputDir : Str) (cwd : Place) (rs : List Record) : List (Place × Bytes) :=
  (fresh rs).map (item outputDir cwd)

variable {env : Env} {outputDir : Str} {t : Files} {ps : List Pickle} {done rs : List Record}
  {r : Record} {s s' : State}

/-- The files after the records of `done`. -/
structure Holds (outputDir : Str) (t : Files) (done : List Record) (s : State) : Prop where
  seen : Seen done s
  cwd : s.tree.cwd = t.cwd
  file : ∀ p, s.tree.file? p = (last (writes outputDir t.cwd done) p).or (t.file? p)

theorem Holds.init (outputDir : Str) (t : Files) : Holds outputDir t [] (State.init t) :=
  ⟨Seen.init t, rfl, fun _ => rfl⟩

theorem Holds.congr (h : Holds outputDir t done s) (htree : s'.tree = s.tree)
    (hseen : s'.seen = s.seen) : Holds outputDir t done s' := by
  refine ⟨fun c => by rw [hseen, h.seen c], ?_, fun p => ?_⟩
  · rw [htree, h.cwd]
  · rw [htree, h.file]

/-- **One record.** -/
theorem Holds.step (h : Holds outputDir t done s) (hs : saveRecord env outputDir r s = .ok s') :
    Holds outputDir t (done ++ [r]) s' := by
  have hseen' := h.seen.step hs
  obtain ⟨encoded, henc, ⟨hseen, rfl⟩ | ⟨hseen, made, p, hc, hl, rfl⟩⟩ := saveRecord_eq_ok.mp hs
  · refine ⟨hseen', h.cwd, fun q => ?_⟩
    rw [writes, fresh_concat_of_mem ((h.seen.mem_iff henc).mp hseen)]
    exact h.file q
  · have hnew : checksum r ∉ done.map checksum := fun hm => hseen ((h.seen.mem_iff henc).mpr hm)
    have hplace : resolve t.cwd (flocOf outputDir r) = some p := by
      have hfound := resolve_of_locate hl
      rwa [Tree.cwd_mkdirs, h.cwd] at hfound
    have hitem : item outputDir t.cwd r = (p, encoded) := by rw [item, henc, hplace]; rfl
    refine ⟨hseen', ?_, fun q => ?_⟩
    · simp [saved, h.cwd]
    · rw [file?_saved hl, writes, fresh_concat_of_notMem hnew, List.map_append, List.map_singleton,
        hitem]
      by_cases hq : q = p
      · rw [if_pos hq, hq, last_concat_self, Option.some_or]
      · rw [if_neg hq, last_concat_of_ne _ _ (Ne.symm hq)]
        exact h.file q

theorem Holds.run (hs : each (extractPickle env outputDir) ps (State.init t) = .ok s) :
    Holds outputDir t (records ps) s :=
  pickles_done (fun _ _ _ _ h hs => h.step hs)
    (fun _ _ _ htree hseen _ _ _ h => h.congr htree hseen) (Holds.init outputDir t) hs

theorem holds_of_cli (hrun : cli env ps outputDir t = .ok s) :
    Holds outputDir t (records ps) s := by
  obtain ⟨s₁, hloop, rfl⟩ := cli_eq_ok.mp hrun
  exact (Holds.run hloop).congr rfl rfl

/-! ### The directories -/

/-- The directories after the records of `done` are those of `t` and those on the ways to the fresh
ones. -/
def HasDirs (outputDir : Str) (t : Files) (done : List Record) (u : Files) : Prop :=
  ∀ q, u.IsDir q ↔ t.IsDir q ∨
    ∃ r ∈ fresh done, ∃ w, way t.cwd (fdirOf outputDir r) = some w ∧ q ∈ w

theorem HasDirs.init (outputDir : Str) (t : Files) : HasDirs outputDir t [] t := by
  intro q
  simp [fresh, firsts]

/-- **One record** makes its way. -/
theorem HasDirs.step (hC : CreateDirSpec env) (hd : HasDirs outputDir t done s.tree)
    (h : Holds outputDir t done s) (hs : saveRecord env outputDir r s = .ok s') :
    HasDirs outputDir t (done ++ [r]) s'.tree := by
  intro q
  obtain ⟨encoded, henc, ⟨hseen, rfl⟩ | ⟨hseen, made, p, hc, -, rfl⟩⟩ := saveRecord_eq_ok.mp hs
  · rw [fresh_concat_of_mem ((h.seen.mem_iff henc).mp hseen)]
    exact hd q
  have hnew : checksum r ∉ done.map checksum := fun hm => hseen ((h.seen.mem_iff henc).mpr hm)
  obtain ⟨w, hclear, hmade, hdirs⟩ := hC.of_returned hc
  have hw := hclear.way_eq
  rw [h.cwd] at hw
  have hmkdirs : (s.tree.mkdirs made).IsDir q ↔ s.tree.IsDir q ∨ q ∈ w := by
    refine ⟨fun hq => (Tree.isDir_of_mkdirs hq).imp_right (hmade q), ?_⟩
    rintro (hq | hq)
    · exact (Tree.below_mkdirs _ made).dir q hq
    · exact hdirs q hq
  rw [saved, Tree.isDir_put, Tree.isDir_put, hmkdirs, hd q, fresh_concat_of_notMem hnew, or_assoc]
  refine or_congr_right ?_
  simp only [List.mem_append, List.mem_singleton, or_and_right, exists_or, exists_eq_left, hw,
    Option.some.injEq, exists_eq_left']

/-- The files and directories after the records of `done`. -/
def Leaves (outputDir : Str) (t : Files) (done : List Record) (s : State) : Prop :=
  Holds outputDir t done s ∧ HasDirs outputDir t done s.tree

theorem Leaves.init (outputDir : Str) (t : Files) : Leaves outputDir t [] (State.init t) :=
  ⟨Holds.init outputDir t, HasDirs.init outputDir t⟩

theorem Leaves.congr (h : Leaves outputDir t done s) (htree : s'.tree = s.tree)
    (hseen : s'.seen = s.seen) : Leaves outputDir t done s' := by
  refine ⟨h.1.congr htree hseen, ?_⟩
  rw [htree]
  exact h.2

theorem Leaves.step (hC : CreateDirSpec env) (h : Leaves outputDir t done s)
    (hs : saveRecord env outputDir r s = .ok s') : Leaves outputDir t (done ++ [r]) s' :=
  ⟨h.1.step hs, h.2.step hC h.1 hs⟩

theorem isDir_of_cli (hC : CreateDirSpec env) (hrun : cli env ps outputDir t = .ok s)
    (q : Place) : s.tree.IsDir q ↔ t.IsDir q ∨
      ∃ r ∈ fresh (records ps), ∃ w, way t.cwd (fdirOf outputDir r) = some w ∧ q ∈ w := by
  obtain ⟨s₁, hloop, rfl⟩ := cli_eq_ok.mp hrun
  have hleaves : Leaves outputDir t (records ps) s₁ :=
    pickles_done (fun _ _ _ _ h hs => h.step hC hs)
      (fun _ _ _ htree hseen _ _ _ h => h.congr htree hseen) (Leaves.init outputDir t) hloop
  exact hleaves.2 q

/-- **The tree a run leaves.** -/
theorem final_tree (hC : CreateDirSpec env) (hrun : cli env ps outputDir t = .ok s) :
    s.tree.cwd = t.cwd ∧
    (∀ p, s.tree.file? p = (last (writes outputDir t.cwd (records ps)) p).or (t.file? p)) ∧
    ∀ q, s.tree.IsDir q ↔ t.IsDir q ∨
      ∃ r ∈ fresh (records ps), ∃ w, way t.cwd (fdirOf outputDir r) = some w ∧ q ∈ w :=
  ⟨(holds_of_cli hrun).cwd, (holds_of_cli hrun).file, isDir_of_cli hC hrun⟩

/-- The second of two texts at one path stays. -/
theorem final_tree_samePath :
    let s := (cli utf8Env [samePath] licenses emptyLicenses).state
    s.tree.cwd = emptyLicenses.cwd ∧
    (∀ p, s.tree.file? p = (last (writes licenses emptyLicenses.cwd (records [samePath])) p).or
      (emptyLicenses.file? p)) ∧
    ∀ q, s.tree.IsDir q ↔ emptyLicenses.IsDir q ∨
      ∃ r ∈ fresh (records [samePath]), ∃ w,
        way emptyLicenses.cwd (fdirOf licenses r) = some w ∧ q ∈ w :=
  final_tree makeMissing_spec (eq_ok_of_isOk (by decide +kernel))

/-! ### The texts that are kept -/

section kept

variable (hrun : cli env ps outputDir t = .ok s)
include hrun

/-- What a fresh record writes. -/
theorem item_eq_iff (hr : r ∈ fresh (records ps)) {p : Place} {c : Bytes} :
    item outputDir t.cwd r = (p, c) ↔
      resolve t.cwd (flocOf outputDir r) = some p ∧ encode r.text = some c := by
  have hplace := resolve_fresh hrun hr
  obtain ⟨b, hb⟩ := ((cli_history env ps outputDir t).of_ok hrun).encodes r (mem_of_mem_firsts _ hr)
  have hitem : item outputDir t.cwd r = ((item outputDir t.cwd r).1, b) := by
    rw [item, hb]
    rfl
  rw [hplace, hb, Option.some.injEq, Option.some.injEq, ← Prod.mk.injEq, ← hitem]

theorem mem_writes {p : Place} {c : Bytes} : (p, c) ∈ writes outputDir t.cwd (records ps) ↔
    ∃ r ∈ fresh (records ps), resolve t.cwd (flocOf outputDir r) = some p ∧
      encode r.text = some c := by
  rw [writes, List.mem_map]
  exact exists_congr fun r => and_congr_right fun hr => item_eq_iff hrun hr

variable {root : Place} (hempty : ∀ p, root <+: p → ¬ t.IsFile p)
include hempty

theorem file?_eq_last {p : Place} (hp : root <+: p) :
    s.tree.file? p = last (writes outputDir t.cwd (records ps)) p := by
  have hnone : t.file? p = none := Option.not_isSome_iff_eq_none.mp (hempty p hp)
  rw [(holds_of_cli hrun).file, hnone, Option.or_none]

theorem exists_fresh_of_kept {p : Place} (hp : root <+: p) {c : Bytes}
    (hc : s.tree.file? p = some c) : ∃ r ∈ fresh (records ps), encode r.text = some c := by
  rw [file?_eq_last hrun hempty hp] at hc
  have hwrite := mem_of_last hc
  obtain ⟨r, hr, -, henc⟩ := (mem_writes hrun).mp hwrite
  exact ⟨r, hr, henc⟩

/-- **The texts that are kept** are those of fresh records that no later one replaces. -/
theorem kept_iff (c : Bytes) :
    (∃ p ∈ s.tree.filesUnder root, s.tree.file? p = some c) ↔
      ∃ before r after p, fresh (records ps) = before ++ r :: after ∧ encode r.text = some c ∧
        resolve t.cwd (flocOf outputDir r) = some p ∧ root <+: p ∧
        ∀ r' ∈ after, resolve t.cwd (flocOf outputDir r') ≠ some p := by
  have hmem : ∀ {before after : List Record} {r : Record},
      fresh (records ps) = before ++ r :: after → r ∈ fresh (records ps) ∧
        ∀ r' ∈ after, r' ∈ fresh (records ps) := by
    intro before after r h
    rw [h]
    exact ⟨by simp, fun r' hr' => by simp [hr']⟩
  constructor
  · rintro ⟨p, hp, hc⟩
    have hroot := (Tree.mem_filesUnder.mp hp).1
    rw [file?_eq_last hrun hempty hroot] at hc
    obtain ⟨ws, ws', hws, hlater⟩ := last_eq_some.mp hc
    obtain ⟨before, rest, hfresh, rfl, hrest⟩ := List.map_eq_append_iff.mp hws
    obtain ⟨r, after, rfl, hitem, rfl⟩ := List.map_eq_cons_iff.mp hrest
    obtain ⟨hr, hafter⟩ := hmem hfresh
    obtain ⟨hplace, henc⟩ := (item_eq_iff hrun hr).mp hitem
    refine ⟨before, r, after, p, hfresh, henc, hplace, hroot, fun r' hr' he => ?_⟩
    have hplace' := resolve_fresh hrun (hafter r' hr')
    rw [he, Option.some.injEq] at hplace'
    exact hlater _ (List.mem_map_of_mem hr') hplace'.symm
  · rintro ⟨before, r, after, p, hfresh, henc, hplace, hroot, hlater⟩
    obtain ⟨hr, hafter⟩ := hmem hfresh
    have hitem := (item_eq_iff hrun hr).mpr ⟨hplace, henc⟩
    have hfile : s.tree.file? p = some c := by
      rw [file?_eq_last hrun hempty hroot]
      refine last_eq_some.mpr ⟨before.map (item outputDir t.cwd), after.map (item outputDir t.cwd),
        ?_, ?_⟩
      · rw [writes, hfresh, List.map_append, List.map_cons, hitem]
      · rw [List.forall_mem_map]
        intro r' hr' he
        refine hlater r' hr' ?_
        rw [resolve_fresh hrun (hafter r' hr'), he]
    refine ⟨p, Tree.mem_filesUnder.mpr ⟨hroot, ?_⟩, hfile⟩
    rw [Tree.IsFile, hfile]
    rfl

/-- **Texts with one checksum are not both kept**: a run that keeps every text it met shows that
SHA-1 tells them apart. -/
theorem noCollision_of_kept (hkept : ∀ b ∈ texts ps,
    ∃ p ∈ s.tree.filesUnder root, s.tree.file? p = some b) : NoCollision (texts ps) := by
  have hfresh : ∀ b ∈ texts ps, ∃ r ∈ fresh (records ps), encode r.text = some b := by
    intro b hb
    obtain ⟨p, hp, hfile⟩ := hkept b hb
    have hroot := (Tree.mem_filesUnder.mp hp).1
    exact exists_fresh_of_kept hrun hempty hroot hfile
  intro a ha b hb hab
  obtain ⟨r, hr, hra⟩ := hfresh a ha
  obtain ⟨r', hr', hrb⟩ := hfresh b hb
  have hchecksum : checksum r = checksum r' := by
    rw [checksum_of_encode hra, checksum_of_encode hrb, hab]
  rw [eq_of_mem_firsts checksum hr hr' hchecksum, hrb] at hra
  exact (Option.some.inj hra).symm

end kept

/-- The text `A`, which was replaced, is not kept. -/
theorem kept_iff_samePath :
    let s := (cli utf8Env [samePath] licenses emptyLicenses).state
    (∃ p ∈ s.tree.filesUnder licensesDir, s.tree.file? p = some [0x41]) ↔
      ∃ before r after p, fresh (records [samePath]) = before ++ r :: after ∧
        encode r.text = some [0x41] ∧
        resolve emptyLicenses.cwd (flocOf licenses r) = some p ∧ licensesDir <+: p ∧
        ∀ r' ∈ after, resolve emptyLicenses.cwd (flocOf licenses r') ≠ some p :=
  kept_iff (eq_ok_of_isOk (by decide +kernel)) (fun p _ => not_isFile_emptyLicenses p) [0x41]

theorem noCollision_twoPaths : NoCollision (texts [twoPaths]) := by
  have hkept : ∀ b ∈ texts [twoPaths],
      ∃ p ∈ (cli utf8Env [twoPaths] licenses emptyLicenses).state.tree.filesUnder licensesDir,
        (cli utf8Env [twoPaths] licenses emptyLicenses).state.tree.file? p = some b := by
    decide +kernel
  exact noCollision_of_kept (eq_ok_of_isOk (by decide +kernel))
    (fun p _ => not_isFile_emptyLicenses p) hkept

end Exlic.FinalTree
