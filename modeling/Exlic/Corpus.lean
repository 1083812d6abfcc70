import Exlic.Refinement
import Exlic.CreateDir

/-! # What an extraction keeps

`Extracted` is what one expects of a run into an empty output directory: every text is there, none
twice, and the totals are right. `extracted_iff` says when this holds of a run that finishes: if the
fresh records have distinct places, all below the output directory (`Lossless`). Otherwise a later
record takes the place of an earlier one, whose checksum stays in `seen`. -/

namespace Exlic.Corpus

open Exlic.Lib.Command Exlic.Lib.Command.Outcome Exlic.Lib.Dict Exlic.Lib.DedupStore
open Exlic.Lib.FileTree
open Exlic.Py.Strings Exlic.Py.Utf8 Exlic.Py.Paths
open Exlic.Cli Exlic.Records Exlic.Steps Exlic.History Exlic.Refinement Exlic.CreateDir

/-- No content is lost and none is kept twice below `root`. -/
structure Extracted (ps : List Pickle) (root : Place) (s : State) : Prop where
  /-- The text of every pickled record is the content of a file. -/
  kept : ∀ r ∈ pickled ps, ∃ encoded, encode r.text = some encoded ∧
    ∃ p ∈ s.tree.filesUnder root, s.tree.file? p = some encoded
  /-- No two files have the same content. -/
  once : ∀ p ∈ s.tree.filesUnder root, ∀ p' ∈ s.tree.filesUnder root,
    s.tree.file? p = s.tree.file? p' → p = p'
  /-- The totals that are reported are the number of files and of records. -/
  counted : ∃ saved skipped, s.out.getLast? = some (.total saved skipped) ∧
    (s.tree.filesUnder root).card = saved ∧ saved + skipped = (pickled ps).length

/-- When an extraction loses nothing. -/
structure Lossless (outputDir : Str) (cwd root : Place) (ps : List Pickle) : Prop where
  encodes : ∀ r ∈ pickled ps, ∃ encoded, encode r.text = some encoded
  unmerged : UnmergedAll ps
  distinct : ((fresh (records ps)).map fun r => resolve cwd (flocOf outputDir r)).Nodup
  inside : ∀ r ∈ fresh (records ps), ∃ p, resolve cwd (flocOf outputDir r) = some p ∧ root <+: p

section run

variable {env : Env} {ps : List Pickle} {outputDir : Str} {t : Files} {s : State} {root : Place}
  (hn : NoCollision (texts ps)) (hrun : cli env ps outputDir t = .ok s)
  (hempty : ∀ p, root <+: p → ¬ t.IsFile p)
include hn hrun

/-- Every record is counted. -/
theorem saved_add_skipped : s.totLicSaved + s.totLicSkipped = (records ps).length := by
  obtain ⟨href, -⟩ := cli_refines hn hrun
  rw [href.saved_eq, href.skipped_eq, count_run, itemsOf, List.length_map]

include hempty

theorem once_of_run {p p' : Place} (hp : p ∈ s.tree.filesUnder root)
    (hp' : p' ∈ s.tree.filesUnder root) (he : s.tree.file? p = s.tree.file? p') : p = p' := by
  rw [Tree.mem_filesUnder] at hp hp'
  obtain ⟨c, hc⟩ := Option.isSome_iff_exists.mp hp.2
  have hc' := he ▸ hc
  rw [file?_region hn hrun hempty hp.1] at hc
  rw [file?_region hn hrun hempty hp'.1] at hc'
  exact (run (itemsOf outputDir t.cwd ps)).file_inj p p' c hc hc'

/-- **As many files as records saved**, exactly if the fresh records have distinct places below the
output directory. -/
theorem card_iff : (s.tree.filesUnder root).card = s.totLicSaved ↔
    ((fresh (records ps)).map fun r => resolve t.cwd (flocOf outputDir r)).Nodup ∧
      ∀ r ∈ fresh (records ps), ∃ p, resolve t.cwd (flocOf outputDir r) = some p ∧ root <+: p := by
  rw [filesUnder_eq hn hrun hempty, (cli_refines hn hrun).1.saved_eq,
    card_region_iff _ fun p => root <+: p, nodup_places_iff hn hrun, news_items hn hrun]
  refine and_congr_right fun _ => ?_
  rw [List.forall_mem_map]
  refine forall₂_congr fun r hr => ?_
  rw [resolve_fresh hrun hr]
  simp

theorem kept_of_distinct (hplaces : ((news (itemsOf outputDir t.cwd ps)).map Prod.fst).Nodup)
    (hinside : ∀ r ∈ fresh (records ps), ∃ p, resolve t.cwd (flocOf outputDir r) = some p ∧
      root <+: p) {r : Record} (hr : r ∈ records ps) {encoded : Bytes}
    (henc : encode r.text = some encoded) :
    ∃ p ∈ s.tree.filesUnder root, s.tree.file? p = some encoded := by
  obtain ⟨j, hj, hlookup⟩ := exists_place hplaces
    (List.mem_map_of_mem (f := item outputDir t.cwd) hr)
  rw [news_items hn hrun] at hj
  obtain ⟨r', hr', rfl⟩ := List.mem_map.mp hj
  obtain ⟨p, hp, hroot⟩ := hinside r' hr'
  rw [resolve_fresh hrun hr', Option.some.injEq] at hp
  have hitem : (item outputDir t.cwd r).2 = encoded := by rw [item, henc]; rfl
  have hfile : s.tree.file? p = some encoded := by
    rw [file?_region hn hrun hempty hroot, ← hp, ← hitem]
    exact hlookup
  refine ⟨p, ?_, hfile⟩
  rw [Tree.mem_filesUnder, Tree.IsFile, hfile]
  exact ⟨hroot, rfl⟩

end run

/-- **When nothing is lost.** A run that finishes keeps every text once and reports the right totals
exactly if it is lossless. -/
theorem extracted_iff {env : Env} {ps : List Pickle} {outputDir : Str} {t : Files} {s : State}
    {root : Place} (hn : NoCollision (texts ps)) (hrun : cli env ps outputDir t = .ok s)
    (hempty : ∀ p, root <+: p → ¬ t.IsFile p) :
    Extracted ps root s ↔ Lossless outputDir t.cwd root ps := by
  have hcard := card_iff hn hrun hempty
  have hcount := saved_add_skipped hn hrun
  have hout := (cli_refines hn hrun).2
  have hlength := (length_records ps).2
  constructor
  · rintro ⟨hkept, -, saved, skipped, hlast, hfiles, hall⟩
    rw [hout, Option.some.injEq, Line.total.injEq] at hlast
    obtain ⟨rfl, rfl⟩ := hlast
    obtain ⟨hdistinct, hinside⟩ := hcard.mp hfiles
    refine ⟨fun r hr => ?_, hlength.mp (by omega), hdistinct, hinside⟩
    obtain ⟨encoded, henc, -⟩ := hkept r hr
    exact ⟨encoded, henc⟩
  · rintro ⟨hencodes, hunmerged, hdistinct, hinside⟩
    have hrecords := hlength.mpr hunmerged
    refine ⟨fun r hr => ?_, fun p hp p' hp' he => once_of_run hn hrun hempty hp hp' he, _, _,
      hout, hcard.mpr ⟨hdistinct, hinside⟩, by omega⟩
    obtain ⟨encoded, henc⟩ := hencodes r hr
    obtain ⟨r', hr', htext⟩ := exists_mem_records hunmerged hr (not_high_of_encode henc)
    refine ⟨encoded, henc, ?_⟩
    rw [← htext] at henc
    exact kept_of_distinct hn hrun hempty ((nodup_places_iff hn hrun).mpr hdistinct) hinside hr'
      henc

/-- Two repositories with a path in common. -/
def samePath : Pickle where
  name := str ['p', 'y', '_', '0']
  load := .ok ⟨[(str ['r', '1'], [(str ['a', '/', 'L'], str ['A'])]),
    (str ['r', '2'], [(str ['a', '/', 'L'], str ['B'])])], by decide⟩

/-- The second text replaces the first one, and two records are reported as saved. -/
theorem not_extracted_samePath :
    NoCollision (texts [samePath]) ∧ (∀ p, licensesDir <+: p → ¬ emptyLicenses.IsFile p) ∧
      ∃ s, cli utf8Env [samePath] licenses emptyLicenses = .ok s ∧
        ¬ Extracted [samePath] licensesDir s := by
  refine ⟨by decide +kernel, fun p _ => not_isFile_emptyLicenses p, _,
    eq_ok_of_isOk (by decide +kernel), fun h => ?_⟩
  obtain ⟨saved, skipped, hlast, hfiles, -⟩ := h.counted
  have hlast' : (cli utf8Env [samePath] licenses emptyLicenses).state.out.getLast? =
      some (.total 2 0) := by decide +kernel
  have hfiles' : ((cli utf8Env [samePath] licenses emptyLicenses).state.tree.filesUnder
      licensesDir).card = 1 := by decide +kernel
  rw [hlast', Option.some.injEq, Line.total.injEq] at hlast
  omega

/-- Two paths, and a second copy of the first text. -/
def twoPaths : Pickle where
  name := str ['p', 'y', '_', '0']
  load := .ok ⟨[(str ['r', '1'], [(str ['a', '/', 'L'], str ['A'])]),
    (str ['r', '2'], [(str ['b', '/', 'L'], str ['B']), (str ['b', '/', 'M'], str ['A'])])],
    by decide⟩

theorem lossless_twoPaths : Lossless licenses [] licensesDir [twoPaths] := by
  refine ⟨fun r hr => Option.isSome_iff_exists.mp ?_, fun p hp d hd => ?_, by decide +kernel,
    fun r hr => ?_⟩
  · have h : ∀ r ∈ pickled [twoPaths], (encode r.text).isSome := by decide +kernel
    exact h r hr
  · obtain rfl := List.mem_singleton.mp hp
    obtain rfl := Except.ok.inj hd
    decide +kernel
  · have h : ∀ r ∈ fresh (records [twoPaths]), resolve [] (flocOf licenses r) =
        some ((resolve [] (flocOf licenses r)).getD []) ∧
          licensesDir <+: (resolve [] (flocOf licenses r)).getD [] := by decide +kernel
    exact ⟨_, h r hr⟩

theorem extracted_twoPaths : Extracted [twoPaths] licensesDir
    (cli utf8Env [twoPaths] licenses emptyLicenses).state :=
  (extracted_iff (by decide +kernel) (eq_ok_of_isOk (by decide +kernel))
    fun p _ => not_isFile_emptyLicenses p).mpr lossless_twoPaths

end Exlic.Corpus
