import Exlic.FinalTree
import Mathlib.Algebra.GroupWithZero.Nat

/-! # What a run prints

`cli_report`: a run that finishes prints one line for each pickle, with the number of its fresh
records and of the others, and then the totals. `report_adds_up`: the totals are the sums of these
numbers, and as many records are saved as there are checksums.

`saved_and_files` compares the total with the files that are there: of the texts that are reported
as saved, those are missing that were written over and those that were written elsewhere. -/

namespace Exlic.Report

open Exlic.Lib.Command Exlic.Lib.Command.Outcome Exlic.Lib.FileTree Exlic.Lib.Firsts
open Exlic.Lib.Writes
open Exlic.Py.Strings Exlic.Py.Utf8 Exlic.Py.Paths
open Exlic.Cli Exlic.Records Exlic.Steps Exlic.History Exlic.CreateDir Exlic.FinalTree
open Exlic.Corpus (samePath twoPaths)

/-- The line of a pickle after the records of `before`. -/
def reportLine (before : List Record) (p : Pickle) : Line :=
  .forLanguage (languageOf p.name) (freshAfter before (recordsOf p)).length
    ((recordsOf p).length - (freshAfter before (recordsOf p)).length)

/-- The lines of pickles after the records of `before`. -/
def report : List Record → List Pickle → List Line
  | _, [] => []
  | before, p :: ps => reportLine before p :: report (before ++ recordsOf p) ps

/-- The counts of a pickle: `before` are the records of the pickles before, `s₀` is the state in
which it starts, `done` are its records so far. -/
structure Counting (before : List Record) (s₀ : State) (done : List Record) (s : State) :
    Prop where
  seen : Seen (before ++ done) s
  licSaved : s.licSaved = (freshAfter before done).length
  count : s.licSaved + s.licSkipped = done.length
  out : s.out = s₀.out
  totLicSaved : s.totLicSaved = s₀.totLicSaved
  totLicSkipped : s.totLicSkipped = s₀.totLicSkipped

variable {env : Env} {outputDir : Str} {before done : List Record} {r : Record} {s₀ s s' : State}

theorem mem_marked {before done : List Record} {r : Record} :
    checksum r ∈ (before.map checksum).toFinset ∪ (done.map checksum).toFinset ↔
      checksum r ∈ (before ++ done).map checksum := by
  rw [List.map_append, List.mem_append, Finset.mem_union, List.mem_toFinset, List.mem_toFinset]

theorem freshAfter_concat_of_mem (h : checksum r ∈ (before ++ done).map checksum) :
    freshAfter before (done ++ [r]) = freshAfter before done := by
  rw [freshAfter, firsts_concat, if_pos (mem_marked.mpr h)]
  rfl

theorem freshAfter_concat_of_notMem (h : checksum r ∉ (before ++ done).map checksum) :
    freshAfter before (done ++ [r]) = freshAfter before done ++ [r] := by
  rw [freshAfter, firsts_concat, if_neg (fun hm => h (mem_marked.mp hm))]
  rfl

/-- **One record** is counted once. -/
theorem Counting.step (h : Counting before s₀ done s)
    (hs : saveRecord env outputDir r s = .ok s') : Counting before s₀ (done ++ [r]) s' := by
  have hseen' : Seen (before ++ (done ++ [r])) s' := by
    rw [← List.append_assoc]
    exact h.seen.step hs
  have hsaved := h.licSaved
  have hcount := h.count
  have hlength : (done ++ [r]).length = done.length + 1 := by simp
  obtain ⟨encoded, henc, ⟨hseen, rfl⟩ | ⟨hseen, made, p, -, -, rfl⟩⟩ := saveRecord_eq_ok.mp hs
  · have hold := (h.seen.mem_iff henc).mp hseen
    refine ⟨hseen', ?_, ?_, h.out, h.totLicSaved, h.totLicSkipped⟩
    · rw [freshAfter_concat_of_mem hold]
      exact hsaved
    · rw [hlength]
      simp only [skipped]
      omega
  · have hnew := fun hm => hseen ((h.seen.mem_iff henc).mpr hm)
    refine ⟨hseen', ?_, ?_, h.out, h.totLicSaved, h.totLicSkipped⟩
    · rw [freshAfter_concat_of_notMem hnew, List.length_append, List.length_singleton]
      simp only [saved]
      omega
    · rw [hlength]
      simp only [saved]
      omega

/-- The lines printed so far and the totals, after the pickles of `done`. -/
structure Reporting (done : List Pickle) (s : State) : Prop where
  seen : Seen (records done) s
  out : s.out = report [] done
  saved : s.totLicSaved = (fresh (records done)).length
  count : s.totLicSaved + s.totLicSkipped = (records done).length

theorem report_concat (p : Pickle) : ∀ (before : List Record) (ps : List Pickle),
    report before (ps ++ [p]) = report before ps ++ [reportLine (before ++ records ps) p]
  | before, [] => by simp [report, records]
  | before, q :: ps => by
    have happend : before ++ recordsOf q ++ records ps = before ++ records (q :: ps) := by
      rw [List.append_assoc]
      rfl
    rw [List.cons_append, report, report, report_concat p _ ps, happend, List.cons_append]

/-- **The records of a pickle** are counted in its own counters. -/
theorem Reporting.counting {done : List Pickle} {rs : List Record} (h : Reporting done s)
    (hs : each (saveRecord env outputDir) rs (startPickle s) = .ok s') :
    Counting (records done) s rs s' := by
  have hstart : Counting (records done) s [] (startPickle s) :=
    ⟨by rw [List.append_nil]; exact h.seen, rfl, rfl, rfl, rfl, rfl⟩
  exact each_done (D := Counting (records done) s) (fun _ _ _ _ h hs => h.step hs) hstart hs

/-- **One pickle** prints its line. -/
theorem Reporting.step {done : List Pickle} {p : Pickle} (h : Reporting done s)
    (hs : extractPickle env outputDir p s = .ok s') : Reporting (done ++ [p]) s' := by
  obtain ⟨d, -, s₁, hloop, -, rfl⟩ := extractPickle_eq_ok.mp hs
  have hc := h.counting hloop
  have hsaved := hc.licSaved
  have hcount := hc.count
  have hskipped : s₁.licSkipped =
      (recordsOf p).length - (freshAfter (records done) (recordsOf p)).length := by omega
  refine ⟨?_, ?_, ?_, ?_⟩
  · rw [records_concat]
    exact hc.seen
  · rw [report_concat, List.nil_append, reportLine, ← h.out, finished, State.print, hc.out, hsaved,
      hskipped]
  · rw [records_concat, fresh_append, List.length_append]
    simp only [finished, State.print, hc.totLicSaved, h.saved, hsaved]
  · have htotal := h.count
    rw [records_concat, List.length_append]
    simp only [finished, State.print, hc.totLicSaved, hc.totLicSkipped]
    omega

theorem Reporting.run {ps : List Pickle} {t : Files}
    (hs : each (extractPickle env outputDir) ps (State.init t) = .ok s) : Reporting ps s := by
  have hinit : Reporting [] (State.init t) := ⟨Seen.init t, rfl, rfl, rfl⟩
  exact each_done (D := Reporting) (fun _ _ _ _ h hs => h.step hs) hinit hs

/-- All lines of a run. -/
def allLines (ps : List Pickle) : List Line :=
  report [] ps ++ [.total (fresh (records ps)).length
    ((records ps).length - (fresh (records ps)).length)]

theorem Reporting.out_total {done : List Pickle} (h : Reporting done s) :
    (s.print (.total s.totLicSaved s.totLicSkipped)).out = allLines done := by
  have hsaved := h.saved
  have hcount := h.count
  have hskipped : s.totLicSkipped = (records done).length - (fresh (records done)).length := by
    omega
  rw [allLines, State.print, h.out, hsaved, hskipped]

/-- **What a run prints**: a line for each pickle, and the totals. This does not depend on the
tree. -/
theorem cli_report {ps : List Pickle} {t : Files} (hrun : cli env ps outputDir t = .ok s) :
    s.out = allLines ps := by
  obtain ⟨s₁, hloop, rfl⟩ := cli_eq_ok.mp hrun
  exact (Reporting.run hloop).out_total

/-- The last line is that of the totals. -/
theorem getLast?_out {ps : List Pickle} {t : Files} (hrun : cli env ps outputDir t = .ok s) :
    s.out.getLast? = some (.total (fresh (records ps)).length
      ((records ps).length - (fresh (records ps)).length)) := by
  rw [cli_report hrun, allLines, List.getLast?_concat]

/-! ### The sums -/

/-- The number of saved records a line reports for a pickle. -/
def savedOf : Line → ℕ
  | .forLanguage _ saved _ => saved
  | _ => 0

/-- The number of skipped records a line reports for a pickle. -/
def skippedOf : Line → ℕ
  | .forLanguage _ _ skipped => skipped
  | _ => 0

theorem length_report : ∀ (before : List Record) (ps : List Pickle),
    (report before ps).length = ps.length
  | _, [] => rfl
  | before, p :: ps => by rw [report, List.length_cons, length_report, List.length_cons]

theorem freshAfter_append (before rs rs' : List Record) :
    freshAfter before (rs ++ rs') = freshAfter before rs ++ freshAfter (before ++ rs) rs' := by
  rw [freshAfter, firsts_append, ← List.toFinset_append, ← List.map_append]
  rfl

theorem sum_saved_report : ∀ (before : List Record) (ps : List Pickle),
    ((report before ps).map savedOf).sum = (freshAfter before (records ps)).length
  | _, [] => rfl
  | before, p :: ps => by
    have happend : records (p :: ps) = recordsOf p ++ records ps := rfl
    rw [report, List.map_cons, List.sum_cons, sum_saved_report, happend, freshAfter_append,
      List.length_append]
    rfl

theorem sum_report : ∀ (before : List Record) (ps : List Pickle),
    ((report before ps).map savedOf).sum + ((report before ps).map skippedOf).sum =
      (records ps).length
  | _, [] => rfl
  | before, p :: ps => by
    have happend : records (p :: ps) = recordsOf p ++ records ps := rfl
    have hle : (freshAfter before (recordsOf p)).length ≤ (recordsOf p).length :=
      (firsts_sublist checksum _ _).length_le
    have hrest := sum_report (before ++ recordsOf p) ps
    rw [report, List.map_cons, List.map_cons, List.sum_cons, List.sum_cons, happend,
      List.length_append, ← hrest]
    simp only [reportLine, savedOf, skippedOf]
    omega

/-- **The report adds up**: the totals are the sums over the pickles, as many records are saved as
there are checksums, and all others are skipped. -/
theorem report_adds_up {ps : List Pickle} {t : Files} (hrun : cli env ps outputDir t = .ok s) :
    ∃ saved skipped, s.out = report [] ps ++ [.total saved skipped] ∧
      (report [] ps).length = ps.length ∧ ((report [] ps).map savedOf).sum = saved ∧
      ((report [] ps).map skippedOf).sum = skipped ∧
      saved = ((records ps).map checksum).toFinset.card ∧
      saved + skipped = (records ps).length := by
  have hsaved : ((report [] ps).map savedOf).sum = (fresh (records ps)).length :=
    sum_saved_report [] ps
  have hsum := sum_report [] ps
  have hcount : (fresh (records ps)).length ≤ (records ps).length :=
    (firsts_sublist checksum _ _).length_le
  exact ⟨_, _, cli_report hrun, length_report [] ps, hsaved, by omega, length_firsts checksum _,
    by omega⟩

theorem report_adds_up_twoPaths : ∃ saved skipped,
    (cli utf8Env [twoPaths] licenses emptyLicenses).state.out =
        report [] [twoPaths] ++ [.total saved skipped] ∧
      (report [] [twoPaths]).length = 1 ∧ ((report [] [twoPaths]).map savedOf).sum = saved ∧
      ((report [] [twoPaths]).map skippedOf).sum = skipped ∧
      saved = ((records [twoPaths]).map checksum).toFinset.card ∧
      saved + skipped = (records [twoPaths]).length :=
  report_adds_up (eq_ok_of_isOk (by decide +kernel))

/-! ### The files that are there -/

/-- The writes at or below `root`. -/
def inside (root : Place) (ws : List (Place × Bytes)) : List (Place × Bytes) :=
  ws.filter fun w => root <+: w.1

/-- The writes elsewhere. -/
def outside (root : Place) (ws : List (Place × Bytes)) : List (Place × Bytes) :=
  ws.filter fun w => ¬ root <+: w.1

section files

variable {ps : List Pickle} {t : Files} {root : Place} (hrun : cli env ps outputDir t = .ok s)
  (hempty : ∀ p, root <+: p → ¬ t.IsFile p)
include hrun hempty

/-- The files below `root` are the places that are written there. -/
theorem filesUnder_eq_keys : s.tree.filesUnder root =
    ((inside root (writes outputDir t.cwd (records ps))).map Prod.fst).toFinset := by
  ext p
  rw [Tree.mem_filesUnder, List.mem_toFinset, List.mem_map]
  unfold inside Tree.IsFile
  constructor
  · rintro ⟨hroot, hfile⟩
    rw [file?_eq_last hrun hempty hroot, isSome_last] at hfile
    obtain ⟨w, hw, rfl⟩ := List.mem_map.mp hfile
    exact ⟨w, List.mem_filter.mpr ⟨hw, decide_eq_true hroot⟩, rfl⟩
  · rintro ⟨w, hw, rfl⟩
    obtain ⟨hw, hroot⟩ := List.mem_filter.mp hw
    have hroot := of_decide_eq_true hroot
    rw [file?_eq_last hrun hempty hroot, isSome_last]
    exact ⟨hroot, List.mem_map_of_mem hw⟩

/-- **The total and the files**: what is reported as saved is a file below `root`, was written over,
or was written elsewhere. -/
theorem saved_and_files : ∃ saved skipped, s.out.getLast? = some (.total saved skipped) ∧
    saved = (s.tree.filesUnder root).card +
      (overwritten (inside root (writes outputDir t.cwd (records ps)))).length +
      (outside root (writes outputDir t.cwd (records ps))).length := by
  have hlast := getLast?_out hrun
  have hlength : (writes outputDir t.cwd (records ps)).length = (fresh (records ps)).length := by
    rw [writes, List.length_map]
  have hsplit := List.length_eq_length_filter_add (l := writes outputDir t.cwd (records ps))
    fun w => decide (root <+: w.1)
  have hinside := card_keys_add_overwritten (inside root (writes outputDir t.cwd (records ps)))
  have houtside : (outside root (writes outputDir t.cwd (records ps))).length =
      ((writes outputDir t.cwd (records ps)).filter fun w => !decide (root <+: w.1)).length := by
    simp [outside]
  refine ⟨_, _, hlast, ?_⟩
  rw [filesUnder_eq_keys hrun hempty, houtside]
  unfold inside at hinside ⊢
  omega

end files

/-- Two texts are saved, and one file is there. -/
theorem saved_and_files_samePath :
    let s := (cli utf8Env [samePath] licenses emptyLicenses).state
    let ws := writes licenses emptyLicenses.cwd (records [samePath])
    ∃ saved skipped, s.out.getLast? = some (.total saved skipped) ∧
      saved = (s.tree.filesUnder licensesDir).card +
        (overwritten (inside licensesDir ws)).length + (outside licensesDir ws).length :=
  saved_and_files (eq_ok_of_isOk (by decide +kernel)) fun p _ => not_isFile_emptyLicenses p

end Exlic.Report
