import Exlic.FinalTree
import Exlic.Report

/-! # How a run fails

`failure_of_cli`: a run that raises stops at the first pickle that does not load, whose language
cannot be printed, or that has a record which cannot be saved (`Cause`) in the tree that the records
before have left (`TreeAfter`). It has printed the lines of the pickles before, then the type of the
text or the beginning of the line, and never the totals. The record that raised has changed no
file.

The exceptions that reading a dict back from `json` could raise do not occur. -/

namespace Exlic.Failure

open Exlic.Lib.Command Exlic.Lib.Command.Outcome Exlic.Lib.FileTree Exlic.Lib.Firsts
open Exlic.Lib.Writes
open Exlic.Py.Strings Exlic.Py.Utf8 Exlic.Py.Paths
open Exlic.Cli Exlic.Records Exlic.Steps Exlic.History Exlic.FinalTree Exlic.Report
open Exlic.Py.Sha1 (hexdigest)
open Exlic.CreateDir
open Exlic.Completion (fileInWay)

/-- Why a record cannot be saved in the tree `u`. -/
inductive Cause (env : Env) (outputDir : Str) (u : Files) (r : Record) : Exn → Prop
  | text (h : encode r.text = none) : Cause env outputDir u r .unicodeEncodeError
  | directory (made : List Place) (e : Exn)
      (h : env.createDir u (fdirOf outputDir r) = (made, some e)) : Cause env outputDir u r e
  | file (made : List Place) (e : Exn) (hmade : env.createDir u (fdirOf outputDir r) = (made, none))
      (h : locate env.accepts (u.mkdirs made) (flocOf outputDir r) = .error e) :
      Cause env outputDir u r e

variable {env : Env} {outputDir : Str} {t : Files} {ps : List Pickle} {r : Record}
  {done rs : List Record} {s s' : State} {e : Exn}

theorem createDir_eq_raised {fdir : Str} : createDir env fdir s = .raised e s' ↔
    ∃ made, env.createDir s.tree fdir = (made, some e) ∧
      s' = { s with
        tree := s.tree.mkdirs made
        calls := s.calls ++ [.createDir fdir]
        effects := s.effects ++ made.map .made } := by
  rcases h : env.createDir s.tree fdir with ⟨made, _ | e'⟩
  · simp [createDir, h]
  · simp [createDir, h, eq_comm]

theorem writeFile_eq_raised {floc : Str} {encoded : Bytes} :
    writeFile env floc encoded s = .raised e s' ↔ locate env.accepts s.tree floc = .error e ∧
      s' = { s with calls := s.calls ++ [.openWb floc] } := by
  rcases h : locate env.accepts s.tree floc with e' | p
  · simp [writeFile, h, eq_comm]
  · simp [writeFile, h]

/-- **Why a record raises**; it prints the type of its text, and its text was not seen before. -/
theorem cause_of_saveRecord (h : saveRecord env outputDir r s = .raised e s') :
    Cause env outputDir s.tree r e ∧ s'.out = s.out ++ [.typeOfText] ∧
      (∀ encoded, encode r.text = some encoded → hexdigest encoded ∉ s.seen) ∧
      (s'.tree = s.tree ∨
        s'.tree = s.tree.mkdirs (env.createDir s.tree (fdirOf outputDir r)).1) := by
  rcases hencode : encode r.text with _ | encoded
  · rw [saveRecord_of_encode_eq_none hencode, Outcome.raised.injEq] at h
    obtain ⟨rfl, rfl⟩ := h
    exact ⟨.text hencode, rfl, by simp, Or.inl rfl⟩
  by_cases hseen : hexdigest encoded ∈ s.seen
  · rw [saveRecord_of_mem hencode hseen] at h
    cases h
  have hnew : ∀ b, some encoded = some b → hexdigest b ∉ s.seen := by
    intro b hb
    rwa [← Option.some.inj hb]
  rw [saveRecord_of_notMem hencode hseen, onRaise_eq_raised] at h
  obtain ⟨s₁, h, rfl⟩ := h
  obtain h | ⟨s₂, hmade, h⟩ := andThen_eq_raised.mp h
  · obtain ⟨made, hc, rfl⟩ := createDir_eq_raised.mp h
    exact ⟨.directory made e hc, rfl, hnew, Or.inr (by rw [hc]; rfl)⟩
  · obtain ⟨made, hc, rfl⟩ := createDir_eq_ok.mp hmade
    obtain h | ⟨s₃, -, h⟩ := andThen_eq_raised.mp h
    · obtain ⟨hl, rfl⟩ := writeFile_eq_raised.mp h
      exact ⟨.file made e hc hl, rfl, hnew, Or.inr (by rw [hc]; rfl)⟩
    · cases h

/-- The tree `u` is what the records of `rs`, all saved or skipped, make of `t`. -/
structure TreeAfter (outputDir : Str) (t : Files) (rs : List Record) (u : Files) : Prop where
  cwd : u.cwd = t.cwd
  file : ∀ p, u.file? p = (last (writes outputDir t.cwd rs) p).or (t.file? p)
  dir : ∀ q, u.IsDir q ↔ t.IsDir q ∨
    ∃ r ∈ fresh rs, ∃ w, way t.cwd (fdirOf outputDir r) = some w ∧ q ∈ w

/-- What a run that raises has done before: it has got through the pickles of `before` and, in the
next one, through the records of `done`. That left the tree `u`. -/
structure Before (outputDir : Str) (t : Files) (before : List Pickle) (done : List Record)
    (u : Files) : Prop where
  loads : ∀ p ∈ before, ∃ d, p.load = .ok d
  tree : TreeAfter outputDir t (records before ++ done) u

/-- Where a run raises, what it has printed, and the tree it leaves. -/
inductive FailsIn (env : Env) (outputDir : Str) (t : Files) (ps : List Pickle) (e : Exn)
    (s : State) : Prop
  | load (before : List Pickle) (p : Pickle) (after : List Pickle) (hps : ps = before ++ p :: after)
      (hbefore : Before outputDir t before [] s.tree) (hload : p.load = .error e)
      (hout : s.out = report [] before)
  | record (before : List Pickle) (p : Pickle) (after : List Pickle)
      (hps : ps = before ++ p :: after) (d : LicensesByRepo) (hload : p.load = .ok d)
      (done : List Record) (r : Record) (rest : List Record)
      (hrecords : recordsOf p = done ++ r :: rest) (u : Files)
      (hbefore : Before outputDir t before done u)
      (hnew : checksum r ∉ (records before ++ done).map checksum)
      (hcause : Cause env outputDir u r e)
      (htree : s.tree = u ∨ s.tree = u.mkdirs (env.createDir u (fdirOf outputDir r)).1)
      (hout : s.out = report [] before ++ [.typeOfText])
  | print (before : List Pickle) (p : Pickle) (after : List Pickle)
      (hps : ps = before ++ p :: after) (d : LicensesByRepo) (hload : p.load = .ok d)
      (hbefore : Before outputDir t before (recordsOf p) s.tree)
      (hstdout : env.stdout (languageOf p.name) = false) (he : e = .unicodeEncodeError)
      (hout : s.out = report [] before ++ [.forBegun])

section pickle

variable {before after : List Pickle} {p : Pickle} {s₀ s₁ : State}
  (hrun : each (extractPickle env outputDir) before (State.init t) = .ok s₀)
  (hloop : each (saveRecord env outputDir) done (startPickle s₀) = .ok s₁)
include hrun

theorem loads_of_run : ∀ p ∈ before, ∃ d, p.load = .ok d := by
  intro p hp
  obtain ⟨s₁, s₂, h⟩ := exists_turn hrun p hp
  obtain ⟨d, hd, -⟩ := extractPickle_eq_ok.mp h
  exact ⟨d, hd⟩

include hloop

/-- The tree that is left when the next record or the end of the pickle comes. -/
theorem before_of_loop (hC : CreateDirSpec env) : Before outputDir t before done s₁.tree := by
  obtain ⟨hholds, hdirs⟩ : Leaves outputDir t (records before ++ done) s₁ :=
    records_done (fun _ _ _ _ h hs => h.step hC hs)
      (fun _ _ _ htree hseen _ _ _ h => h.congr htree hseen) (Leaves.init outputDir t) hrun hloop
  exact ⟨loads_of_run hrun, hholds.cwd, hholds.file, hdirs⟩

/-- **A record that raises in a run.** -/
theorem failsIn_record (hC : CreateDirSpec env) {d : LicensesByRepo}
    (hps : ps = before ++ p :: after) (hload : p.load = .ok d)
    (hrecords : recordsOf p = done ++ r :: rs)
    (hraise : saveRecord env outputDir r s₁ = .raised e s) : FailsIn env outputDir t ps e s := by
  obtain ⟨hcause, hout, hnew, htree⟩ := cause_of_saveRecord hraise
  have hcounting := (Reporting.run hrun).counting hloop
  have hrem := remembers_of_loop hrun hloop
  refine .record before p after hps d hload done r rs hrecords s₁.tree
    (before_of_loop hrun hloop hC) ?_ hcause htree ?_
  · rcases henc : encode r.text with _ | encoded
    · -- all records before could be encoded
      intro hm
      obtain ⟨r', hr', he⟩ := List.mem_map.mp hm
      obtain ⟨b, hb⟩ := hrem.encodes r' hr'
      rw [checksum_of_encode hb, checksum, henc] at he
      cases he
    · exact fun hm => hnew encoded henc ((hrem.seen.mem_iff henc).mpr hm)
  · rw [hout, hcounting.out, (Reporting.run hrun).out]

end pickle

/-- **How a run fails.** -/
theorem failure_of_cli (hC : CreateDirSpec env) (hrun : cli env ps outputDir t = .raised e s) :
    FailsIn env outputDir t ps e s := by
  obtain hraise | ⟨s₁, -, h⟩ := andThen_eq_raised.mp hrun
  swap
  · cases h
  obtain ⟨before, p, after, s₀, hps, hbefore, hp⟩ := each_eq_raised.mp hraise
  have hR := Reporting.run hbefore
  rcases hload : p.load with e' | d
  · rw [extractPickle_of_error hload, Outcome.raised.injEq] at hp
    obtain ⟨rfl, rfl⟩ := hp
    have hnone : each (saveRecord env outputDir) [] (startPickle s₀) = .ok (startPickle s₀) := rfl
    have hleft : Before outputDir t before [] (startPickle s₀).tree :=
      before_of_loop hbefore hnone hC
    exact .load before p after hps hleft hload hR.out
  rw [extractPickle_of_load hload] at hp
  obtain hp | ⟨s₁, hloop, hp⟩ := andThen_eq_raised.mp hp
  · obtain ⟨done, r, rest, s₁, hrecords, hdone, hr⟩ := each_eq_raised.mp hp
    exact failsIn_record hbefore hdone hC hps hload hrecords hr
  · rw [finishPickle_eq] at hp
    split_ifs at hp with hstdout
    obtain ⟨rfl, rfl⟩ := Outcome.raised.inj hp
    have hcounting := hR.counting hloop
    have hleft : Before outputDir t before (recordsOf p) s₁.tree := before_of_loop hbefore hloop hC
    refine .print before p after hps d hload hleft (by simpa using hstdout) rfl ?_
    simp only [State.print, hcounting.out, hR.out]

/-- The second path needs the file of the first one as a directory. -/
theorem failure_of_cli_fileInWay : FailsIn utf8Env licenses emptyLicenses [fileInWay] .osError
    (cli utf8Env [fileInWay] licenses emptyLicenses).state :=
  failure_of_cli makeMissing_spec (eq_raised_of_exn (by decide +kernel))

end Exlic.Failure
