import Exlic.History
import Exlic.Py.PathJoin

/-! # Destinations of paths that only descend

A relative `repo_path` is saved where it leads to from the directory of its language
(`resolve_flocOf`). If neither it nor the language goes up (`Below`), that directory is below the
output directory (`resolve_languageDir`). The language is one component of a file name, so only the
language `..` goes up (`descends_languageOf`). -/

namespace Exlic.Destination

open Exlic.Lib.FileTree Exlic.Lib.Firsts
open Exlic.Py.Strings Exlic.Py.Utf8 Exlic.Py.Paths Exlic.Py.PathJoin
open Exlic.Cli Exlic.Records Exlic.Steps Exlic.History

/-- The language is one component, as it comes from a file name. -/
theorem slash_notMem_languageOf (name : Str) : slash ∉ languageOf name := by
  have htail := notMem_rpartition slash name
  obtain ⟨hsplit, -⟩ := partition_spec underscore (rpartition slash name).2.2
  intro h
  refine htail ?_
  rw [← hsplit, List.append_assoc]
  exact List.mem_append_left _ h

theorem exists_pickle {ps : List Pickle} {r : Record} (hr : r ∈ records ps) :
    ∃ p ∈ ps, r.language = languageOf p.name := by
  obtain ⟨p, hp, hr⟩ := List.mem_flatMap.mp hr
  rcases hload : p.load with e | d
  · rw [recordsOf, hload] at hr
    cases hr
  · rw [recordsOf_of_load hload] at hr
    obtain ⟨x, -, rfl⟩ := List.mem_map.mp hr
    exact ⟨p, hp, rfl⟩

/-- So only the name `..` goes up. -/
theorem descends_languageOf {name : Str} (h : encode (languageOf name) ≠ some [0x2E, 0x2E]) :
    Descends (languageOf name) := by
  have hslash := slash_notMem_languageOf name
  refine ⟨relative_of_notMem hslash, fun c hc => ?_⟩
  rw [splitSlash_of_notMem hslash, List.mem_singleton] at hc
  rwa [hc]

section record

variable {cwd : Place} {outputDir : Str} {r : Record}

theorem resolve_fdirOf (hr : Relative r.repoPath) :
    resolve cwd (fdirOf outputDir r) = (resolve cwd (join outputDir r.language)).bind
      fun p => resolve p (rpartition slash r.repoPath).1 :=
  resolve_join (relative_rpartition_fst hr)

/-- **Where a relative path is saved.** -/
theorem resolve_flocOf (hr : Relative r.repoPath) :
    resolve cwd (flocOf outputDir r) = (resolve cwd (join outputDir r.language)).bind
      fun p => resolve p r.repoPath := by
  have hname : Relative (rpartition slash r.repoPath).2.2 :=
    relative_of_notMem (notMem_rpartition slash r.repoPath)
  rw [flocOf, resolve_join hname, resolve_fdirOf hr, Option.bind_assoc]
  simp only [resolve_rpartition hr]

end record

/-! ### Records that stay inside -/

/-- Neither the language nor the path goes up. -/
def Below (r : Record) : Prop := Descends r.language ∧ Descends r.repoPath

theorem resolve_languageDir {outputDir : Str} {t : Files} {root p : Place} {r : Record}
    (hroot : resolve t.cwd outputDir = some root) (hr : Below r)
    (hp : resolve t.cwd (join outputDir r.language) = some p) : root <+: p := by
  rw [resolve_join hr.1.relative, hroot] at hp
  exact hr.1.prefix_of_resolve hp

theorem below_of_fresh {ps : List Pickle}
    (hlanguages : ∀ p ∈ ps, encode (languageOf p.name) ≠ some [0x2E, 0x2E])
    (hpaths : ∀ r ∈ fresh (records ps), Descends r.repoPath) {r : Record}
    (hr : r ∈ fresh (records ps)) : Below r := by
  obtain ⟨p, hp, hlang⟩ := exists_pickle (mem_of_mem_firsts _ hr)
  refine ⟨?_, hpaths r hr⟩
  rw [hlang]
  exact descends_languageOf (hlanguages p hp)

end Exlic.Destination
