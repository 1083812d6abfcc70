import Exlic.Completion
import Exlic.Py.JsonCanonical

/-! # What `json` does to a run

Every dict goes through `json` before its records are met. It comes back as it was pickled exactly
if no high surrogate in it has a low one right after it (`json_exact_iff`); then a run is the one of
the program without these two lines (`cli_eq_withoutJson`). In any case a run over the dicts that
came back is the same run (`cli_throughJson`).

`finishes_iff_settled` says which texts the pickles of a run that finishes may hold. -/

namespace Exlic.ReadBack

open Exlic.Lib.Command Exlic.Lib.Command.Outcome Exlic.Lib.Dict
open Exlic.Py.Strings Exlic.Py.Utf8 Exlic.Py.Paths Exlic.Py.Json Exlic.Py.JsonTrip
open Exlic.Py.JsonCanonical
open Exlic.Cli Exlic.Records Exlic.Steps Exlic.History Exlic.CreateDir Exlic.Completion

/-- No string of the dict has a surrogate pair. -/
def UnpairedAll (kvs : List (Str × List (Str × Str))) : Prop :=
  ∀ kv ∈ kvs, Unpaired kv.1 ∧ ∀ r ∈ kv.2, Unpaired r.1 ∧ Unpaired r.2

instance (kvs : List (Str × List (Str × Str))) : Decidable (UnpairedAll kvs) := by
  unfold UnpairedAll; infer_instance

variable {env : Env} {outputDir : Str} {t : Files} {ps : List Pickle}
  {kvs : List (Str × List (Str × Str))}

/-! ### The dict that comes back -/

theorem canonical_toValue :
    Canonical (toValue kvs) ↔ (kvs.map Prod.fst).Nodup ∧ UnpairedAll kvs := by
  have hrecords : ∀ rs : List (Str × Str),
      Canonical (.arr (rs.map fun r => .arr [.str r.1, .str r.2])) ↔
        ∀ r ∈ rs, Unpaired r.1 ∧ Unpaired r.2 := by
    intro rs
    rw [Canonical, canonicalElems_iff, List.forall_mem_map]
    simp [Canonical, CanonicalElems]
  rw [toValue, Canonical, canonicalPairs_iff, List.forall_mem_map, List.map_map]
  simp only [hrecords]
  exact Iff.rfl

/-- **When a dict comes back as it was pickled.** -/
theorem json_exact_iff (d : LicensesByRepo) :
    loads (dumps (toValue d.items)) = some (toValue d.items) ↔ UnpairedAll d.items := by
  rw [loads_dumps_eq_self_iff, canonical_toValue, and_iff_right d.nodup]

/-! ### Runs over dicts that came back -/

/-- The pickle of the dict that comes back. -/
def throughJson (p : Pickle) : Pickle where
  name := p.name
  load := p.load.map fun d => ⟨readBack d.items, nodup_dictOf _⟩

theorem extractPickle_throughJson (p : Pickle) :
    extractPickle env outputDir (throughJson p) = extractPickle env outputDir p := by
  funext s
  rcases hload : p.load with e | d
  · have h : (throughJson p).load = .error e := by rw [throughJson, hload]; rfl
    rw [extractPickle_of_error h, extractPickle_of_error hload]
  · have h : (throughJson p).load = .ok ⟨readBack d.items, nodup_dictOf _⟩ := by
      rw [throughJson, hload]
      rfl
    have hjson := loads_dumps_toValue d.items
    have hagain := loads_dumps_again hjson
    rw [extractPickle, extractPickle, h, hload]
    simp only [hjson, hagain]
    rfl

/-- **A run over the dicts that came back** is the same run. -/
theorem cli_throughJson (env : Env) (ps : List Pickle) (outputDir : Str) (t : Files) :
    cli env (ps.map throughJson) outputDir t = cli env ps outputDir t := by
  rw [cli, cli, each_map]
  simp only [extractPickle_throughJson]

/-! ### Runs without `json` -/

/-- One pickle, if its dict did not go through `json`. -/
def extractWithoutJson (env : Env) (outputDir : Str) (p : Pickle) (s : State) :
    Outcome Exn State :=
  match p.load with
  | .error e => .raised e s
  | .ok d =>
    (each (each (saveOrSkip env (languageOf p.name) (join outputDir (languageOf p.name))))
      (d.items.map Prod.snd) (startPickle s)).andThen (finishPickle env (languageOf p.name))

/-- The program without the two lines. -/
def cliWithoutJson (env : Env) (ps : List Pickle) (outputDir : Str) (t : Files) :
    Outcome Exn State :=
  (each (extractWithoutJson env outputDir) ps (State.init t)).andThen fun s =>
    .ok (s.print (.total s.totLicSaved s.totLicSkipped))

theorem extractPickle_eq_withoutJson {p : Pickle}
    (hunpaired : ∀ d, p.load = .ok d → UnpairedAll d.items) (s : State) :
    extractPickle env outputDir p s = extractWithoutJson env outputDir p s := by
  rcases hload : p.load with e | d
  · rw [extractPickle_of_error hload, extractWithoutJson, hload]
  · have hcanonical := canonical_toValue.mpr ⟨d.nodup, hunpaired d hload⟩
    have hjson := loads_dumps_eq_self_iff.mpr hcanonical
    rw [extractPickle, extractWithoutJson, hload]
    simp only [hjson]
    simp only [toValue, List.map_map]
    rw [each_map, each_map]
    simp only [Function.comp, extractRepo_records]
    rfl

/-- **A run over dicts without surrogate pairs** is one of the program without `json`. -/
theorem cli_eq_withoutJson (env : Env) (outputDir : Str) (t : Files)
    (hunpaired : ∀ p ∈ ps, ∀ d, p.load = .ok d → UnpairedAll d.items) :
    cli env ps outputDir t = cliWithoutJson env ps outputDir t := by
  have hloop : each (extractPickle env outputDir) ps (State.init t) =
      each (extractWithoutJson env outputDir) ps (State.init t) := by
    refine each_agree (I := fun rest _ => rest ⊆ ps) (fun p rest s hsub => ?_) ps _
      (List.Subset.refl ps)
    obtain ⟨hp, hrest⟩ := List.cons_subset.mp hsub
    exact ⟨extractPickle_eq_withoutJson (hunpaired p hp) s, ends_iff.mpr
      ⟨fun _ _ => hrest, fun _ _ _ => trivial⟩⟩
  rw [cli, hloop, cliWithoutJson]

theorem cli_eq_withoutJson_fileInWay : cli utf8Env [fileInWay] licenses emptyLicenses =
    cliWithoutJson utf8Env [fileInWay] licenses emptyLicenses := by
  refine cli_eq_withoutJson utf8Env licenses emptyLicenses fun p hp d hd => ?_
  obtain rfl := List.mem_singleton.mp hp
  obtain rfl := Except.ok.inj hd
  decide +kernel

/-! ### The texts that can be saved -/

theorem exists_pickled_of_mem {r : Record} (hr : r ∈ records ps) :
    ∃ r' ∈ pickled ps, r.text = joinSurrogates r'.text := by
  obtain ⟨p, hp, hr⟩ := List.mem_flatMap.mp hr
  rcases hload : p.load with e | d
  · rw [recordsOf, hload] at hr
    cases hr
  rw [recordsOf_of_load hload] at hr
  obtain ⟨x, hx, rfl⟩ := List.mem_map.mp hr
  obtain ⟨kv, hkv, hx⟩ := List.mem_flatMap.mp hx
  obtain ⟨kv', hkv', rfl⟩ := List.mem_map.mp (mem_of_mem_dictOf hkv)
  obtain ⟨y, hy, rfl⟩ := List.mem_map.mp hx
  refine ⟨⟨languageOf p.name, y.1, y.2⟩, List.mem_flatMap.mpr ⟨p, hp, ?_⟩, rfl⟩
  rw [pickledOf_of_load hload]
  exact List.mem_map.mpr ⟨y, List.mem_flatMap.mpr ⟨kv', hkv', hy⟩, rfl⟩

theorem exists_record_of_pickled (hm : UnmergedAll ps) {r : Record} (hr : r ∈ pickled ps) :
    ∃ r' ∈ records ps, r'.text = joinSurrogates r.text := by
  obtain ⟨p, hp, hr⟩ := List.mem_flatMap.mp hr
  rcases hload : p.load with e | d
  · rw [pickledOf, hload] at hr
    cases hr
  rw [pickledOf_of_load hload] at hr
  obtain ⟨x, hx, rfl⟩ := List.mem_map.mp hr
  obtain ⟨kv, hkv, hx⟩ := List.mem_flatMap.mp hx
  have hx' : joinRecord x ∈ items (readBack d.items) := by
    rw [readBack, mem_items_dictOf (hm p hp d hload)]
    exact List.mem_flatMap.mpr ⟨_, List.mem_map_of_mem hkv, List.mem_map_of_mem hx⟩
  refine ⟨⟨languageOf p.name, (joinRecord x).1, (joinRecord x).2⟩,
    List.mem_flatMap.mpr ⟨p, hp, ?_⟩, rfl⟩
  rw [recordsOf_of_load hload]
  exact List.mem_map.mpr ⟨_, hx', rfl⟩

/-- **Which texts can be encoded**, as they were pickled. -/
theorem encodes_iff_settled (hm : UnmergedAll ps) :
    (∀ r ∈ records ps, ∃ encoded, encode r.text = some encoded) ↔
      ∀ r ∈ pickled ps, AllSettled none r.text := by
  constructor
  · intro h r hr
    obtain ⟨r', hr', htext⟩ := exists_record_of_pickled hm hr
    rw [← isSome_encode_joinSurrogates, ← htext, Option.isSome_iff_exists]
    exact h r' hr'
  · intro h r hr
    obtain ⟨r', hr', htext⟩ := exists_pickled_of_mem hr
    rw [htext, ← Option.isSome_iff_exists, isSome_encode_joinSurrogates]
    exact h r' hr'

/-- **When a run finishes**, by the texts as they were pickled: in each of them, every high
surrogate has to be followed by a low one, and every low one that does not stand for a byte has to
follow a high one. -/
theorem finishes_iff_settled (hC : CreateDirSpec env) (hm : UnmergedAll ps) :
    (∃ s, cli env ps outputDir t = .ok s) ↔
      (∀ p ∈ ps, (∃ d, p.load = .ok d) ∧ env.stdout (languageOf p.name)) ∧
      (∀ r ∈ pickled ps, AllSettled none r.text) ∧
      Accepted env outputDir (fresh (records ps)) ∧ Free outputDir t (fresh (records ps)) := by
  rw [← encodes_iff_settled hm]
  constructor
  · rintro ⟨s, hrun⟩
    have h := completes_of_cli hC hrun
    exact ⟨fun p hp => ⟨h.loads p hp, h.prints p hp⟩, h.encodes, h.accepted, h.free⟩
  · rintro ⟨hpickles, hencodes, haccepted, hfree⟩
    exact cli_of_completes hC ⟨fun p hp => (hpickles p hp).1, fun p hp => (hpickles p hp).2,
      hencodes, haccepted, hfree⟩

theorem finishes_iff_settled_fileInWay :
    (∃ s, cli utf8Env [fileInWay] licenses emptyLicenses = .ok s) ↔
      (∀ p ∈ [fileInWay], (∃ d, p.load = .ok d) ∧ utf8Env.stdout (languageOf p.name)) ∧
      (∀ r ∈ pickled [fileInWay], AllSettled none r.text) ∧
      Accepted utf8Env licenses (fresh (records [fileInWay])) ∧
      Free licenses emptyLicenses (fresh (records [fileInWay])) := by
  have hC : CreateDirSpec utf8Env := makeMissing_spec
  refine finishes_iff_settled hC fun p hp d hd => ?_
  obtain rfl := List.mem_singleton.mp hp
  obtain rfl := Except.ok.inj hd
  decide +kernel

end Exlic.ReadBack
