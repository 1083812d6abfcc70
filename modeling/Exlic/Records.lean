import Exlic.Cli
import Exlic.Py.JsonTrip

/-! # The records a run meets

What comes back from `json` is again a dict of lists of pairs (`loads_dumps_toValue`): every string
with its surrogate pairs joined, and the repositories whose names became equal merged (`readBack`).
So reading never fails, and the loops of `cli` are one loop over `records`
(`extractPickle_of_load`). Nothing changes if there are no high surrogates
(`readBack_eq_self`). -/

namespace Exlic.Records

open Exlic.Lib.Command Exlic.Lib.Dict
open Exlic.Py.Strings Exlic.Py.Json Exlic.Py.JsonTrip Exlic.Py.Paths Exlic.Cli

/-- A record: the language of its pickle, its path and its text. -/
structure Record where
  language : Str
  repoPath : Str
  text : Str

def joinRecord (r : Str × Str) : Str × Str := (joinSurrogates r.1, joinSurrogates r.2)

/-- The entries of the dict with all surrogate pairs joined. -/
def joinEntries (kvs : List (Str × List (Str × Str))) : List (Str × List (Str × Str)) :=
  kvs.map fun kv => (joinSurrogates kv.1, kv.2.map joinRecord)

/-- The dict that comes back from `json`. -/
def readBack (kvs : List (Str × List (Str × Str))) : List (Str × List (Str × Str)) :=
  dictOf (joinEntries kvs)

/-- The records of a pickle as they were pickled. -/
def pickledOf (p : Pickle) : List Record :=
  match p.load with
  | .ok d => (items d.items).map fun r => ⟨languageOf p.name, r.1, r.2⟩
  | .error _ => []

/-- The records of all pickles as they were pickled. -/
def pickled (ps : List Pickle) : List Record := ps.flatMap pickledOf

/-- The records of a pickle as the loops meet them. -/
def recordsOf (p : Pickle) : List Record :=
  match p.load with
  | .ok d => (items (readBack d.items)).map fun r => ⟨languageOf p.name, r.1, r.2⟩
  | .error _ => []

/-- The records of all pickles as the loops meet them. -/
def records (ps : List Pickle) : List Record := ps.flatMap recordsOf

theorem records_append (ps qs : List Pickle) : records (ps ++ qs) = records ps ++ records qs := by
  simp [records]

theorem records_concat (ps : List Pickle) (p : Pickle) :
    records (ps ++ [p]) = records ps ++ recordsOf p := by
  simp [records]

/-! ### Through `json` and back -/

theorem tripElems_map {α : Type} (f : α → Value) : ∀ l : List α,
    tripElems (l.map f) = l.map fun a => trip (f a)
  | [] => rfl
  | a :: l => by rw [List.map_cons, tripElems, tripElems_map f l, List.map_cons]

theorem tripPairs_map {α : Type} (f : α → Str × Value) : ∀ l : List α,
    tripPairs (l.map f) = l.map fun a => (joinSurrogates (f a).1, trip (f a).2)
  | [] => rfl
  | a :: l => by rw [List.map_cons, tripPairs, tripPairs_map f l, List.map_cons]

theorem trip_records (rs : List (Str × Str)) :
    trip (.arr (rs.map fun r => .arr [.str r.1, .str r.2])) =
      .arr ((rs.map joinRecord).map fun r => .arr [.str r.1, .str r.2]) := by
  rw [trip, tripElems_map, List.map_map]
  rfl

/-- **What comes back from `json`.** -/
theorem loads_dumps_toValue (kvs : List (Str × List (Str × Str))) :
    loads (dumps (toValue kvs)) = some (toValue (readBack kvs)) := by
  rw [loads_dumps, toValue, trip, tripPairs_map]
  simp only [trip_records]
  have h := dictOf_map (fun rs : List (Str × Str) =>
    Value.arr (rs.map fun r => .arr [.str r.1, .str r.2])) (joinEntries kvs)
  rw [joinEntries, List.map_map] at h
  exact congrArg (fun d => some (Value.obj d)) h

theorem joinRecord_eq_self {r : Str × Str} (h1 : ∀ c ∈ r.1, ¬ High c) (h2 : ∀ c ∈ r.2, ¬ High c) :
    joinRecord r = r := by
  rw [joinRecord, joinSurrogates_eq_self h1, joinSurrogates_eq_self h2]

/-- No string of the dict has a high surrogate. -/
def NoHigh (kvs : List (Str × List (Str × Str))) : Prop :=
  ∀ kv ∈ kvs, (∀ c ∈ kv.1, ¬ High c) ∧
    ∀ r ∈ kv.2, (∀ c ∈ r.1, ¬ High c) ∧ ∀ c ∈ r.2, ¬ High c

theorem joinEntries_eq_self {kvs : List (Str × List (Str × Str))} (h : NoHigh kvs) :
    joinEntries kvs = kvs := by
  rw [joinEntries]
  conv_rhs => rw [← List.map_id kvs]
  refine List.map_congr_left fun kv hkv => ?_
  obtain ⟨hk, hr⟩ := h kv hkv
  have hrs : kv.2.map joinRecord = kv.2 := by
    conv_rhs => rw [← List.map_id kv.2]
    exact List.map_congr_left fun r hrm => joinRecord_eq_self (hr r hrm).1 (hr r hrm).2
  rw [joinSurrogates_eq_self hk, hrs]
  rfl

/-- **Without high surrogates the dict comes back as it was.** -/
theorem readBack_eq_self {kvs : List (Str × List (Str × Str))} (hn : (kvs.map Prod.fst).Nodup)
    (h : NoHigh kvs) : readBack kvs = kvs := by
  rw [readBack, joinEntries_eq_self h, dictOf_eq_self hn]

theorem recordsOf_of_load {p : Pickle} {d : LicensesByRepo} (h : p.load = .ok d) :
    recordsOf p = (items (readBack d.items)).map fun r => ⟨languageOf p.name, r.1, r.2⟩ := by
  rw [recordsOf, h]

theorem pickledOf_of_load {p : Pickle} {d : LicensesByRepo} (h : p.load = .ok d) :
    pickledOf p = (items d.items).map fun r => ⟨languageOf p.name, r.1, r.2⟩ := by
  rw [pickledOf, h]

/-! ### What `json` loses -/

theorem length_items_joinEntries (kvs : List (Str × List (Str × Str))) :
    (items (joinEntries kvs)).length = (items kvs).length := by
  unfold items joinEntries
  rw [List.flatMap_map, List.length_flatMap, List.length_flatMap]
  simp

/-- No repository is replaced by another one on the way through `json`. -/
def UnmergedAll (ps : List Pickle) : Prop :=
  ∀ p ∈ ps, ∀ d, p.load = .ok d → Unmerged (joinEntries d.items)

theorem length_recordsOf (p : Pickle) :
    (recordsOf p).length ≤ (pickledOf p).length ∧
      ((recordsOf p).length = (pickledOf p).length ↔
        ∀ d, p.load = .ok d → Unmerged (joinEntries d.items)) := by
  rcases hload : p.load with e | d
  · rw [recordsOf, pickledOf, hload]
    simp
  · rw [recordsOf_of_load hload, pickledOf_of_load hload, List.length_map, List.length_map,
      ← length_items_joinEntries d.items, readBack]
    obtain ⟨hle, heq⟩ := length_items_dictOf (joinEntries d.items)
    refine ⟨hle, heq.trans ⟨fun h d' hd' => ?_, fun h => h d rfl⟩⟩
    obtain rfl := Except.ok.inj hd'
    exact h

/-- **Records are lost exactly by merging.** -/
theorem length_records : ∀ ps : List Pickle,
    (records ps).length ≤ (pickled ps).length ∧
      ((records ps).length = (pickled ps).length ↔ UnmergedAll ps)
  | [] => ⟨Nat.le_refl _, by simp [records, pickled, UnmergedAll]⟩
  | p :: ps => by
    obtain ⟨hle, heq⟩ := length_recordsOf p
    obtain ⟨hles, heqs⟩ := length_records ps
    have hr : (records (p :: ps)).length = (recordsOf p).length + (records ps).length := by
      rw [records, List.flatMap_cons, List.length_append]; rfl
    have hp : (pickled (p :: ps)).length = (pickledOf p).length + (pickled ps).length := by
      rw [pickled, List.flatMap_cons, List.length_append]; rfl
    have hall : UnmergedAll (p :: ps) ↔
        (∀ d, p.load = .ok d → Unmerged (joinEntries d.items)) ∧ UnmergedAll ps := by
      unfold UnmergedAll
      rw [List.forall_mem_cons]
    rw [hr, hp, hall, ← heq, ← heqs]
    refine ⟨by omega, by omega⟩

/-- A record whose text can be encoded is met with this text, unless repositories are merged. -/
theorem exists_mem_records {ps : List Pickle} (hm : UnmergedAll ps) {r : Record}
    (hr : r ∈ pickled ps) (htext : ∀ c ∈ r.text, ¬ High c) :
    ∃ r' ∈ records ps, r'.text = r.text := by
  obtain ⟨p, hp, hr⟩ := List.mem_flatMap.mp hr
  rcases hload : p.load with e | d
  · rw [pickledOf, hload] at hr
    cases hr
  rw [pickledOf_of_load hload] at hr
  obtain ⟨x, hx, rfl⟩ := List.mem_map.mp hr
  have hx' : joinRecord x ∈ items (readBack d.items) := by
    rw [readBack, mem_items_dictOf (hm p hp d hload)]
    obtain ⟨kv, hkv, hx⟩ := List.mem_flatMap.mp hx
    exact List.mem_flatMap.mpr ⟨_, List.mem_map_of_mem hkv, List.mem_map_of_mem hx⟩
  refine ⟨⟨languageOf p.name, (joinRecord x).1, (joinRecord x).2⟩, ?_, ?_⟩
  · refine List.mem_flatMap.mpr ⟨p, hp, ?_⟩
    rw [recordsOf_of_load hload]
    exact List.mem_map.mpr ⟨_, hx', rfl⟩
  · exact joinSurrogates_eq_self htext

/-! ### One loop -/

/-- One record, with the directory of its language. -/
def saveRecord (env : Env) (outputDir : Str) (r : Record) (s : State) : Outcome Exn State :=
  saveOrSkip env r.language (join outputDir r.language) (r.repoPath, r.text) s

theorem extractRepo_records (env : Env) (language languageDir : Str) (rs : List (Str × Str)) :
    extractRepo env language languageDir (.arr (rs.map fun r => .arr [.str r.1, .str r.2])) =
      each (saveOrSkip env language languageDir) rs := by
  funext s
  rw [extractRepo, each_map]
  rfl

/-- The counts of a pickle start at zero. -/
def startPickle (s : State) : State := { s with licSaved := 0, licSkipped := 0 }

/-- The report of a pickle, and its counts added to the totals. -/
def finishPickle (env : Env) (language : Str) (s : State) : Outcome Exn State :=
  (printFor env language s).andThen fun s =>
    .ok { s with
      totLicSaved := s.totLicSaved + s.licSaved
      totLicSkipped := s.totLicSkipped + s.licSkipped }

/-- **The loops of a pickle are one loop** over its records. -/
theorem extractPickle_of_load {env : Env} {outputDir : Str} {p : Pickle} {d : LicensesByRepo}
    (h : p.load = .ok d) (s : State) :
    extractPickle env outputDir p s =
      (each (saveRecord env outputDir) (recordsOf p) (startPickle s)).andThen
        (finishPickle env (languageOf p.name)) := by
  rw [recordsOf_of_load h, each_map, items, each_flatMap, extractPickle, h]
  simp only [loads_dumps_toValue]
  simp only [toValue, List.map_map]
  rw [each_map]
  simp only [Function.comp, extractRepo_records]
  rfl

end Exlic.Records
