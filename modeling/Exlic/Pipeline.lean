import Exlic.History
import Exlic.CreateDir

/-! # What the collector read is what is compared

The collector stores every name, path and text as decoded bytes. `collected_survives`: such texts
go through `json` unchanged and are encoded to the bytes they came from, so a run skips a record
exactly if an earlier one has the same bytes. -/

namespace Exlic.Pipeline

open Exlic.Lib.Command Exlic.Lib.Command.Outcome Exlic.Lib.Dict Exlic.Lib.FileTree
open Exlic.Py.Strings Exlic.Py.Utf8 Exlic.Py.Json Exlic.Py.Paths
open Exlic.Cli Exlic.Records Exlic.Steps Exlic.History Exlic.CreateDir

/-- The form in which bytes are stored. -/
def Collected (s : Str) : Prop := ∃ b, s = decode b

/-- All names, paths and texts are decoded bytes. -/
def CollectedDict (kvs : List (Str × List (Str × Str))) : Prop :=
  ∀ kv ∈ kvs, Collected kv.1 ∧ ∀ r ∈ kv.2, Collected r.1 ∧ Collected r.2

theorem Collected.not_high {s : Str} (h : Collected s) : ∀ c ∈ s, ¬ High c := by
  obtain ⟨b, rfl⟩ := h
  exact fun c hc => not_high_of_mem_decode hc

theorem CollectedDict.noHigh {kvs : List (Str × List (Str × Str))} (h : CollectedDict kvs) :
    NoHigh kvs := by
  intro kv hkv
  obtain ⟨hname, hrecords⟩ := h kv hkv
  exact ⟨hname.not_high, fun r hr => ⟨(hrecords r hr).1.not_high, (hrecords r hr).2.not_high⟩⟩

theorem readBack_collected {d : LicensesByRepo} (h : CollectedDict d.items) :
    readBack d.items = d.items := readBack_eq_self d.nodup h.noHigh

/-- Every pickle that can be loaded holds decoded bytes. -/
def CollectedAll (ps : List Pickle) : Prop :=
  ∀ p ∈ ps, ∀ d, p.load = .ok d → CollectedDict d.items

section run

variable {ps : List Pickle} (hc : CollectedAll ps)
include hc

theorem records_eq_pickled : records ps = pickled ps := by
  unfold records pickled
  refine List.flatMap_congr fun p hp => ?_
  rcases hload : p.load with e | d
  · rw [recordsOf, pickledOf, hload]
  · rw [recordsOf_of_load hload, pickledOf_of_load hload, readBack_collected (hc p hp d hload)]

theorem collected_text {r : Record} (hr : r ∈ records ps) : Collected r.text := by
  rw [records_eq_pickled hc] at hr
  obtain ⟨p, hp, hr⟩ := List.mem_flatMap.mp hr
  rcases hload : p.load with e | d
  · rw [pickledOf, hload] at hr
    cases hr
  · rw [pickledOf_of_load hload] at hr
    obtain ⟨x, hx, rfl⟩ := List.mem_map.mp hr
    obtain ⟨kv, hkv, hx⟩ := List.mem_flatMap.mp hx
    exact ((hc p hp d hload kv hkv).2 x hx).2

omit hc in
/-- Two records have one checksum exactly if they come from the same bytes. -/
theorem checksum_eq_iff_bytes (hn : NoCollision (texts ps)) {r r' : Record} {b b' : Bytes}
    (hr : r ∈ records ps) (hr' : r' ∈ records ps) (hb : r.text = decode b)
    (hb' : r'.text = decode b') : checksum r = checksum r' ↔ b = b' := by
  rw [checksum_eq_iff hn hr hr', hb, hb', encode_decode, encode_decode, Option.some.injEq]

theorem checksum_mem_iff (hn : NoCollision (texts ps)) {before after : List Record} {r : Record}
    {b : Bytes} (hall : records ps = before ++ r :: after) (hb : r.text = decode b) :
    checksum r ∈ before.map checksum ↔ ∃ r' ∈ before, r'.text = decode b := by
  have hr : r ∈ records ps := by rw [hall]; simp
  have hbefore : ∀ r' ∈ before, r' ∈ records ps := fun r' hr' => by rw [hall]; simp [hr']
  rw [List.mem_map]
  constructor
  · rintro ⟨r', hr', he⟩
    obtain ⟨b', hb'⟩ := collected_text hc (hbefore r' hr')
    rw [checksum_eq_iff_bytes hn (hbefore r' hr') hr hb' hb] at he
    exact ⟨r', hr', by rw [hb', he]⟩
  · rintro ⟨r', hr', hb'⟩
    exact ⟨r', hr', (checksum_eq_iff_bytes hn (hbefore r' hr') hr hb' hb).mpr rfl⟩

end run

/-- What a run does with records that hold decoded bytes. -/
structure ByBytes (outputDir : Str) (ps : List Pickle) (t : Files) (o : Outcome Exn State) :
    Prop where
  /-- Nothing is dropped, merged or changed on the way through `json`. -/
  same_records : records ps = pickled ps
  /-- Encoding does not raise and gives the bytes. -/
  encodes : ∀ r ∈ records ps, ∃ b, r.text = decode b ∧ encode r.text = some b
  /-- The checksums are equal exactly if the bytes are. -/
  checksums : ∀ r₁ ∈ records ps, ∀ r₂ ∈ records ps, ∀ b₁ b₂, r₁.text = decode b₁ →
    r₂.text = decode b₂ → (checksum r₁ = checksum r₂ ↔ b₁ = b₂)
  /-- A record that was met is skipped exactly if one before it has the same bytes. -/
  met : ∀ before r after b d, records ps = before ++ r :: after → r.text = decode b →
    o.state.log[before.length]? = some d →
      d = if ∃ r' ∈ before, r'.text = decode b then .skipping r.language r.repoPath
        else .saving (flocOf outputDir r)
  /-- If the run finishes, every record was met, and one that is not skipped had its bytes
  written. -/
  finished : ∀ s, o = .ok s → s.log.length = (records ps).length ∧
    ∀ before r after b, records ps = before ++ r :: after → r.text = decode b →
      (¬ ∃ r' ∈ before, r'.text = decode b) →
        ∃ p, resolve t.cwd (flocOf outputDir r) = some p ∧ .written p b ∈ s.effects

/-- **What the collector read survives, and is what is compared.** -/
theorem collected_survives :
    (∀ b, encode (decode b) = some b) ∧
    (∀ d : LicensesByRepo, CollectedDict d.items →
      loads (dumps (toValue d.items)) = some (toValue d.items)) ∧
    ∀ env ps outputDir t, CollectedAll ps → NoCollision (texts ps) →
      ByBytes outputDir ps t (cli env ps outputDir t) := by
  refine ⟨encode_decode, fun d hd => ?_, fun env ps outputDir t hc hn => ?_⟩
  · rw [loads_dumps_toValue, readBack_collected hd]
  have hhist := cli_history env ps outputDir t
  have hlog : (cli env ps outputDir t).state.log <+: decisions outputDir [] (records ps) := by
    refine (hhist.imp (fun s hs => ?_) fun s hs => hs).state
    rw [hs.log]
  refine ⟨records_eq_pickled hc, fun r hr => ?_, ?_, ?_, ?_⟩
  · obtain ⟨b, hb⟩ := collected_text hc hr
    exact ⟨b, hb, by rw [hb, encode_decode]⟩
  · intro r₁ hr₁ r₂ hr₂ b₁ b₂ hb₁ hb₂
    exact checksum_eq_iff_bytes hn hr₁ hr₂ hb₁ hb₂
  · intro before r after b d hall hb hd
    obtain ⟨rest, hrest⟩ := hlog
    have hlt : before.length < (cli env ps outputDir t).state.log.length :=
      (List.getElem?_eq_some_iff.mp hd).1
    have hdec := getElem?_decisions outputDir before r after
    rw [← hall, ← hrest, List.getElem?_append_left hlt, hd, Option.some.injEq] at hdec
    rw [hdec, decision]
    simp only [checksum_mem_iff hc hn hall hb]
  · intro s hs
    have hrem := hhist.of_ok hs
    refine ⟨by rw [hrem.log, length_decisions], fun before r after b hall hb hnew => ?_⟩
    rw [← checksum_mem_iff hc hn hall hb] at hnew
    have hfresh : r ∈ fresh (records ps) := by rw [hall]; exact mem_fresh_of_notMem hnew
    obtain ⟨p, encoded, hp, henc, hw⟩ := (hrem.written r hfresh).written
    rw [hb, encode_decode, Option.some.injEq] at henc
    rw [henc]
    exact ⟨p, hp, hw⟩

/-- Two texts that come from one sequence of bytes, which is not UTF-8. -/
def twoCopies : Pickle where
  name := str ['p', 'y', '_', '0']
  load := .ok ⟨[(decode [0x72], [(decode [0x61], decode [0x41, 0xFF]),
    (decode [0x62], decode [0x41, 0xFF])])], by decide⟩

theorem collected_survives_twoCopies :
    ByBytes licenses [twoCopies] emptyLicenses
      (cli utf8Env [twoCopies] licenses emptyLicenses) := by
  refine collected_survives.2.2 utf8Env [twoCopies] licenses emptyLicenses ?_ (by decide +kernel)
  intro p hp d hd
  obtain rfl := List.mem_singleton.mp hp
  obtain rfl := Except.ok.inj hd
  intro kv hkv
  obtain rfl := List.mem_singleton.mp hkv
  refine ⟨⟨_, rfl⟩, fun r hr => ?_⟩
  rcases List.mem_cons.mp hr with rfl | hr
  · exact ⟨⟨_, rfl⟩, ⟨_, rfl⟩⟩
  · obtain rfl := List.mem_singleton.mp hr
    exact ⟨⟨_, rfl⟩, ⟨_, rfl⟩⟩

end Exlic.Pipeline
