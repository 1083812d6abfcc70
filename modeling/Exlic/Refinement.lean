import Exlic.History
import Exlic.Lib.DedupStore

/-! # A run is a store that keeps each content once

Without collisions of the checksums, a run that finishes follows the store of
`Exlic.Lib.DedupStore` (`cli_refines`): the items are the records, each with the place its path
denotes and its encoded text; the files of the store are those the run put over the first tree, and
the totals are its counts. The places of the store are those of the fresh records (`news_items`). -/

namespace Exlic.Refinement

open Exlic.Lib.Command Exlic.Lib.Command.Outcome Exlic.Lib.DedupStore
open Exlic.Lib.DedupStore.Store (add_of_mem add_of_notMem empty skip save)
open Exlic.Lib.FileTree Exlic.Lib.Firsts
open Exlic.Py.Strings Exlic.Py.Utf8 Exlic.Py.Paths
open Exlic.Cli Exlic.Records Exlic.Steps Exlic.History
open Exlic.Py.Sha1 (hexdigest)

/-- A record as an item of the store. A record that is saved has a place and can be encoded. -/
def item (outputDir : Str) (cwd : Place) (r : Record) : Place × Bytes :=
  ((resolve cwd (flocOf outputDir r)).getD [], (encode r.text).getD [])

/-- The records of a run as items. -/
def itemsOf (outputDir : Str) (cwd : Place) (ps : List Pickle) : List (Place × Bytes) :=
  (records ps).map (item outputDir cwd)

/-- The state follows the store `m`; `bs` are the contents that occur, `saved` and `skipped` the
records counted so far. -/
structure Refines (t : Files) (bs : List Bytes) (saved skipped : ℕ) (s : State)
    (m : Store Place Bytes) : Prop where
  cwd : s.tree.cwd = t.cwd
  seen : ∀ b ∈ bs, hexdigest b ∈ s.seen ↔ b ∈ m.known
  file : ∀ p, s.tree.file? p = (m.files.lookup p).or (t.file? p)
  saved_eq : saved = m.saved
  skipped_eq : skipped = m.skipped

variable {env : Env} {outputDir : Str} {t : Files} {bs : List Bytes} {r : Record} {s s' : State}
  {m : Store Place Bytes}

/-- Only the tree and the checksums of the state count. -/
theorem Refines.congr {saved skipped : ℕ} (h : Refines t bs saved skipped s m)
    (htree : s'.tree = s.tree) (hseen : s'.seen = s.seen) :
    Refines t bs saved skipped s' m := by
  refine ⟨?_, fun b hb => ?_, fun p => ?_, h.saved_eq, h.skipped_eq⟩
  · rw [htree, h.cwd]
  · rw [hseen, h.seen b hb]
  · rw [htree, h.file]

/-- **One record is one item.** -/
theorem Refines.step (hn : NoCollision bs) (hr : ∀ b, encode r.text = some b → b ∈ bs)
    (h : Refines t bs (s.totLicSaved + s.licSaved) (s.totLicSkipped + s.licSkipped) s m)
    (hs : saveRecord env outputDir r s = .ok s') :
    Refines t bs (s'.totLicSaved + s'.licSaved) (s'.totLicSkipped + s'.licSkipped) s'
      (m.add (item outputDir t.cwd r)) := by
  obtain ⟨encoded, henc, ⟨hseen, rfl⟩ | ⟨hseen, made, p, hc, hl, rfl⟩⟩ := saveRecord_eq_ok.mp hs
  · have hitem : (item outputDir t.cwd r).2 = encoded := by rw [item, henc]; rfl
    have hm : (item outputDir t.cwd r).2 ∈ m.known := by
      rw [hitem]
      exact (h.seen encoded (hr encoded henc)).mp hseen
    rw [add_of_mem hm]
    refine ⟨h.cwd, h.seen, h.file, h.saved_eq, ?_⟩
    have := h.skipped_eq
    simp only [skipped, skip]
    omega
  · have hplace : resolve t.cwd (flocOf outputDir r) = some p := by
      have := resolve_of_locate hl
      rwa [Tree.cwd_mkdirs, h.cwd] at this
    have hitem : item outputDir t.cwd r = (p, encoded) := by rw [item, henc, hplace]; rfl
    have hm : (item outputDir t.cwd r).2 ∉ m.known := by
      rw [hitem]
      exact fun hk => hseen ((h.seen encoded (hr encoded henc)).mpr hk)
    rw [add_of_notMem hm]
    refine ⟨?_, fun b hb => ?_, fun q => ?_, ?_, h.skipped_eq⟩
    · simp [saved, h.cwd]
    · -- equal checksums are equal texts
      have hinj : hexdigest b = hexdigest encoded ↔ b = encoded :=
        ⟨hn b hb encoded (hr encoded henc), fun he => by rw [he]⟩
      simp only [saved, save, hitem, Finset.mem_insert, h.seen b hb, hinj]
    · rw [file?_saved hl, h.file]
      simp only [save, hitem]
      split_ifs with hq
      · rw [hq, Finmap.lookup_insert]; rfl
      · rw [Finmap.lookup_insert_of_ne _ hq]
    · have := h.saved_eq
      simp only [saved, save]
      omega

theorem Refines.init (t : Files) (bs : List Bytes) : Refines t bs 0 0 (State.init t) empty :=
  ⟨rfl, by simp [State.init, empty], by simp [State.init, empty], rfl, rfl⟩

/-- **A run follows the store**, and reports its counts. -/
theorem cli_refines {ps : List Pickle} (hn : NoCollision (texts ps))
    (hrun : cli env ps outputDir t = .ok s) :
    Refines t (texts ps) s.totLicSaved s.totLicSkipped s (run (itemsOf outputDir t.cwd ps)) ∧
      s.out.getLast? = some (.total s.totLicSaved s.totLicSkipped) := by
  -- the items still to come lead from the store `m` to the last one
  let Follows := fun (saved skipped : ℕ) (rs : List Record) (s : State) =>
    (∀ r ∈ rs, ∀ b, encode r.text = some b → b ∈ texts ps) ∧
      ∃ m, Refines t (texts ps) saved skipped s m ∧
        m.addAll (rs.map (item outputDir t.cwd)) = run (itemsOf outputDir t.cwd ps)
  have hrecord : ∀ r rs s,
      Follows (s.totLicSaved + s.licSaved) (s.totLicSkipped + s.licSkipped) (r :: rs) s →
        (saveRecord env outputDir r s).Ends (fun s' =>
          Follows (s'.totLicSaved + s'.licSaved) (s'.totLicSkipped + s'.licSkipped) rs s')
          fun _ => True := by
    rintro r rs s ⟨hbs, m, hm, hadd⟩
    refine ends_iff.mpr ⟨fun s' hs => ?_, fun _ _ _ => trivial⟩
    refine ⟨fun r' hr' => hbs r' (by simp [hr']), _, hm.step hn (hbs r (by simp)) hs, ?_⟩
    rw [← hadd]
    rfl
  have h : (cli env ps outputDir t).Ends _ _ := cli_ends
    (I := fun rs s => Follows (s.totLicSaved + s.licSaved) (s.totLicSkipped + s.licSkipped) rs s)
    (O := fun rs s => Follows s.totLicSaved s.totLicSkipped rs s) (J := fun _ => True) hrecord
    (fun rs s ⟨hbs, m, hm, hadd⟩ =>
      ⟨hbs, m, hm.congr rfl rfl, hadd⟩)
    (fun language rs s ⟨hbs, m, hm, hadd⟩ =>
      ⟨hbs, m, hm.congr rfl rfl, hadd⟩)
    (fun _ _ _ => trivial) (fun _ _ _ => trivial)
    ⟨fun r hr b hb => List.mem_filterMap.mpr ⟨r, hr, hb⟩, empty, Refines.init t _, rfl⟩
  obtain ⟨s₁, ⟨-, m, hm, hadd⟩, rfl⟩ := h.of_ok hrun
  have hlast : m = run (itemsOf outputDir t.cwd ps) := hadd
  rw [← hlast]
  exact ⟨hm.congr rfl rfl, by simp [State.print]⟩

/-! ### The places of the store -/

section news

variable {ps : List Pickle} (hn : NoCollision (texts ps)) (hrun : cli env ps outputDir t = .ok s)
include hn hrun

/-- **The first occurrences of contents** are the fresh records. -/
theorem news_items :
    news (itemsOf outputDir t.cwd ps) = (fresh (records ps)).map (item outputDir t.cwd) := by
  have hrem := (cli_history env ps outputDir t).of_ok hrun
  rw [news, itemsOf, firsts_map, fresh]
  congr 1
  refine firsts_congr _ (by simp) fun r hr r' hr' => ?_
  obtain ⟨b, hb⟩ := hrem.encodes r hr
  obtain ⟨b', hb'⟩ := hrem.encodes r' hr'
  rw [checksum_eq_iff hn hr hr', item, item, hb, hb']
  simp

omit hn in
/-- A fresh record has a place. -/
theorem resolve_fresh {r : Record} (hr : r ∈ fresh (records ps)) :
    resolve t.cwd (flocOf outputDir r) = some (item outputDir t.cwd r).1 := by
  obtain ⟨p, b, hp, -⟩ := (((cli_history env ps outputDir t).of_ok hrun).written r hr).written
  rw [item, hp]
  rfl

/-- The first occurrences have distinct places exactly if the fresh records have. -/
theorem nodup_places_iff :
    ((news (itemsOf outputDir t.cwd ps)).map Prod.fst).Nodup ↔
      ((fresh (records ps)).map fun r => resolve t.cwd (flocOf outputDir r)).Nodup := by
  have hsome : ((fresh (records ps)).map fun r => resolve t.cwd (flocOf outputDir r)) =
      ((fresh (records ps)).map fun r => (item outputDir t.cwd r).1).map some := by
    rw [List.map_map]
    exact List.map_congr_left fun r hr => resolve_fresh hrun hr
  rw [hsome, List.nodup_map_iff (Option.some_injective _), news_items hn hrun, List.map_map]
  rfl

end news

/-! ### The files of a region -/

section region

variable {ps : List Pickle} (hn : NoCollision (texts ps)) (hrun : cli env ps outputDir t = .ok s)
  {root : Place} (hempty : ∀ p, root <+: p → ¬ t.IsFile p)
include hn hrun hempty

theorem file?_region {p : Place} (hp : root <+: p) :
    s.tree.file? p = (run (itemsOf outputDir t.cwd ps)).files.lookup p := by
  have hnone : t.file? p = none := Option.not_isSome_iff_eq_none.mp (hempty p hp)
  rw [(cli_refines hn hrun).1.file, hnone, Option.or_none]

/-- **The files below `root`** are the places of the store below `root`. -/
theorem filesUnder_eq :
    s.tree.filesUnder root =
      (run (itemsOf outputDir t.cwd ps)).files.keys.filter fun p => root <+: p := by
  ext p
  rw [Tree.mem_filesUnder, Finset.mem_filter, Finmap.mem_keys, and_comm (b := root <+: p)]
  refine and_congr_right fun hp => ?_
  rw [Tree.IsFile, file?_region hn hrun hempty hp, Finmap.lookup_isSome]

end region

end Exlic.Refinement
