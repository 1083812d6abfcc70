import Exlic.Corpus
import Exlic.Lib.Shuffle

/-! # The order of the inputs

`Reordered`: the same pickles with the arguments, the entries of each dict and the records of each
repository in another order. Such runs meet the same records (`records_perm`) unless two names of a
dict become equal on the way through `json`, where the last one of them wins. `same_corpus`: if no
place is given two texts, two such runs leave the same contents and report the same totals. -/

namespace Exlic.Order

open Exlic.Lib.Command.Outcome Exlic.Lib.Dict Exlic.Lib.DedupStore Exlic.Lib.FileTree
open Exlic.Lib.Firsts Exlic.Lib.Shuffle
open Exlic.Py.Strings Exlic.Py.Utf8 Exlic.Py.JsonTrip Exlic.Py.Paths
open Exlic.Cli Exlic.Records Exlic.Steps Exlic.History Exlic.Refinement Exlic.Corpus
open Exlic.CreateDir

/-- The same repository, its records in another order. -/
def SameRepo (kv kv' : Str × List (Str × Str)) : Prop := kv.1 = kv'.1 ∧ kv.2.Perm kv'.2

/-- The same pickle, its entries and their records in another order. -/
inductive SamePickle : Pickle → Pickle → Prop
  | loaded (name : Str) (d d' : LicensesByRepo) (h : Shuffled SameRepo d.items d'.items) :
      SamePickle ⟨name, .ok d⟩ ⟨name, .ok d'⟩
  | failed (p : Pickle) (e : Exn) (h : p.load = .error e) : SamePickle p p

/-- The same pickles in another order. -/
def Reordered (ps ps' : List Pickle) : Prop := Shuffled SamePickle ps ps'

/-- The names of every dict stay distinct when their surrogate pairs are joined. -/
def DistinctNames (ps : List Pickle) : Prop :=
  ∀ p ∈ ps, ∀ d, p.load = .ok d → (d.items.map fun kv => joinSurrogates kv.1).Nodup

theorem readBack_of_distinct {kvs : List (Str × List (Str × Str))}
    (h : (kvs.map fun kv => joinSurrogates kv.1).Nodup) : readBack kvs = joinEntries kvs := by
  refine dictOf_eq_self ?_
  rw [joinEntries, List.map_map]
  exact h

theorem recordsOf_perm {p p' : Pickle} (h : SamePickle p p')
    (hd : ∀ d, p.load = .ok d → (d.items.map fun kv => joinSurrogates kv.1).Nodup) :
    (recordsOf p).Perm (recordsOf p') := by
  cases h with
  | loaded name d d' h =>
    have hnames : (d.items.map fun kv => joinSurrogates kv.1).Perm
        (d'.items.map fun kv => joinSurrogates kv.1) :=
      h.map fun kv _ kv' hkv => by rw [hkv.1]
    have hnodup := hd d rfl
    rw [recordsOf_of_load (d := d) rfl, recordsOf_of_load (d := d') rfl,
      readBack_of_distinct hnodup, readBack_of_distinct (hnames.nodup_iff.mp hnodup)]
    refine List.Perm.map _ ?_
    unfold items joinEntries
    rw [List.flatMap_map, List.flatMap_map]
    exact h.flatMap fun kv _ kv' hkv => hkv.2.map joinRecord
  | failed e h => exact List.Perm.refl _

/-- **Runs over reordered inputs meet the same records.** -/
theorem records_perm {ps ps' : List Pickle} (h : Reordered ps ps') (hd : DistinctNames ps) :
    (records ps).Perm (records ps') :=
  h.flatMap fun p hp _ hpp' => recordsOf_perm hpp' (hd p hp)

/-- No two records with different texts have the same place. -/
def Apart (outputDir : Str) (cwd : Place) (rs : List Record) : Prop :=
  ∀ r ∈ rs, ∀ r' ∈ rs, ∀ p, resolve cwd (flocOf outputDir r) = some p →
    resolve cwd (flocOf outputDir r') = some p → encode r.text = encode r'.text

/-- Every place of a record is below `root`. -/
def Inside (outputDir : Str) (cwd root : Place) (rs : List Record) : Prop :=
  ∀ r ∈ rs, ∀ p, resolve cwd (flocOf outputDir r) = some p → root <+: p

instance (outputDir : Str) (cwd : Place) (rs : List Record) : Decidable (Apart outputDir cwd rs) :=
  decidable_of_iff (∀ r ∈ rs, ∀ r' ∈ rs, ∀ p ∈ resolve cwd (flocOf outputDir r),
    resolve cwd (flocOf outputDir r') = some p → encode r.text = encode r'.text) Iff.rfl

instance (outputDir : Str) (cwd root : Place) (rs : List Record) :
    Decidable (Inside outputDir cwd root rs) :=
  decidable_of_iff (∀ r ∈ rs, ∀ p ∈ resolve cwd (flocOf outputDir r), root <+: p) Iff.rfl

section run

variable {env : Env} {ps : List Pickle} {outputDir : Str} {t : Files} {s : State} {root : Place}
  (hn : NoCollision (texts ps)) (hrun : cli env ps outputDir t = .ok s)
  (hapart : Apart outputDir t.cwd (records ps))

include hrun hapart in
/-- Fresh records have different texts, so different places. -/
theorem nodup_of_apart :
    ((fresh (records ps)).map fun r => resolve t.cwd (flocOf outputDir r)).Nodup := by
  refine List.Nodup.map_on ?_ (nodup_firsts checksum (records ps) ∅).of_map
  intro r hr r' hr' he
  have hp := resolve_fresh hrun hr
  have htext := hapart r (mem_of_mem_firsts _ hr) r' (mem_of_mem_firsts _ hr') _ hp (he ▸ hp)
  exact eq_of_mem_firsts checksum hr hr' (by rw [checksum, checksum, htext])

variable (hinside : Inside outputDir t.cwd root (records ps))

include hrun hinside in
theorem inside_of_fresh {r : Record} (hr : r ∈ fresh (records ps)) :
    ∃ p, resolve t.cwd (flocOf outputDir r) = some p ∧ root <+: p := by
  have hp := resolve_fresh hrun hr
  exact ⟨_, hp, hinside r (mem_of_mem_firsts _ hr) _ hp⟩

variable (hempty : ∀ p, root <+: p → ¬ t.IsFile p)
include hn hrun hapart hinside hempty

theorem card_of_apart : (s.tree.filesUnder root).card = s.totLicSaved :=
  (card_iff hn hrun hempty).mpr ⟨nodup_of_apart hrun hapart,
    fun _ hr => inside_of_fresh hrun hinside hr⟩

/-- **The contents a run leaves** are the texts of its records. -/
theorem contents_of_apart (c : Bytes) :
    (∃ p ∈ s.tree.filesUnder root, s.tree.file? p = some c) ↔
      ∃ r ∈ records ps, encode r.text = some c := by
  have hnodup := (nodup_places_iff hn hrun).mpr (nodup_of_apart hrun hapart)
  have hrem := (cli_history env ps outputDir t).of_ok hrun
  constructor
  · rintro ⟨p, hp, hc⟩
    rw [Tree.mem_filesUnder] at hp
    rw [file?_region hn hrun hempty hp.1] at hc
    obtain ⟨i, hi, rfl⟩ := List.mem_map.mp ((exists_lookup_iff hnodup c).mp ⟨p, hc⟩)
    obtain ⟨r, hr, rfl⟩ := List.mem_map.mp hi
    obtain ⟨encoded, henc⟩ := hrem.encodes r hr
    exact ⟨r, hr, by rw [item, henc]; rfl⟩
  · rintro ⟨r, hr, henc⟩
    exact kept_of_distinct hn hrun hempty hnodup
      (fun _ hr => inside_of_fresh hrun hinside hr) hr henc

end run

/-- The same contents below `root`, in as many files, and the same totals. -/
structure SameCorpus (root : Place) (s s' : State) : Prop where
  contents : ∀ c, (∃ p ∈ s.tree.filesUnder root, s.tree.file? p = some c) ↔
    ∃ p ∈ s'.tree.filesUnder root, s'.tree.file? p = some c
  files : (s.tree.filesUnder root).card = (s'.tree.filesUnder root).card
  reported : ∃ saved skipped, s.out.getLast? = some (.total saved skipped) ∧
    s'.out.getLast? = some (.total saved skipped)

/-- **The corpus does not depend on the order of the inputs.** -/
theorem same_corpus {env : Env} {ps ps' : List Pickle} {outputDir : Str} {t t' : Files}
    {s s' : State} {root : Place} (hp : Reordered ps ps') (hnames : DistinctNames ps)
    (hapart : Apart outputDir t.cwd (records ps))
    (hinside : Inside outputDir t.cwd root (records ps)) (hn : NoCollision (texts ps))
    (hcwd : t'.cwd = t.cwd) (hempty : ∀ p, root <+: p → ¬ t.IsFile p)
    (hempty' : ∀ p, root <+: p → ¬ t'.IsFile p) (hrun : cli env ps outputDir t = .ok s)
    (hrun' : cli env ps' outputDir t' = .ok s') : SameCorpus root s s' := by
  have hperm := records_perm hp hnames
  have hmem : ∀ r, r ∈ records ps' ↔ r ∈ records ps := fun r => hperm.mem_iff.symm
  have hn' : NoCollision (texts ps') := by
    have htexts : (texts ps).Perm (texts ps') := hperm.filterMap _
    intro a ha b hb
    exact hn a (htexts.mem_iff.mpr ha) b (htexts.mem_iff.mpr hb)
  have hapart' : Apart outputDir t'.cwd (records ps') := by
    rw [hcwd]
    exact fun r hr r' hr' => hapart r ((hmem r).mp hr) r' ((hmem r').mp hr')
  have hinside' : Inside outputDir t'.cwd root (records ps') := by
    rw [hcwd]
    exact fun r hr => hinside r ((hmem r).mp hr)
  have hitems : (itemsOf outputDir t.cwd ps).Perm (itemsOf outputDir t'.cwd ps') := by
    rw [hcwd]
    exact hperm.map _
  obtain ⟨href, hout⟩ := cli_refines hn hrun
  obtain ⟨href', hout'⟩ := cli_refines hn' hrun'
  have hsaved : s'.totLicSaved = s.totLicSaved := by
    rw [href.saved_eq, href'.saved_eq, saved_perm hitems]
  have hskipped : s'.totLicSkipped = s.totLicSkipped := by
    rw [href.skipped_eq, href'.skipped_eq, skipped_perm hitems]
  refine ⟨fun c => ?_, ?_, _, _, hout, by rw [hout', hsaved, hskipped]⟩
  · rw [contents_of_apart hn hrun hapart hinside hempty,
      contents_of_apart hn' hrun' hapart' hinside' hempty']
    exact exists_congr fun r => and_congr_left fun _ => (hmem r).symm
  · rw [card_of_apart hn hrun hapart hinside hempty,
      card_of_apart hn' hrun' hapart' hinside' hempty', hsaved]

/-- A smile, and the surrogate pair that `json` joins to one. -/
def joinedNames : LicensesByRepo where
  items := [([code 0x1F600], [(str ['a'], str ['A'])]),
    ([code 0xD83D, code 0xDE00], [(str ['b'], str ['B'])])]
  nodup := by decide

def joinedNames' : LicensesByRepo where
  items := [([code 0xD83D, code 0xDE00], [(str ['b'], str ['B'])]),
    ([code 0x1F600], [(str ['a'], str ['A'])])]
  nodup := by decide

/-- **The names have to stay distinct**: of two that become equal only the last one is kept. -/
theorem not_same_corpus_joinedNames :
    let ps : List Pickle := [⟨str ['p', 'y', '_', '0'], .ok joinedNames⟩]
    let ps' : List Pickle := [⟨str ['p', 'y', '_', '0'], .ok joinedNames'⟩]
    Reordered ps ps' ∧
      Apart licenses [] (pickled ps) ∧ Inside licenses [] licensesDir (pickled ps) ∧
      Apart licenses [] (records ps) ∧ Inside licenses [] licensesDir (records ps) ∧
      NoCollision (texts ps ++ texts ps') ∧ (∀ p, licensesDir <+: p → ¬ emptyLicenses.IsFile p) ∧
      ∃ s s', cli utf8Env ps licenses emptyLicenses = .ok s ∧
        cli utf8Env ps' licenses emptyLicenses = .ok s' ∧ ¬ SameCorpus licensesDir s s' := by
  intro ps ps'
  refine ⟨?_, by decide +kernel, by decide +kernel, by decide +kernel, by decide +kernel,
    by decide +kernel, fun p _ => not_isFile_emptyLicenses p, _, _,
    eq_ok_of_isOk (by decide +kernel), eq_ok_of_isOk (by decide +kernel), fun h => ?_⟩
  · have hitems : Shuffled SameRepo joinedNames.items joinedNames'.items :=
      ⟨_, List.Perm.swap _ _ _, .cons ⟨rfl, List.Perm.refl _⟩ (.cons ⟨rfl, List.Perm.refl _⟩ .nil)⟩
    exact ⟨ps, List.Perm.refl _, .cons (.loaded _ _ _ hitems) .nil⟩
  · have hA : ¬ ∃ p ∈ (cli utf8Env ps licenses emptyLicenses).state.tree.filesUnder licensesDir,
        (cli utf8Env ps licenses emptyLicenses).state.tree.file? p = some [0x41] := by
      decide +kernel
    have hA' : ∃ p ∈ (cli utf8Env ps' licenses emptyLicenses).state.tree.filesUnder licensesDir,
        (cli utf8Env ps' licenses emptyLicenses).state.tree.file? p = some [0x41] := by
      decide +kernel
    exact hA ((h.contents [0x41]).mpr hA')

/-- Two pickles with a text in common, in two orders. -/
def inOrder : List Pickle :=
  [⟨str ['p', 'y', '_', '0'], .ok ⟨[(str ['r'], [(str ['a'], str ['A']), (str ['b'], str ['B'])])],
      by decide⟩⟩,
    ⟨str ['c', '_', '0'], .ok ⟨[(str ['q'], [(str ['a'], str ['B'])]),
      (str ['r'], [(str ['b'], str ['C'])])], by decide⟩⟩]

def outOfOrder : List Pickle :=
  [⟨str ['c', '_', '0'], .ok ⟨[(str ['r'], [(str ['b'], str ['C'])]),
      (str ['q'], [(str ['a'], str ['B'])])], by decide⟩⟩,
    ⟨str ['p', 'y', '_', '0'], .ok ⟨[(str ['r'], [(str ['b'], str ['B']), (str ['a'], str ['A'])])],
      by decide⟩⟩]

theorem reordered_inOrder : Reordered inOrder outOfOrder := by
  refine ⟨_, List.Perm.swap _ _ _, .cons (.loaded _ _ _ ?_) (.cons (.loaded _ _ _ ?_) .nil)⟩
  · exact ⟨_, List.Perm.swap _ _ _,
      .cons ⟨rfl, List.Perm.refl _⟩ (.cons ⟨rfl, List.Perm.refl _⟩ .nil)⟩
  · exact ⟨_, List.Perm.refl _, .cons ⟨rfl, List.Perm.swap _ _ _⟩ .nil⟩

theorem distinctNames_inOrder : DistinctNames inOrder := by
  intro p hp d hd
  rcases List.mem_cons.mp hp with rfl | hp
  · obtain rfl := Except.ok.inj hd
    decide +kernel
  · obtain rfl := List.mem_singleton.mp hp
    obtain rfl := Except.ok.inj hd
    decide +kernel

theorem same_corpus_inOrder : SameCorpus licensesDir
    (cli utf8Env inOrder licenses emptyLicenses).state
    (cli utf8Env outOfOrder licenses emptyLicenses).state :=
  same_corpus reordered_inOrder distinctNames_inOrder (by decide +kernel) (by decide +kernel)
    (by decide +kernel) rfl (fun p _ => not_isFile_emptyLicenses p)
    (fun p _ => not_isFile_emptyLicenses p) (eq_ok_of_isOk (by decide +kernel))
    (eq_ok_of_isOk (by decide +kernel))

end Exlic.Order
