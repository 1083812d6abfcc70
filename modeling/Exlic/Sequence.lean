import Exlic.Again
import Exlic.Order

/-! # Several runs

A run forgets its checksums, so two runs one after the other may save a text twice. `two_runs`: if
no place is given two texts, one run over all pickles finishes too; it leaves the same contents,
each file of it at the place and with the content it also has after the two runs.

`same_totals`: what is reported in total depends on nothing but the records that are met, whatever
their order, their places and the tree. -/

namespace Exlic.Sequence

open Exlic.Lib.Command Exlic.Lib.Command.Outcome Exlic.Lib.FileTree Exlic.Lib.Firsts
open Exlic.Lib.Writes
open Exlic.Py.Strings Exlic.Py.Utf8 Exlic.Py.Paths
open Exlic.Cli Exlic.Records Exlic.Steps Exlic.History Exlic.CreateDir Exlic.Completion
open Exlic.FinalTree Exlic.Report Exlic.Order Exlic.Inputs

variable {env env' : Env} {outputDir outputDir' : Str} {t t' : Files} {ps ps' qs : List Pickle}
  {s s' s₁ s₂ : State} {root : Place}

/-- **The totals depend only on the records**, not on their order or places, nor on the tree. -/
theorem same_totals (hp : Reordered ps ps') (hnames : DistinctNames ps)
    (hrun : cli env ps outputDir t = .ok s) (hrun' : cli env' ps' outputDir' t' = .ok s') :
    ∃ saved skipped, s.out.getLast? = some (.total saved skipped) ∧
      s'.out.getLast? = some (.total saved skipped) := by
  have hperm := records_perm hp hnames
  have hsaved : (fresh (records ps')).length = (fresh (records ps)).length :=
    (firsts_perm_length checksum hperm).symm
  have hall : (records ps').length = (records ps).length := hperm.length_eq.symm
  have hlast := getLast?_out hrun
  have hlast' := getLast?_out hrun'
  rw [hsaved, hall] at hlast'
  exact ⟨_, _, hlast, hlast'⟩

theorem same_totals_inOrder : ∃ saved skipped,
    (cli utf8Env inOrder licenses emptyLicenses).state.out.getLast? =
        some (.total saved skipped) ∧
      (cli utf8Env outOfOrder [] Tree.bare).state.out.getLast? = some (.total saved skipped) :=
  same_totals reordered_inOrder distinctNames_inOrder (eq_ok_of_isOk (by decide +kernel))
    (eq_ok_of_isOk (by decide +kernel))

/-! ### Two runs and one -/

/-- A record that is fresh in all pickles is fresh in its part of them. -/
theorem mem_fresh_append {r : Record} (hr : r ∈ fresh (records (ps ++ qs))) :
    r ∈ fresh (records ps) ∨ r ∈ fresh (records qs) := by
  rw [records_append, fresh_append, List.mem_append] at hr
  exact hr.imp_right (mem_firsts_of_subset checksum (Finset.empty_subset _))

section two

variable (hfirst : cli env ps outputDir t = .ok s₁)
  (hsecond : cli env qs outputDir s₁.tree = .ok s₂)
include hfirst hsecond

/-- **One run over all pickles finishes** if two runs one after the other do. -/
theorem one_run (hC : CreateDirSpec env) :
    ∃ s, cli env (ps ++ qs) outputDir t = .ok s := by
  have h₁ := completes_of_cli hC hfirst
  have h₂ := completes_of_cli hC hsecond
  have hcwd : s₁.tree.cwd = t.cwd := (holds_of_cli hfirst).cwd
  have hbelow₁ := (replays_of_ok hfirst).below
  have hbelow₂ := (replays_of_ok hsecond).below
  have hplaced₁ := (placed_of_cli hC hfirst).mono hbelow₂
  have hplaced₂ := placed_of_cli hC hsecond
  rw [hcwd] at hplaced₂
  have hplaced : Placed outputDir t.cwd (fresh (records (ps ++ qs))) s₂.tree := by
    intro r hr
    exact (mem_fresh_append hr).elim (hplaced₁ r) (hplaced₂ r)
  have hcompletes : Completes env outputDir t (ps ++ qs) := by
    refine ⟨fun p hp => ?_, fun p hp => ?_, fun r hr => ?_, fun r hr => ?_,
      hplaced.free (hbelow₁.trans hbelow₂)⟩
    · exact (List.mem_append.mp hp).elim (h₁.loads p) (h₂.loads p)
    · exact (List.mem_append.mp hp).elim (h₁.prints p) (h₂.prints p)
    · rw [records_append] at hr
      exact (List.mem_append.mp hr).elim (h₁.encodes r) (h₂.encodes r)
    · exact (mem_fresh_append hr).elim (h₁.accepted r) (h₂.accepted r)
  exact cli_of_completes hC hcompletes

/-- What both runs write. -/
theorem mem_writes_two {p : Place} {c : Bytes} :
    (p, c) ∈ writes outputDir t.cwd (records ps) ++ writes outputDir t.cwd (records qs) ↔
      ∃ r, (r ∈ fresh (records ps) ∨ r ∈ fresh (records qs)) ∧
        resolve t.cwd (flocOf outputDir r) = some p ∧ encode r.text = some c := by
  have hcwd : s₁.tree.cwd = t.cwd := (holds_of_cli hfirst).cwd
  have h₂ := mem_writes (p := p) (c := c) hsecond
  rw [hcwd] at h₂
  rw [List.mem_append, mem_writes hfirst, h₂]
  constructor
  · rintro (⟨r, hr, h⟩ | ⟨r, hr, h⟩)
    · exact ⟨r, Or.inl hr, h⟩
    · exact ⟨r, Or.inr hr, h⟩
  · rintro ⟨r, hr | hr, h⟩
    · exact Or.inl ⟨r, hr, h⟩
    · exact Or.inr ⟨r, hr, h⟩

variable (hempty : ∀ p, root <+: p → ¬ t.IsFile p)

include hempty in
theorem file?_two {p : Place} (hp : root <+: p) : s₂.tree.file? p =
    last (writes outputDir t.cwd (records ps) ++ writes outputDir t.cwd (records qs)) p := by
  have hcwd : s₁.tree.cwd = t.cwd := (holds_of_cli hfirst).cwd
  rw [(holds_of_cli hsecond).file, hcwd, file?_eq_last hfirst hempty hp, last_append]

variable (hapart : Apart outputDir t.cwd (records (ps ++ qs)))

include hapart in
/-- Two writes to one place put the same text there. -/
theorem writes_agree {p : Place} {c c' : Bytes}
    (hc : (p, c) ∈ writes outputDir t.cwd (records ps) ++ writes outputDir t.cwd (records qs))
    (hc' : (p, c') ∈ writes outputDir t.cwd (records ps) ++ writes outputDir t.cwd (records qs)) :
    c' = c := by
  have hall : ∀ r, r ∈ fresh (records ps) ∨ r ∈ fresh (records qs) → r ∈ records (ps ++ qs) := by
    intro r hr
    rw [records_append, List.mem_append]
    exact hr.imp (mem_of_mem_firsts _) (mem_of_mem_firsts _)
  obtain ⟨r, hr, hplace, henc⟩ := (mem_writes_two hfirst hsecond).mp hc
  obtain ⟨r', hr', hplace', henc'⟩ := (mem_writes_two hfirst hsecond).mp hc'
  have htext := hapart r (hall r hr) r' (hall r' hr') p hplace hplace'
  rw [henc, henc'] at htext
  exact (Option.some.inj htext).symm

include hempty hapart in
/-- A file of the one run is also there after the two. -/
theorem file?_of_one (hone : cli env (ps ++ qs) outputDir t = .ok s) {p : Place} (hp : root <+: p)
    {c : Bytes} (hc : s.tree.file? p = some c) : s₂.tree.file? p = some c := by
  rw [file?_eq_last hone hempty hp] at hc
  obtain ⟨r, hr, hplace, henc⟩ := (mem_writes hone).mp (mem_of_last hc)
  have hmem := (mem_writes_two hfirst hsecond).mpr ⟨r, mem_fresh_append hr, hplace, henc⟩
  rw [file?_two hfirst hsecond hempty hp]
  exact last_of_agree hmem fun c' hc' => writes_agree hfirst hsecond hapart hmem hc'

include hempty hapart in
/-- Two runs and one, over pickles that are loaded already. -/
theorem same_contents (hC : CreateDirSpec env)
    (hinside : Inside outputDir t.cwd root (records (ps ++ qs)))
    (hn : NoCollision (texts (ps ++ qs))) :
    ∃ s, cli env (ps ++ qs) outputDir t = .ok s ∧
      (∀ p c, root <+: p → s.tree.file? p = some c → s₂.tree.file? p = some c) ∧
      ∀ c, (∃ p ∈ s₂.tree.filesUnder root, s₂.tree.file? p = some c) ↔
        ∃ p ∈ s.tree.filesUnder root, s.tree.file? p = some c := by
  obtain ⟨s, hone⟩ := one_run hfirst hsecond hC
  have hkeeps : ∀ p c, root <+: p → s.tree.file? p = some c → s₂.tree.file? p = some c :=
    fun p c hp hc => file?_of_one hfirst hsecond hempty hapart hone hp hc
  refine ⟨s, hone, hkeeps, fun c => ⟨?_, ?_⟩⟩
  · rintro ⟨p, hp, hc⟩
    have hroot := (Tree.mem_filesUnder.mp hp).1
    rw [file?_two hfirst hsecond hempty hroot] at hc
    have hwrite := mem_of_last hc
    obtain ⟨r, hr, -, henc⟩ := (mem_writes_two hfirst hsecond).mp hwrite
    refine (contents_of_apart hn hone hapart hinside hempty c).mpr ⟨r, ?_, henc⟩
    rw [records_append, List.mem_append]
    exact hr.imp (mem_of_mem_firsts _) (mem_of_mem_firsts _)
  · rintro ⟨p, hp, hc⟩
    have hroot := (Tree.mem_filesUnder.mp hp).1
    have hc' := hkeeps p c hroot hc
    refine ⟨p, Tree.mem_filesUnder.mpr ⟨hroot, ?_⟩, hc'⟩
    rw [Tree.IsFile, hc']
    rfl

end two

/-- **Two runs and one**: the same contents, and the two runs keep every file of the one. -/
theorem two_runs (hC : CreateDirSpec env) {unpickle : Bytes → Except Exn LicensesByRepo}
    {names names' : List Str} (hexists : ∀ name ∈ names ++ names', PathExists t name)
    (hspared : Spared outputDir t.cwd (names ++ names')
      (fresh (records (names.map (pickleAt env unpickle t))) ++
        fresh (records (names'.map (pickleAt env unpickle t)))))
    (hfirst : cliOnTree env unpickle names outputDir t = .ok s₁)
    (hsecond : cliOnTree env unpickle names' outputDir s₁.tree = .ok s₂)
    (hempty : ∀ p, root <+: p → ¬ t.IsFile p)
    (hapart : Apart outputDir t.cwd (records ((names ++ names').map (pickleAt env unpickle t))))
    (hinside : Inside outputDir t.cwd root
      (records ((names ++ names').map (pickleAt env unpickle t))))
    (hn : NoCollision (texts ((names ++ names').map (pickleAt env unpickle t)))) :
    ∃ s, cliOnTree env unpickle (names ++ names') outputDir t = .ok s ∧
      (∀ p c, root <+: p → s.tree.file? p = some c → s₂.tree.file? p = some c) ∧
      ∀ c, (∃ p ∈ s₂.tree.filesUnder root, s₂.tree.file? p = some c) ↔
        ∃ p ∈ s.tree.filesUnder root, s.tree.file? p = some c := by
  have hleft := List.subset_append_left names names'
  have hright := List.subset_append_right names names'
  have hspared₁ := hspared.mono (List.Subset.refl _) (List.subset_append_left _ _)
  have hspared₂ := hspared.mono (List.Subset.refl _) (List.subset_append_right _ _)
  have hboth : Spared outputDir t.cwd (names ++ names')
      (fresh (records ((names ++ names').map (pickleAt env unpickle t)))) := by
    refine hspared.mono (List.Subset.refl _) fun r hr => ?_
    rw [List.map_append] at hr
    exact List.mem_append.mpr (mem_fresh_append hr)
  rw [cliOnTree_eq (fun name hname => hexists name (hleft hname))
    (hspared₁.mono hleft (List.Subset.refl _))] at hfirst
  have hread := cliOnTree_after hfirst (fun name hname => hexists name (hright hname))
    (hspared₁.mono hright (List.Subset.refl _)) (hspared₂.mono hright (List.Subset.refl _))
  replace hsecond := hread.symm.trans hsecond
  rw [cliOnTree_eq hexists hboth]
  rw [List.map_append] at hapart hinside hn ⊢
  exact same_contents hfirst hsecond hempty hapart hC hinside hn

/-- The output directory, and next to it two pickles that hold the same. -/
def samePickles : Files := onePickle.put [[0x63, 0x5F, 0x30]] pickleBytes

theorem not_isFile_samePickles {p : Place} (hp : licensesDir <+: p) : ¬ samePickles.IsFile p := by
  have hne : ∀ name : Name, name ≠ [0x6C, 0x69, 0x63, 0x65, 0x6E, 0x73, 0x65, 0x73] →
      p ≠ [name] := by
    rintro name hname rfl
    obtain ⟨rest, hrest⟩ := hp
    exact hname (List.cons.inj hrest).1.symm
  rw [Tree.IsFile, samePickles, onePickle, Tree.file?_put_of_ne _ _ (hne _ (by decide)),
    Tree.file?_put_of_ne _ _ (hne _ (by decide))]
  exact not_isFile_emptyLicenses p

/-- Two runs save the text `A` twice. -/
theorem two_runs_samePickles :
    let names : List Str := [str ['p', 'y', '_', '0']]
    let names' : List Str := [str ['c', '_', '0']]
    let s₁ := (cliOnTree utf8Env unpickleBytes names licenses samePickles).state
    let s₂ := (cliOnTree utf8Env unpickleBytes names' licenses s₁.tree).state
    ∃ s, cliOnTree utf8Env unpickleBytes (names ++ names') licenses samePickles = .ok s ∧
      (∀ p c, licensesDir <+: p → s.tree.file? p = some c → s₂.tree.file? p = some c) ∧
      ∀ c, (∃ p ∈ s₂.tree.filesUnder licensesDir, s₂.tree.file? p = some c) ↔
        ∃ p ∈ s.tree.filesUnder licensesDir, s.tree.file? p = some c := by
  intro names names' s₁ s₂
  have hC : CreateDirSpec utf8Env := makeMissing_spec
  have hexists : ∀ name ∈ names ++ names', PathExists samePickles name := by
    intro name hname
    simp only [names, names', List.cons_append, List.nil_append, List.mem_cons, List.not_mem_nil,
      or_false] at hname
    obtain rfl | rfl := hname
    all_goals exact ⟨_, rfl, by decide, by decide, by decide +kernel, by decide +kernel⟩
  exact two_runs hC hexists (by decide +kernel) (eq_ok_of_isOk (by decide +kernel))
    (eq_ok_of_isOk (by decide +kernel)) (fun p hp => not_isFile_samePickles hp)
    (by decide +kernel) (by decide +kernel) (by decide +kernel)

end Exlic.Sequence
