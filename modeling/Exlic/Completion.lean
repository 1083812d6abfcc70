import Exlic.History
import Exlic.CreateDir
import Exlic.Py.PathJoin

/-! # When a run finishes

`cli_completes_iff`: a run finishes exactly if every pickle loads, every text and every language can
be encoded, the paths of the fresh records keep the limits of the file system, and these records do
not get in each other's way (`Free`): no file is where a directory is needed, and no directory where
a file is to be written.

Under these conditions no record raises (`Underway.record`), as the tree never holds more than it
did at the start and what belongs to the fresh records (`Within`). -/

namespace Exlic.Completion

open Exlic.Lib.Command Exlic.Lib.Command.Outcome Exlic.Lib.FileTree
open Exlic.Py.Strings Exlic.Py.Utf8 Exlic.Py.Paths Exlic.Py.PathJoin
open Exlic.Cli Exlic.Records Exlic.Steps Exlic.History Exlic.CreateDir
open Exlic.Py.Sha1 (hexdigest)

/-- `w` is the way to the directory of a record, `p` the file it is saved in. -/
structure Spot (outputDir : Str) (cwd : Place) (r : Record) (w : List Place) (p : Place) :
    Prop where
  way_eq : way cwd (fdirOf outputDir r) = some w
  place_eq : resolve cwd (flocOf outputDir r) = some p

/-- There is room for each of the records in the tree `t`, and for all of them together. -/
structure Free (outputDir : Str) (t : Files) (rs : List Record) : Prop where
  spot : ∀ r ∈ rs, ∃ w p, Spot outputDir t.cwd r w p
  way_free : ∀ r ∈ rs, ∀ w p, Spot outputDir t.cwd r w p → ∀ q ∈ w, ¬ t.IsFile q
  place_free : ∀ r ∈ rs, ∀ w p, Spot outputDir t.cwd r w p → ¬ t.IsDir p
  apart : ∀ r ∈ rs, ∀ r' ∈ rs, ∀ w p w' p', Spot outputDir t.cwd r w p →
    Spot outputDir t.cwd r' w' p' → p' ∉ w

/-- The file system takes the paths of the records. -/
def Accepted (env : Env) (outputDir : Str) (rs : List Record) : Prop :=
  ∀ r ∈ rs, env.accepts (fdirOf outputDir r) ∧ env.accepts (flocOf outputDir r)

instance (env : Env) (outputDir : Str) (rs : List Record) :
    Decidable (Accepted env outputDir rs) := by
  unfold Accepted; infer_instance

/-- What a run needs to finish. -/
structure Completes (env : Env) (outputDir : Str) (t : Files) (ps : List Pickle) : Prop where
  loads : ∀ p ∈ ps, ∃ d, p.load = .ok d
  prints : ∀ p ∈ ps, env.stdout (languageOf p.name)
  encodes : ∀ r ∈ records ps, ∃ encoded, encode r.text = some encoded
  accepted : Accepted env outputDir (fresh (records ps))
  free : Free outputDir t (fresh (records ps))

variable {env : Env} {outputDir : Str} {t u : Files} {ps : List Pickle} {r : Record}
  {rs news : List Record} {s s' : State}

/-! ### One record -/

/-- Everything in the tree `u` was in `t` or belongs to one of the records. -/
structure Within (outputDir : Str) (t : Files) (news : List Record) (u : Files) : Prop where
  cwd : u.cwd = t.cwd
  dir : ∀ q, u.IsDir q → t.IsDir q ∨ ∃ r ∈ news, ∃ w p, Spot outputDir t.cwd r w p ∧ q ∈ w
  file : ∀ q, u.IsFile q → t.IsFile q ∨ ∃ r ∈ news, ∃ w, Spot outputDir t.cwd r w q

section free

variable (h : Within outputDir t news u) (hf : Free outputDir t news) (hr : r ∈ news)
  {w : List Place} {p : Place} (hspot : Spot outputDir t.cwd r w p)
include h hf hr hspot

/-- No file is in the way of a record. -/
theorem Within.way_free : ∀ q ∈ w, ¬ u.IsFile q := by
  intro q hq hfile
  obtain hold | ⟨r', hr', w', hspot'⟩ := h.file q hfile
  · exact hf.way_free r hr w p hspot q hq hold
  · exact hf.apart r hr r' hr' w p w' q hspot hspot' hq

/-- No directory is where a record is to be saved. -/
theorem Within.place_free : ¬ u.IsDir p := by
  intro hdir
  obtain hold | ⟨r', hr', w', p', hspot', hq⟩ := h.dir p hdir
  · exact hf.place_free r hr w p hspot hold
  · exact hf.apart r' hr' r hr w' p' w p hspot' hspot hq

end free

/-- **A new record is saved**, and the tree still holds no more than it may. -/
theorem Within.save (hC : CreateDirSpec env) (h : Within outputDir t news s.tree)
    (hf : Free outputDir t news) (ha : Accepted env outputDir news) (hr : r ∈ news)
    {encoded : Bytes}
    (henc : encode r.text = some encoded) (hseen : hexdigest encoded ∉ s.seen) :
    ∃ s', saveRecord env outputDir r s = .ok s' ∧ Within outputDir t news s'.tree := by
  obtain ⟨w, p, hspot⟩ := hf.spot r hr
  have hway := hspot.way_eq
  have hplace := hspot.place_eq
  rw [← h.cwd] at hway hplace
  obtain ⟨hafdir, hafloc⟩ := ha r hr
  obtain ⟨made, hc, hmade, hdirs⟩ := hC.returns ⟨hafdir, hway, h.way_free hf hr hspot⟩
  have hfree : ¬ (s.tree.mkdirs made).IsDir p := by
    intro hdir
    obtain hdir | hp := Tree.isDir_of_mkdirs hdir
    · exact h.place_free hf hr hspot hdir
    · exact hf.apart r hr r hr w p w p hspot hspot (hmade p hp)
  have hl : locate env.accepts (s.tree.mkdirs made) (flocOf outputDir r) = .ok p := by
    rw [← Tree.cwd_mkdirs s.tree made] at hway hplace
    exact locate_join (notMem_rpartition slash r.repoPath) hway hdirs hplace hfree hafloc
  refine ⟨_, saveRecord_eq_ok.mpr ⟨encoded, henc, Or.inr ⟨hseen, made, p, hc, hl, rfl⟩⟩,
    ?_, fun q hq => ?_, fun q hq => ?_⟩
  · simp [saved, h.cwd]
  · rw [saved, Tree.isDir_put, Tree.isDir_put] at hq
    obtain hq | hq := Tree.isDir_of_mkdirs hq
    · exact h.dir q hq
    · exact Or.inr ⟨r, hr, w, p, hspot, hmade q hq⟩
  · rw [Tree.IsFile, file?_saved hl] at hq
    split_ifs at hq with hqp
    · exact Or.inr ⟨r, hr, w, by rwa [hqp]⟩
    · exact h.file q hq

/-! ### A run -/

/-- The run has got to the records `rs`. -/
structure Underway (outputDir : Str) (t : Files) (ps : List Pickle) (rs : List Record) (s : State) :
    Prop where
  seen : ∃ done, records ps = done ++ rs ∧ Seen done s
  within : Within outputDir t (fresh (records ps)) s.tree

theorem Underway.init (outputDir : Str) (t : Files) (ps : List Pickle) :
    Underway outputDir t ps (records ps) (State.init t) :=
  ⟨⟨[], rfl, Seen.init t⟩, rfl, fun _ hq => Or.inl hq, fun _ hq => Or.inl hq⟩

section completes

variable (hC : CreateDirSpec env) (hps : Completes env outputDir t ps)
include hC hps

/-- **No record raises.** -/
theorem Underway.record (h : Underway outputDir t ps (r :: rs) s) :
    ∃ s', saveRecord env outputDir r s = .ok s' ∧ Underway outputDir t ps rs s' := by
  obtain ⟨done, hd, hseen⟩ := h.seen
  have hd' : records ps = (done ++ [r]) ++ rs := by rw [hd, List.append_assoc]; rfl
  obtain ⟨encoded, henc⟩ := hps.encodes r (by rw [hd]; simp)
  by_cases hold : hexdigest encoded ∈ s.seen
  · have hs : saveRecord env outputDir r s = .ok (skipped r s) := saveRecord_of_mem henc hold
    exact ⟨_, hs, ⟨_, hd', hseen.step hs⟩, h.within⟩
  · have hnew : r ∈ fresh (records ps) := by
      rw [hd]
      exact mem_fresh_of_notMem fun hm => hold ((hseen.mem_iff henc).mpr hm)
    obtain ⟨s', hs, hwithin⟩ := h.within.save hC hps.free hps.accepted hnew henc hold
    exact ⟨s', hs, ⟨_, hd', hseen.step hs⟩, hwithin⟩

/-- **No pickle raises.** -/
theorem Underway.pickle {p : Pickle} (hp : p ∈ ps)
    (h : Underway outputDir t ps (recordsOf p ++ rs) s) :
    ∃ s', extractPickle env outputDir p s = .ok s' ∧ Underway outputDir t ps rs s' := by
  obtain ⟨d, hd⟩ := hps.loads p hp
  obtain ⟨s₁, hloop, hs₁⟩ := each_returns (f := saveRecord env outputDir)
    (I := fun as s => Underway outputDir t ps (as ++ rs) s)
    (fun r as s hs => Underway.record hC hps hs) (recordsOf p) (startPickle s) ⟨h.seen, h.within⟩
  exact ⟨_, extractPickle_eq_ok.mpr ⟨d, hd, s₁, hloop, hps.prints p hp, rfl⟩, hs₁.seen, hs₁.within⟩

theorem cli_of_completes : ∃ s, cli env ps outputDir t = .ok s := by
  obtain ⟨s, hloop, -⟩ := each_returns (f := extractPickle env outputDir)
    (I := fun rest s => rest ⊆ ps ∧ Underway outputDir t ps (records rest) s)
    (fun p rest s hs => by
      obtain ⟨hp, hrest⟩ := List.cons_subset.mp hs.1
      obtain ⟨s', hs', hunder⟩ := Underway.pickle hC hps hp hs.2
      exact ⟨s', hs', hrest, hunder⟩) ps (State.init t)
    ⟨List.Subset.refl ps, Underway.init outputDir t ps⟩
  exact ⟨_, cli_eq_ok.mpr ⟨s, hloop, rfl⟩⟩

end completes

/-! ### What a run that finishes shows -/

/-- The spot of a record that was written: directories on the way, and a file at the end. -/
theorem spot_of_written (hC : CreateDirSpec env) (h : Written env outputDir t s r) :
    ∃ w p, Spot outputDir t.cwd r w p ∧ (∀ q ∈ w, s.tree.IsDir q) ∧ s.tree.IsFile p := by
  obtain ⟨t', made, hcwd, hmade, hbelow⟩ := h.returned
  obtain ⟨p, hp, hfile⟩ := h.file
  obtain ⟨w, hclear, -, hdirs⟩ := hC.of_returned hmade
  have hw := hclear.way_eq
  rw [hcwd] at hw
  have hway : ∀ q ∈ w, s.tree.IsDir q := fun q hq => hbelow.dir q (hdirs q hq)
  exact ⟨w, p, ⟨hw, hp⟩, hway, hfile⟩

/-- In the tree `last`, the records have what they need. -/
def Placed (outputDir : Str) (cwd : Place) (news : List Record) (last : Files) : Prop :=
  ∀ r ∈ news, ∃ w p, Spot outputDir cwd r w p ∧ (∀ q ∈ w, last.IsDir q) ∧ last.IsFile p

theorem placed_of_cli (hC : CreateDirSpec env) (hrun : cli env ps outputDir t = .ok s) :
    Placed outputDir t.cwd (fresh (records ps)) s.tree := by
  intro r hr
  have hrem := (cli_history env ps outputDir t).of_ok hrun
  exact spot_of_written hC (hrem.written r hr)

/-- The paths of a record that was written keep the limits. -/
theorem accepted_of_written (hC : CreateDirSpec env) (h : Written env outputDir t s r) :
    env.accepts (fdirOf outputDir r) ∧ env.accepts (flocOf outputDir r) := by
  obtain ⟨t', made, -, hmade, -⟩ := h.returned
  obtain ⟨w, hclear, -⟩ := hC.of_returned hmade
  exact ⟨hclear.accepted, h.accepted⟩

theorem Placed.isFile {last : Files} (h : Placed outputDir t.cwd news last) (hr : r ∈ news)
    {p : Place} (hp : resolve t.cwd (flocOf outputDir r) = some p) : last.IsFile p := by
  obtain ⟨w, p', hspot, -, hfile⟩ := h r hr
  obtain rfl : p' = p := Option.some.inj (hspot.place_eq.symm.trans hp)
  exact hfile

theorem Placed.mono {last last' : Files} (h : Placed outputDir t.cwd news last)
    (hlast : last.Below last') : Placed outputDir t.cwd news last' := by
  intro r hr
  obtain ⟨w, p, hspot, hdirs, hfile⟩ := h r hr
  exact ⟨w, p, hspot, fun q hq => hlast.dir q (hdirs q hq), hlast.file p hfile⟩

/-- **There is room for the records** in every tree below one in which they have their places. -/
theorem Placed.free {last : Files} (h : Placed outputDir u.cwd news last)
    (hbelow : u.Below last) : Free outputDir u news := by
  have hends : ∀ r ∈ news, ∀ w p, Spot outputDir u.cwd r w p →
      (∀ q ∈ w, last.IsDir q) ∧ last.IsFile p := by
    intro r hr w p hspot
    obtain ⟨w', p', hspot', hdirs, hfile⟩ := h r hr
    have hw := hspot.way_eq.symm.trans hspot'.way_eq
    have hp := hspot.place_eq.symm.trans hspot'.place_eq
    rw [Option.some.inj hw, Option.some.inj hp]
    exact ⟨hdirs, hfile⟩
  refine ⟨fun r hr => ?_, fun r hr w p hspot q hq hold => ?_, fun r hr w p hspot hold => ?_, ?_⟩
  · obtain ⟨w, p, hspot, -⟩ := h r hr
    exact ⟨w, p, hspot⟩
  · have hdir : last.IsDir q := (hends r hr w p hspot).1 q hq
    exact (hbelow.file q hold).not_isDir hdir
  · have hfile : last.IsFile p := (hends r hr w p hspot).2
    exact hfile.not_isDir (hbelow.dir p hold)
  · intro r hr r' hr' w p w' p' hspot hspot' hmem
    have hdir : last.IsDir p' := (hends r hr w p hspot).1 p' hmem
    have hfile : last.IsFile p' := (hends r' hr' w' p' hspot').2
    exact hfile.not_isDir hdir

theorem completes_of_cli (hC : CreateDirSpec env)
    (hrun : cli env ps outputDir t = .ok s) : Completes env outputDir t ps := by
  have hrem := (cli_history env ps outputDir t).of_ok hrun
  obtain ⟨s₁, hloop, -⟩ := cli_eq_ok.mp hrun
  have hturn : ∀ p ∈ ps, (∃ d, p.load = .ok d) ∧ env.stdout (languageOf p.name) := by
    intro p hp
    obtain ⟨s₂, s₃, h⟩ := exists_turn hloop p hp
    obtain ⟨d, hd, -, -, hout, -⟩ := extractPickle_eq_ok.mp h
    exact ⟨⟨d, hd⟩, hout⟩
  have hfree : Free outputDir t (fresh (records ps)) :=
    (placed_of_cli hC hrun).free (replays_of_ok hrun).below
  exact ⟨fun p hp => (hturn p hp).1, fun p hp => (hturn p hp).2, hrem.encodes,
    fun r hr => accepted_of_written hC (hrem.written r hr), hfree⟩

/-- **When a run finishes.** -/
theorem cli_completes_iff (hC : CreateDirSpec env) :
    (∃ s, cli env ps outputDir t = .ok s) ↔ Completes env outputDir t ps :=
  ⟨fun ⟨_, hrun⟩ => completes_of_cli hC hrun, fun hps => cli_of_completes hC hps⟩

/-- A path that is needed as a file and as a directory. -/
def fileInWay : Pickle where
  name := str ['p', 'y', '_', '0']
  load := .ok ⟨[(str ['r'], [(str ['a'], str ['A']), (str ['a', '/', 'L'], str ['B'])])], by decide⟩

theorem cli_completes_iff_fileInWay :
    (∃ s, cli utf8Env [fileInWay] licenses emptyLicenses = .ok s) ↔
      Completes utf8Env licenses emptyLicenses [fileInWay] :=
  cli_completes_iff makeMissing_spec

end Exlic.Completion
