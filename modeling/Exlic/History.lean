import Exlic.Steps
import Exlic.Lib.Firsts

/-! # What a run remembers of its records

The records that are saved are those that are the first with their checksum (`fresh`), the others
are skipped. `cli_history` says this of every run, without any assumption on the checksums: the log
of a run that finishes is the list of these decisions, that of one that raises is a part of it, and
every fresh record was written to the place of its path. -/

namespace Exlic.History

open Exlic.Lib.Command Exlic.Lib.Command.Outcome Exlic.Lib.Effects Exlic.Lib.FileTree
open Exlic.Lib.Firsts
open Exlic.Py.Strings Exlic.Py.Utf8 Exlic.Py.Paths Exlic.Cli Exlic.Records Exlic.Steps
open Exlic.Py.Sha1 (hexdigest)

/-- The checksum of a record, if its text can be encoded. -/
def checksum (r : Record) : Option Str := (encode r.text).map hexdigest

theorem checksum_of_encode {r : Record} {encoded : Bytes} (h : encode r.text = some encoded) :
    checksum r = some (hexdigest encoded) := by
  rw [checksum, h]
  rfl

/-- The records that are the first with their checksum. -/
def fresh (rs : List Record) : List Record := firsts checksum ∅ rs

/-- The records of `rs` that are fresh after those of `before`. -/
def freshAfter (before rs : List Record) : List Record :=
  firsts checksum (before.map checksum).toFinset rs

theorem fresh_append (before rs : List Record) :
    fresh (before ++ rs) = fresh before ++ freshAfter before rs := by
  rw [fresh, firsts_append, Finset.empty_union]
  rfl

/-- The texts of a run, encoded. -/
def texts (ps : List Pickle) : List Bytes := (records ps).filterMap fun r => encode r.text

/-- SHA-1 tells the texts apart. -/
def NoCollision (bs : List Bytes) : Prop := ∀ a ∈ bs, ∀ b ∈ bs, hexdigest a = hexdigest b → a = b

instance (bs : List Bytes) : Decidable (NoCollision bs) := by unfold NoCollision; infer_instance

/-- What happens to a record after those of `before`. -/
def decision (outputDir : Str) (before : List Record) (r : Record) : Decision :=
  if checksum r ∈ before.map checksum then .skipping r.language r.repoPath
  else .saving (flocOf outputDir r)

/-- What happens to the records that come after those of `before`. -/
def decisions (outputDir : Str) : List Record → List Record → List Decision
  | _, [] => []
  | before, r :: rs => decision outputDir before r :: decisions outputDir (before ++ [r]) rs

theorem length_decisions (outputDir : Str) : ∀ (before rs : List Record),
    (decisions outputDir before rs).length = rs.length
  | _, [] => rfl
  | before, r :: rs => by rw [decisions, List.length_cons, length_decisions, List.length_cons]

theorem decisions_append (outputDir : Str) : ∀ (before rs rs' : List Record),
    decisions outputDir before (rs ++ rs') =
      decisions outputDir before rs ++ decisions outputDir (before ++ rs) rs'
  | before, [], rs' => by rw [List.append_nil]; rfl
  | before, r :: rs, rs' => by
    rw [List.cons_append, decisions, decisions_append outputDir _ rs rs', decisions,
      List.append_assoc, List.singleton_append, List.cons_append]

/-- **What happens to one record** depends on those before. -/
theorem getElem?_decisions (outputDir : Str) (before : List Record) (r : Record)
    (after : List Record) :
    (decisions outputDir [] (before ++ r :: after))[before.length]? =
      some (decision outputDir before r) := by
  have hlen := length_decisions outputDir [] before
  rw [decisions_append, List.getElem?_append_right (by omega), hlen]
  simp [decisions]

theorem fresh_concat_of_mem {rs : List Record} {r : Record} (h : checksum r ∈ rs.map checksum) :
    fresh (rs ++ [r]) = fresh rs := by
  rw [fresh, firsts_concat, if_pos]
  · rfl
  · rwa [Finset.empty_union, List.mem_toFinset]

theorem fresh_concat_of_notMem {rs : List Record} {r : Record}
    (h : checksum r ∉ rs.map checksum) : fresh (rs ++ [r]) = fresh rs ++ [r] := by
  rw [fresh, firsts_concat, if_neg]
  · rfl
  · rwa [Finset.empty_union, List.mem_toFinset]

theorem mem_fresh_concat {rs : List Record} {r r' : Record} (h : r' ∈ fresh (rs ++ [r])) :
    r' ∈ fresh rs ∨ r' = r ∧ checksum r ∉ rs.map checksum := by
  by_cases hr : checksum r ∈ rs.map checksum
  · rw [fresh_concat_of_mem hr] at h
    exact Or.inl h
  · rw [fresh_concat_of_notMem hr, List.mem_append, List.mem_singleton] at h
    exact h.imp_right fun h => ⟨h, hr⟩

theorem mem_fresh_of_notMem {before after : List Record} {r : Record}
    (h : checksum r ∉ before.map checksum) : r ∈ fresh (before ++ r :: after) := by
  rw [fresh, firsts_append, firsts_cons_of_notMem]
  · simp
  · rwa [Finset.empty_union, List.mem_toFinset]

/-- **Without collisions** the checksums tell the encoded texts apart. -/
theorem checksum_eq_iff {ps : List Pickle} (hn : NoCollision (texts ps)) {r r' : Record}
    (hr : r ∈ records ps) (hr' : r' ∈ records ps) :
    checksum r = checksum r' ↔ encode r.text = encode r'.text := by
  refine ⟨fun h => ?_, fun h => by rw [checksum, checksum, h]⟩
  unfold checksum at h
  rcases he : encode r.text with _ | b
  · rw [he, Option.map_none, eq_comm, Option.map_eq_none_iff] at h
    rw [h]
  rcases he' : encode r'.text with _ | b'
  · rw [he, he'] at h
    cases h
  rw [he, he', Option.map_some, Option.map_some, Option.some.injEq] at h
  have hb : b ∈ texts ps := List.mem_filterMap.mpr ⟨r, hr, he⟩
  have hb' : b' ∈ texts ps := List.mem_filterMap.mpr ⟨r', hr', he'⟩
  rw [hn b hb b' hb' h]

/-- A fresh record was written to the place of its path. -/
structure Written (env : Env) (outputDir : Str) (t : Files) (s : State) (r : Record) : Prop where
  created : .createDir (fdirOf outputDir r) ∈ s.calls
  opened : .openWb (flocOf outputDir r) ∈ s.calls
  returned : ∃ t' made, t'.cwd = t.cwd ∧ env.createDir t' (fdirOf outputDir r) = (made, none) ∧
    (t'.mkdirs made).Below s.tree
  accepted : env.accepts (flocOf outputDir r)
  written : ∃ p encoded, resolve t.cwd (flocOf outputDir r) = some p ∧
    encode r.text = some encoded ∧ .written p encoded ∈ s.effects
  file : ∃ p, resolve t.cwd (flocOf outputDir r) = some p ∧ s.tree.IsFile p

/-- The checksums seen are those of the records of `done`. -/
def Seen (done : List Record) (s : State) : Prop := ∀ c, c ∈ s.seen ↔ some c ∈ done.map checksum

/-- What is known after the records of `done`, in a run from the tree `t`. -/
structure Remembers (env : Env) (outputDir : Str) (t : Files) (done : List Record) (s : State) :
    Prop where
  cwd : s.tree.cwd = t.cwd
  encodes : ∀ r ∈ done, ∃ encoded, encode r.text = some encoded
  seen : Seen done s
  log : s.log = decisions outputDir [] done
  written : ∀ r ∈ fresh done, Written env outputDir t s r

variable {env : Env} {outputDir : Str} {t : Files} {done : List Record} {r : Record} {s s' : State}

theorem Written.mono (h : Written env outputDir t s r) (ht : s.tree.Below s'.tree)
    (hc : s.calls <+: s'.calls) (he : s.effects <+: s'.effects) :
    Written env outputDir t s' r := by
  obtain ⟨t', made, hcwd, hmade, hbelow⟩ := h.returned
  obtain ⟨p, encoded, hp, henc, hw⟩ := h.written
  obtain ⟨q, hq, hfile⟩ := h.file
  exact ⟨hc.subset h.created, hc.subset h.opened, ⟨t', made, hcwd, hmade, hbelow.trans ht⟩,
    h.accepted, ⟨p, encoded, hp, henc, he.subset hw⟩, q, hq, ht.file q hfile⟩

theorem Seen.init (t : Files) : Seen [] (State.init t) := by
  intro c
  simp [State.init]

theorem Seen.mem_iff (h : Seen done s) {encoded : Bytes} (hr : encode r.text = some encoded) :
    hexdigest encoded ∈ s.seen ↔ checksum r ∈ done.map checksum := by
  rw [checksum_of_encode hr]
  exact h (hexdigest encoded)

/-- **One record** adds its checksum, if it is not there yet. -/
theorem Seen.step (h : Seen done s) (hs : saveRecord env outputDir r s = .ok s') :
    Seen (done ++ [r]) s' := by
  intro c
  obtain ⟨encoded, henc, ⟨hseen, rfl⟩ | ⟨-, made, p, -, -, rfl⟩⟩ := saveRecord_eq_ok.mp hs
  · -- the record is skipped
    have hold : checksum r ∈ done.map checksum := (h.mem_iff henc).mp hseen
    rw [List.map_append, List.mem_append, skipped, h c, or_iff_left_of_imp]
    intro hm
    rw [List.map_singleton, List.mem_singleton] at hm
    rwa [hm]
  · -- the record is saved
    rw [List.map_append, List.mem_append, saved, Finset.mem_insert, h c, or_comm,
      List.map_singleton, List.mem_singleton, checksum_of_encode henc, Option.some.injEq]

theorem Remembers.init (env : Env) (outputDir : Str) (t : Files) :
    Remembers env outputDir t [] (State.init t) :=
  ⟨rfl, by simp, Seen.init t, rfl, by simp [fresh, firsts]⟩

theorem Remembers.congr (h : Remembers env outputDir t done s) (htree : s'.tree = s.tree)
    (hseen : s'.seen = s.seen) (hcalls : s'.calls = s.calls) (heffects : s'.effects = s.effects)
    (hlog : s'.log = s.log) : Remembers env outputDir t done s' := by
  refine ⟨by rw [htree, h.cwd], h.encodes, fun c => by rw [hseen, h.seen c], by rw [hlog, h.log],
    fun r hr => (h.written r hr).mono ?_ ?_ ?_⟩
  · rw [htree]
    exact Tree.Below.refl _
  · rw [hcalls]
  · rw [heffects]

theorem Remembers.encodes_concat (h : Remembers env outputDir t done s) {encoded : Bytes}
    (hr : encode r.text = some encoded) :
    ∀ r' ∈ done ++ [r], ∃ encoded, encode r'.text = some encoded := by
  intro r' hr'
  rcases List.mem_append.mp hr' with hr' | hr'
  · exact h.encodes r' hr'
  · obtain rfl := List.mem_singleton.mp hr'
    exact ⟨encoded, hr⟩

theorem decisions_concat (outputDir : Str) (done : List Record) (r : Record) :
    decisions outputDir [] (done ++ [r]) =
      decisions outputDir [] done ++ [decision outputDir done r] := by
  rw [decisions_append]
  rfl

/-- **One record.** -/
theorem Remembers.step (h : Remembers env outputDir t done s)
    (hs : saveRecord env outputDir r s = .ok s') : Remembers env outputDir t (done ++ [r]) s' := by
  obtain ⟨encoded, henc, ⟨hseen, rfl⟩ | ⟨hseen, made, p, hc, hl, rfl⟩⟩ := saveRecord_eq_ok.mp hs
  · -- the record is skipped
    have hold : checksum r ∈ done.map checksum := (h.seen.mem_iff henc).mp hseen
    refine ⟨h.cwd, h.encodes_concat henc, h.seen.step hs, ?_, fun r' hr' => ?_⟩
    · rw [decisions_concat, decision, if_pos hold, skipped, h.log]
    · rcases mem_fresh_concat hr' with hr' | ⟨-, hnew⟩
      · exact (h.written r' hr').mono (Tree.Below.refl _) (List.prefix_refl _) (List.prefix_refl _)
      · exact absurd hold hnew
  · -- the record is saved
    have hnew : checksum r ∉ done.map checksum := fun hm => hseen ((h.seen.mem_iff henc).mpr hm)
    have hplace : resolve t.cwd (flocOf outputDir r) = some p := by
      have := resolve_of_locate hl
      rwa [Tree.cwd_mkdirs, h.cwd] at this
    have hbelow := below_saved outputDir r encoded made p s
    refine ⟨?_, h.encodes_concat henc, h.seen.step hs, ?_, fun r' hr' => ?_⟩
    · simp [saved, h.cwd]
    · rw [decisions_concat, decision, if_neg hnew, saved, h.log]
    · rcases mem_fresh_concat hr' with hr' | ⟨rfl, -⟩
      · exact (h.written r' hr').mono ((Tree.below_mkdirs _ _).trans hbelow)
          (List.prefix_append _ _) (List.prefix_append _ _)
      · have hfile : (saved outputDir r' encoded made p s).tree.IsFile p := by
          rw [Tree.IsFile, file?_saved hl, if_pos rfl]
          rfl
        refine ⟨?_, ?_, ⟨s.tree, made, h.cwd, hc, hbelow⟩, (locate_eq_ok.mp hl).1,
          ⟨p, encoded, hplace, henc, ?_⟩, p, hplace, hfile⟩ <;> simp [saved]

/-- **A record that raises** adds at most its own decision to the log. -/
theorem Remembers.log_of_raised (h : Remembers env outputDir t done s) {e : Exn}
    (hs : saveRecord env outputDir r s = .raised e s') :
    s'.log <+: decisions outputDir [] (done ++ [r]) := by
  rw [decisions_concat, ← h.log]
  obtain ⟨-, -, -, hlog⟩ | ⟨encoded, henc, hseen, made, opened, -, ho, -⟩ := saveRecord_raised hs
  · rw [hlog]
    exact List.prefix_append _ _
  · have hnew : checksum r ∉ done.map checksum := by
      rw [checksum_of_encode henc]
      exact fun hm => hseen ((h.seen _).mpr hm)
    obtain ⟨-, hlog⟩ | ⟨-, hlog, -⟩ := ho
    · rw [hlog]
      exact List.prefix_append _ _
    · rw [hlog, decision, if_neg hnew]

/-- **What a run remembers.** -/
theorem cli_history (env : Env) (ps : List Pickle) (outputDir : Str) (t : Files) :
    (cli env ps outputDir t).Ends (Remembers env outputDir t (records ps))
      fun s => s.log <+: decisions outputDir [] (records ps) := by
  have hrest : ∀ {done rs : List Record} {s : State}, records ps = done ++ rs →
      s.log <+: decisions outputDir [] done → s.log <+: decisions outputDir [] (records ps) := by
    intro done rs s hd hs
    rw [hd, decisions_append]
    exact hs.trans (List.prefix_append _ _)
  let I := fun (rs : List Record) (s : State) =>
    ∃ done, records ps = done ++ rs ∧ Remembers env outputDir t done s
  have hI : ∀ rs s, I rs s → s.log <+: decisions outputDir [] (records ps) := by
    rintro rs s ⟨done, hd, hs⟩
    refine hrest hd ?_
    rw [hs.log]
  have hrecord : ∀ r rs s, I (r :: rs) s → (saveRecord env outputDir r s).Ends (I rs)
      fun s => s.log <+: decisions outputDir [] (records ps) := by
    rintro r rs s ⟨done, hd, hs⟩
    have hd' : records ps = (done ++ [r]) ++ rs := by rw [hd, List.append_assoc]; rfl
    refine ends_iff.mpr ⟨fun s' hok => ⟨_, hd', hs.step hok⟩, fun e s' hr => ?_⟩
    exact hrest hd' (hs.log_of_raised hr)
  have h : (cli env ps outputDir t).Ends _ _ := cli_ends (I := I) (O := I) hrecord
    (fun rs s ⟨done, hd, hs⟩ => ⟨done, hd, hs.congr rfl rfl rfl rfl rfl⟩)
    (fun language rs s ⟨done, hd, hs⟩ => ⟨done, hd, hs.congr rfl rfl rfl rfl rfl⟩)
    hI hI ⟨[], rfl, Remembers.init env outputDir t⟩
  refine h.imp ?_ fun s hs => hs
  rintro _ ⟨s, ⟨done, hd, hs⟩, rfl⟩
  rw [List.append_nil] at hd
  rw [hd]
  exact hs.congr rfl rfl rfl rfl rfl

/-- After some pickles and some records of the next one. -/
theorem remembers_of_loop {ps : List Pickle} {rs : List Record}
    (hs : each (extractPickle env outputDir) ps (State.init t) = .ok s)
    (hloop : each (saveRecord env outputDir) rs (startPickle s) = .ok s') :
    Remembers env outputDir t (records ps ++ rs) s' :=
  records_done (fun _ _ _ _ h hs => h.step hs)
    (fun _ _ _ htree hseen hcalls heffects hlog h => h.congr htree hseen hcalls heffects hlog)
    (Remembers.init env outputDir t) hs hloop

/-- **What is known when the run comes to a record.** -/
theorem remembers_of_comes {ps : List Pickle} (h : Comes env ps outputDir t r s) :
    ∃ done rest, records ps = done ++ r :: rest ∧ Remembers env outputDir t done s := by
  obtain ⟨before, p, after, s₀, done, rest, rfl, hbefore, hp, hdone⟩ := h
  refine ⟨records before ++ done, rest ++ records after, ?_, ?_⟩
  · have hpickle : records (p :: after) = recordsOf p ++ records after := rfl
    rw [records_append, hpickle, hp]
    simp
  · exact remembers_of_loop hbefore hdone

/-- A record with a new checksum is fresh. -/
theorem mem_fresh_of_comes {ps : List Pickle} {encoded : Bytes}
    (h : Comes env ps outputDir t r s) (henc : encode r.text = some encoded)
    (hseen : hexdigest encoded ∉ s.seen) : r ∈ fresh (records ps) := by
  obtain ⟨done, rest, hrecords, hs⟩ := remembers_of_comes h
  rw [hrecords]
  exact mem_fresh_of_notMem fun hm => hseen ((hs.seen.mem_iff henc).mpr hm)

end Exlic.History
