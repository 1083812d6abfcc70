import Exlic.Records

/-! # One record, one pickle, a run

What a record does is said once: `saveRecord_eq_ok` lists the two ways it can end without an
exception, `saveRecord_raised` what it can have done when it raises. There are three rules for runs:

* `cli_ends`: invariants of the record loop and of the pickle loop that speak about the records
  still to come;
* `pickles_done` and `records_done`: what is known of the records that are done;
* `cli_turns`: facts about the tree, the calls and the effects that hold however a run ends, from
  the states in which it comes to a record (`Comes`). With it, the tree of a run is what its effects
  make of the first one (`cli_replays`), and what a record has done stays (`grows_of_comes`). -/

namespace Exlic.Steps

open Exlic.Lib.Command Exlic.Lib.Command.Outcome Exlic.Lib.Effects Exlic.Lib.FileTree
open Exlic.Py.Strings Exlic.Py.Utf8 Exlic.Py.Paths Exlic.Cli Exlic.Records
open Exlic.Py.Sha1 (hexdigest)

/-- The directory a record is saved in. -/
def fdirOf (outputDir : Str) (r : Record) : Str :=
  join (join outputDir r.language) (rpartition slash r.repoPath).1

/-- The path a record is saved at. -/
def flocOf (outputDir : Str) (r : Record) : Str :=
  join (fdirOf outputDir r) (rpartition slash r.repoPath).2.2

/-! ### The changes of the state -/

/-- The record was skipped. -/
def skipped (r : Record) (s : State) : State :=
  { s with
    licSkipped := s.licSkipped + 1
    log := s.log ++ [.skipping r.language r.repoPath] }

/-- The record was saved: `made` are the directories `create_dir` made, `p` is the file. -/
def saved (outputDir : Str) (r : Record) (encoded : Bytes) (made : List Place) (p : Place)
    (s : State) : State :=
  { s with
    tree := ((s.tree.mkdirs made).put p []).put p encoded
    seen := insert (hexdigest encoded) s.seen
    licSaved := s.licSaved + 1
    calls := s.calls ++ [.createDir (fdirOf outputDir r), .openWb (flocOf outputDir r)]
    effects := s.effects ++ (made.map .made ++ [.truncated p, .written p encoded])
    log := s.log ++ [.saving (flocOf outputDir r)] }

/-- The pickle was reported and counted. -/
def finished (language : Str) (s : State) : State :=
  { s.print (.forLanguage language s.licSaved s.licSkipped) with
    totLicSaved := s.totLicSaved + s.licSaved
    totLicSkipped := s.totLicSkipped + s.licSkipped }

/-! ### The record loop -/

theorem createDir_eq_ok {env : Env} {fdir : Str} {s s' : State} :
    createDir env fdir s = .ok s' ↔ ∃ made, env.createDir s.tree fdir = (made, none) ∧
      s' = { s with
        tree := s.tree.mkdirs made
        calls := s.calls ++ [.createDir fdir]
        effects := s.effects ++ made.map .made } := by
  rcases h : env.createDir s.tree fdir with ⟨made, _ | e⟩
  · simp [createDir, h, eq_comm]
  · simp [createDir, h]

theorem writeFile_eq_ok {env : Env} {floc : Str} {encoded : Bytes} {s s' : State} :
    writeFile env floc encoded s = .ok s' ↔ ∃ p, locate env.accepts s.tree floc = .ok p ∧
      s' = { s with
        tree := (s.tree.put p []).put p encoded
        calls := s.calls ++ [.openWb floc]
        effects := s.effects ++ [.truncated p, .written p encoded] } := by
  rcases h : locate env.accepts s.tree floc with e | p
  · simp [writeFile, h]
  · simp [writeFile, h, eq_comm]

theorem saveRecord_of_encode_eq_none {env : Env} {outputDir : Str} {r : Record} {s : State}
    (h : encode r.text = none) :
    saveRecord env outputDir r s = .raised .unicodeEncodeError (s.print .typeOfText) := by
  unfold saveRecord saveOrSkip
  simp only [h]
  rfl

theorem saveRecord_of_mem {env : Env} {outputDir : Str} {r : Record} {s : State} {encoded : Bytes}
    (h : encode r.text = some encoded) (hs : hexdigest encoded ∈ s.seen) :
    saveRecord env outputDir r s = .ok (skipped r s) := by
  unfold saveRecord saveOrSkip
  simp only [h, if_pos hs]
  rfl

theorem saveRecord_of_notMem {env : Env} {outputDir : Str} {r : Record} {s : State}
    {encoded : Bytes} (h : encode r.text = some encoded) (hs : hexdigest encoded ∉ s.seen) :
    saveRecord env outputDir r s =
      ((createDir env (fdirOf outputDir r) { s with seen := insert (hexdigest encoded) s.seen }
        ).andThen fun s =>
          (writeFile env (flocOf outputDir r) encoded
            { s with log := s.log ++ [.saving (flocOf outputDir r)] }).andThen fun s =>
              .ok { s with licSaved := s.licSaved + 1 }).onRaise (State.print .typeOfText) := by
  unfold saveRecord saveOrSkip
  simp only [h, if_neg hs]
  rfl

/-- **The two ways a record can end without an exception.** -/
theorem saveRecord_eq_ok {env : Env} {outputDir : Str} {r : Record} {s s' : State} :
    saveRecord env outputDir r s = .ok s' ↔ ∃ encoded, encode r.text = some encoded ∧
      (hexdigest encoded ∈ s.seen ∧ s' = skipped r s ∨
        hexdigest encoded ∉ s.seen ∧ ∃ made p,
          env.createDir s.tree (fdirOf outputDir r) = (made, none) ∧
          locate env.accepts (s.tree.mkdirs made) (flocOf outputDir r) = .ok p ∧
          s' = saved outputDir r encoded made p s) := by
  rcases hencode : encode r.text with _ | encoded
  · simp [saveRecord_of_encode_eq_none hencode]
  simp only [Option.some.injEq, exists_eq_left']
  by_cases hseen : hexdigest encoded ∈ s.seen
  · simp [saveRecord_of_mem hencode hseen, hseen, eq_comm]
  simp only [saveRecord_of_notMem hencode hseen, hseen, false_and, not_false_eq_true, true_and,
    false_or, onRaise_eq_ok, andThen_eq_ok, createDir_eq_ok, writeFile_eq_ok]
  constructor
  · rintro ⟨_, ⟨made, hc, rfl⟩, _, ⟨p, hl, rfl⟩, h⟩
    refine ⟨made, p, hc, hl, ?_⟩
    cases h
    simp [saved]
  · rintro ⟨made, p, hc, hl, rfl⟩
    refine ⟨_, ⟨made, hc, rfl⟩, _, ⟨p, hl, rfl⟩, ?_⟩
    simp [saved]

/-- The file that was saved, over the tree before. -/
theorem file?_saved {accepts : Str → Bool} {outputDir : Str} {r : Record} {s : State}
    {encoded : Bytes} {made : List Place} {p : Place}
    (hl : locate accepts (s.tree.mkdirs made) (flocOf outputDir r) = .ok p) (q : Place) :
    (saved outputDir r encoded made p s).tree.file? q =
      if q = p then some encoded else s.tree.file? q := by
  obtain ⟨-, -, -, -, -, -, -, hp⟩ := locate_eq_ok.mp hl
  rw [saved, Tree.file?_put_put hp (isDir_parent_of_locate hl), Tree.file?_mkdirs]

/-- A saved record only adds directories and files. -/
theorem below_saved (outputDir : Str) (r : Record) (encoded : Bytes) (made : List Place)
    (p : Place) (s : State) :
    (s.tree.mkdirs made).Below (saved outputDir r encoded made p s).tree :=
  (Tree.below_put _ p []).trans (Tree.below_put _ p encoded)

theorem saveRecord_below {env : Env} {outputDir : Str} {r : Record} {s s' : State}
    (h : saveRecord env outputDir r s = .ok s') : s.tree.Below s'.tree := by
  obtain ⟨encoded, -, ⟨-, rfl⟩ | ⟨-, made, p, -, -, rfl⟩⟩ := saveRecord_eq_ok.mp h
  · exact Tree.Below.refl _
  · exact (Tree.below_mkdirs _ made).trans (below_saved outputDir r encoded made p s)

/-- **What a record that raises has done**: nothing, or it has made the directories `create_dir`
made; it may have called `open`, but no file has changed. -/
theorem saveRecord_raised {env : Env} {outputDir : Str} {r : Record} {s s' : State} {e : Exn}
    (h : saveRecord env outputDir r s = .raised e s') :
    (s'.tree = s.tree ∧ s'.effects = s.effects ∧ s'.calls = s.calls ∧ s'.log = s.log) ∨
      ∃ encoded, encode r.text = some encoded ∧ hexdigest encoded ∉ s.seen ∧
        ∃ made opened, made = (env.createDir s.tree (fdirOf outputDir r)).1 ∧
          (opened = [] ∧ s'.log = s.log ∨ opened = [.openWb (flocOf outputDir r)] ∧
            s'.log = s.log ++ [.saving (flocOf outputDir r)] ∧
            (env.createDir s.tree (fdirOf outputDir r)).2 = none) ∧
          s'.tree = s.tree.mkdirs made ∧ s'.effects = s.effects ++ made.map .made ∧
          s'.calls = s.calls ++ .createDir (fdirOf outputDir r) :: opened := by
  rcases hencode : encode r.text with _ | encoded
  · left
    rw [saveRecord_of_encode_eq_none hencode, Outcome.raised.injEq] at h
    obtain ⟨-, rfl⟩ := h
    exact ⟨rfl, rfl, rfl, rfl⟩
  right
  by_cases hseen : hexdigest encoded ∈ s.seen
  · rw [saveRecord_of_mem hencode hseen] at h
    cases h
  rw [saveRecord_of_notMem hencode hseen] at h
  rcases hc : env.createDir s.tree (fdirOf outputDir r) with ⟨made, _ | e'⟩
  · simp only [createDir, hc, andThen_ok, writeFile] at h
    rcases hl : locate env.accepts (s.tree.mkdirs made) (flocOf outputDir r) with e'' | p
    · simp only [hl, andThen_raised, onRaise, Outcome.raised.injEq] at h
      obtain ⟨-, rfl⟩ := h
      refine ⟨encoded, rfl, hseen, made, [.openWb (flocOf outputDir r)], rfl,
        Or.inr ⟨rfl, rfl, rfl⟩, rfl, rfl, ?_⟩
      simp [State.print]
    · simp only [hl, andThen_ok, onRaise_ok] at h
      cases h
  · simp only [createDir, hc, andThen_raised, onRaise, Outcome.raised.injEq] at h
    obtain ⟨-, rfl⟩ := h
    exact ⟨encoded, rfl, hseen, made, [], rfl, Or.inl ⟨rfl, rfl⟩, rfl, rfl, rfl⟩

/-- **What a new record asks for**, however it ends. -/
theorem saveRecord_asks (env : Env) (outputDir : Str) {r : Record} {s : State} {encoded : Bytes}
    (henc : encode r.text = some encoded) (hseen : hexdigest encoded ∉ s.seen) :
    .createDir (fdirOf outputDir r) ∈ (saveRecord env outputDir r s).state.calls ∧
      ((env.createDir s.tree (fdirOf outputDir r)).2 = none →
        .openWb (flocOf outputDir r) ∈ (saveRecord env outputDir r s).state.calls) ∧
      (s.tree.mkdirs (env.createDir s.tree (fdirOf outputDir r)).1).Below
        (saveRecord env outputDir r s).state.tree := by
  rw [saveRecord_of_notMem henc hseen]
  rcases hc : env.createDir s.tree (fdirOf outputDir r) with ⟨made, _ | e⟩
  · simp only [createDir, hc, andThen_ok, writeFile]
    rcases hl : locate env.accepts (s.tree.mkdirs made) (flocOf outputDir r) with e | p
    · simp only [andThen_raised, onRaise, state_raised, State.print]
      exact ⟨by simp, fun _ => by simp, Tree.Below.refl _⟩
    · simp only [andThen_ok, onRaise_ok, state_ok]
      exact ⟨by simp, fun _ => by simp, (Tree.below_put _ p []).trans (Tree.below_put _ p encoded)⟩
  · simp only [createDir, hc, andThen_raised, onRaise, state_raised, State.print]
    exact ⟨by simp, fun h => absurd h (Option.some_ne_none e), Tree.Below.refl _⟩

/-! ### The pickle loop -/

theorem finishPickle_eq (env : Env) (language : Str) (s : State) :
    finishPickle env language s =
      if env.stdout language then .ok (finished language s)
      else .raised .unicodeEncodeError (s.print .forBegun) := by
  unfold finishPickle printFor
  split_ifs <;> rfl

theorem finishPickle_eq_ok {env : Env} {language : Str} {s s' : State} :
    finishPickle env language s = .ok s' ↔ env.stdout language ∧ s' = finished language s := by
  rw [finishPickle_eq]
  split_ifs with h
  · simp [h, eq_comm]
  · simp [h]

theorem extractPickle_of_error {env : Env} {outputDir : Str} {p : Pickle} {e : Exn}
    (h : p.load = .error e) (s : State) : extractPickle env outputDir p s = .raised e s := by
  rw [extractPickle, h]

/-- **What a pickle does** if it does not raise. -/
theorem extractPickle_eq_ok {env : Env} {outputDir : Str} {p : Pickle} {s s' : State} :
    extractPickle env outputDir p s = .ok s' ↔ ∃ d, p.load = .ok d ∧
      ∃ s₁, each (saveRecord env outputDir) (recordsOf p) (startPickle s) = .ok s₁ ∧
        env.stdout (languageOf p.name) ∧ s' = finished (languageOf p.name) s₁ := by
  rcases hload : p.load with e | d
  · rw [extractPickle_of_error hload]
    simp
  · rw [extractPickle_of_load hload, andThen_eq_ok]
    simp only [finishPickle_eq_ok, Except.ok.injEq, exists_eq_left']

section rule

variable {env : Env} {outputDir : Str} {I O : List Record → State → Prop} {J : State → Prop}

/-- The rule for a pickle; `rs` are the records of the later ones. -/
theorem extractPickle_ends
    (hrecord : ∀ r rs s, I (r :: rs) s → (saveRecord env outputDir r s).Ends (I rs) J)
    (hstart : ∀ rs s, O rs s → I rs (startPickle s))
    (hfinish : ∀ language rs s, I rs s → O rs (finished language s))
    (hO : ∀ rs s, O rs s → J s) (hI : ∀ rs s, I rs s → J (s.print .forBegun))
    (p : Pickle) (rs : List Record) (s : State) (hs : O (recordsOf p ++ rs) s) :
    (extractPickle env outputDir p s).Ends (O rs) J := by
  rcases hload : p.load with e | d
  · rw [extractPickle_of_error hload]
    exact hO _ _ hs
  · rw [extractPickle_of_load hload]
    have hloop : (each (saveRecord env outputDir) (recordsOf p) (startPickle s)).Ends
        (I ([] ++ rs)) J :=
      each_ends (I := fun as s => I (as ++ rs) s) (fun r as s h => hrecord r (as ++ rs) s h)
        _ _ (hstart _ _ hs)
    refine hloop.andThen fun s' hs' => ?_
    rw [finishPickle_eq]
    split_ifs
    · exact hfinish _ _ _ hs'
    · exact hI _ _ hs'

/-- **The rule for runs.** `I` is the invariant of the record loop, `O` the one of the pickle loop;
both speak about the records still to come. `J` is what holds after an exception. -/
theorem cli_ends
    (hrecord : ∀ r rs s, I (r :: rs) s → (saveRecord env outputDir r s).Ends (I rs) J)
    (hstart : ∀ rs s, O rs s → I rs (startPickle s))
    (hfinish : ∀ language rs s, I rs s → O rs (finished language s))
    (hO : ∀ rs s, O rs s → J s) (hI : ∀ rs s, I rs s → J (s.print .forBegun))
    {ps : List Pickle} {t : Files} (ht : O (records ps) (State.init t)) :
    (cli env ps outputDir t).Ends
      (fun s' => ∃ s, O [] s ∧ s' = s.print (.total s.totLicSaved s.totLicSkipped)) J := by
  have hloop : (each (extractPickle env outputDir) ps (State.init t)).Ends (O (records [])) J := by
    refine each_ends (I := fun ps s => O (records ps) s) (fun p ps s h => ?_) ps _ ht
    exact extractPickle_ends hrecord hstart hfinish hO hI p (records ps) s h
  exact hloop.andThen fun s hs => ⟨s, hs, rfl⟩

end rule

theorem cli_eq_ok {env : Env} {ps : List Pickle} {outputDir : Str} {t : Files} {s : State} :
    cli env ps outputDir t = .ok s ↔
      ∃ s₁, each (extractPickle env outputDir) ps (State.init t) = .ok s₁ ∧
        s = s₁.print (.total s₁.totLicSaved s₁.totLicSkipped) := by
  rw [cli, andThen_eq_ok]
  refine exists_congr fun s₁ => and_congr_right fun _ => ?_
  rw [Outcome.ok.injEq, eq_comm]

section done

variable {env : Env} {outputDir : Str} {t : Files} {D : List Record → State → Prop}
  {ps : List Pickle} {rs : List Record} {s s' : State}
  (hstep : ∀ done r s s', D done s → saveRecord env outputDir r s = .ok s' → D (done ++ [r]) s')
  (hcongr : ∀ done s s', s'.tree = s.tree → s'.seen = s.seen → s'.calls = s.calls →
    s'.effects = s.effects → s'.log = s.log → D done s → D done s')
  (hinit : D [] (State.init t))
include hstep hcongr hinit

/-- **The rule for what is known of the records that are done**, after some pickles. -/
theorem pickles_done (hs : each (extractPickle env outputDir) ps (State.init t) = .ok s) :
    D (records ps) s := by
  have hnone : D (records []) (State.init t) := hinit
  refine each_done (D := fun ps s => D (records ps) s) (fun done p s s' h hs => ?_) hnone hs
  obtain ⟨d, -, s₁, hloop, -, rfl⟩ := extractPickle_eq_ok.mp hs
  have hstart : D (records done) (startPickle s) := hcongr _ s _ rfl rfl rfl rfl rfl h
  rw [records_concat]
  exact hcongr _ s₁ _ rfl rfl rfl rfl rfl (each_done hstep hstart hloop)

/-- After some records of the next pickle, too. -/
theorem records_done (hs : each (extractPickle env outputDir) ps (State.init t) = .ok s)
    (hloop : each (saveRecord env outputDir) rs (startPickle s) = .ok s') :
    D (records ps ++ rs) s' := by
  have hstart : D (records ps) (startPickle s) :=
    hcongr _ s _ rfl rfl rfl rfl rfl (pickles_done hstep hcongr hinit hs)
  exact each_done hstep hstart hloop

end done

/-! ### The states a run comes to -/

/-- The run comes to the record `r` in the state `s`. -/
def Comes (env : Env) (ps : List Pickle) (outputDir : Str) (t : Files) (r : Record) (s : State) :
    Prop :=
  ∃ before p after s₀ done rest, ps = before ++ p :: after ∧
    each (extractPickle env outputDir) before (State.init t) = .ok s₀ ∧
    recordsOf p = done ++ r :: rest ∧
    each (saveRecord env outputDir) done (startPickle s₀) = .ok s

/-- Reporting a pickle changes nothing of the tree, nor asks for anything. -/
theorem state_finishPickle (env : Env) (language : Str) (o : Outcome Exn State) :
    (o.andThen (finishPickle env language)).state.tree = o.state.tree ∧
      (o.andThen (finishPickle env language)).state.calls = o.state.calls ∧
      (o.andThen (finishPickle env language)).state.effects = o.state.effects := by
  cases o with
  | ok s =>
    rw [andThen_ok, finishPickle_eq]
    split_ifs <;> exact ⟨rfl, rfl, rfl⟩
  | raised e s => exact ⟨rfl, rfl, rfl⟩

section turns

variable {env : Env} {ps : List Pickle} {outputDir : Str} {t : Files} {r : Record} {s : State}

/-- **The rule for the states a run comes to**: a fact about the tree, the calls and the effects
that each record keeps, however it ends. -/
theorem cli_turns {K : State → Prop}
    (hrecord : ∀ r s, Comes env ps outputDir t r s → K s → K (saveRecord env outputDir r s).state)
    (hcongr : ∀ s s', s'.tree = s.tree → s'.calls = s.calls → s'.effects = s.effects → K s → K s')
    (hinit : K (State.init t)) : K (cli env ps outputDir t).state := by
  have hloop : K (each (extractPickle env outputDir) ps (State.init t)).state := by
    refine each_turns (fun before p after s₀ hps hbefore hs₀ => ?_) hinit
    rcases hload : p.load with e | d
    · rw [extractPickle_of_error hload]
      exact hs₀
    · have hrecords : K (each (saveRecord env outputDir) (recordsOf p) (startPickle s₀)).state :=
        each_turns (fun done r rest s hp hdone hs =>
          hrecord r s ⟨before, p, after, s₀, done, rest, hps, hbefore, hp, hdone⟩ hs)
          (hcongr s₀ (startPickle s₀) rfl rfl rfl hs₀)
      rw [extractPickle_of_load hload]
      obtain ⟨htree, hcalls, heffects⟩ := state_finishPickle env (languageOf p.name)
        (each (saveRecord env outputDir) (recordsOf p) (startPickle s₀))
      exact hcongr _ _ htree hcalls heffects hrecords
  rw [cli]
  rcases hrun : each (extractPickle env outputDir) ps (State.init t) with s₁ | ⟨e, s₁⟩
  · rw [hrun] at hloop
    exact hcongr s₁ _ rfl rfl rfl hloop
  · rw [hrun] at hloop
    exact hloop

/-- A fact about the tree, the calls and the effects that every record keeps holds in all states a
run comes to. -/
theorem of_comes {K : State → Prop} (hrecord : ∀ r s, K s → K (saveRecord env outputDir r s).state)
    (hcongr : ∀ s s', s'.tree = s.tree → s'.calls = s.calls → s'.effects = s.effects → K s → K s')
    (hinit : K (State.init t)) (h : Comes env ps outputDir t r s) : K s := by
  obtain ⟨before, p, after, s₀, done, rest, -, hbefore, -, hdone⟩ := h
  have hrun := cli_eq_ok.mpr ⟨s₀, hbefore, rfl⟩
  have hcli : K (cli env before outputDir t).state :=
    cli_turns (fun r s _ hs => hrecord r s hs) hcongr hinit
  rw [hrun, state_ok] at hcli
  have hstart : K (startPickle s₀) :=
    hcongr (s₀.print (.total s₀.totLicSaved s₀.totLicSkipped)) _ rfl rfl rfl hcli
  have hloop : K (each (saveRecord env outputDir) done (startPickle s₀)).state :=
    each_turns (fun _ r _ s _ _ hs => hrecord r s hs) hstart
  rwa [hdone] at hloop

/-- What was asked for and what was made stays so. -/
structure Grows (s s' : State) : Prop where
  calls : s.calls <+: s'.calls
  tree : s.tree.Below s'.tree

theorem Grows.refl (s : State) : Grows s s := ⟨List.prefix_refl _, Tree.Below.refl _⟩

theorem Grows.trans {s s₁ s₂ : State} (h : Grows s s₁) (h' : Grows s₁ s₂) : Grows s s₂ :=
  ⟨h.calls.trans h'.calls, h.tree.trans h'.tree⟩

theorem saveRecord_grows (r : Record) (s : State) :
    Grows s (saveRecord env outputDir r s).state := by
  rcases h : saveRecord env outputDir r s with s' | ⟨e, s'⟩
  · obtain ⟨encoded, -, ⟨-, rfl⟩ | ⟨-, made, p, -, -, rfl⟩⟩ := saveRecord_eq_ok.mp h
    · exact ⟨List.prefix_refl _, Tree.Below.refl _⟩
    · exact ⟨List.prefix_append _ _, saveRecord_below h⟩
  · obtain ⟨htree, -, hcalls, -⟩ | ⟨-, -, -, made, opened, -, -, htree, -, hcalls⟩ :=
      saveRecord_raised h
    · refine ⟨?_, ?_⟩
      · rw [state_raised, hcalls]
      · rw [state_raised, htree]
        exact Tree.Below.refl _
    · refine ⟨?_, ?_⟩
      · rw [state_raised, hcalls]
        exact List.prefix_append _ _
      · rw [state_raised, htree]
        exact Tree.below_mkdirs _ made

theorem grows_finishPickle (env : Env) (language : Str) (o : Outcome Exn State) :
    Grows o.state (o.andThen (finishPickle env language)).state := by
  obtain ⟨htree, hcalls, -⟩ := state_finishPickle env language o
  refine ⟨?_, ?_⟩
  · rw [hcalls]
  · rw [htree]
    exact Tree.Below.refl _

theorem extractPickle_grows (p : Pickle) (s : State) :
    Grows s (extractPickle env outputDir p s).state := by
  rcases hload : p.load with e | d
  · rw [extractPickle_of_error hload]
    exact Grows.refl s
  · rw [extractPickle_of_load hload]
    have hloop : Grows s (each (saveRecord env outputDir) (recordsOf p) (startPickle s)).state :=
      each_turns (K := Grows s) (fun _ r _ s₁ _ _ hs => hs.trans (saveRecord_grows r s₁))
        ⟨List.prefix_refl _, Tree.Below.refl _⟩
    exact hloop.trans (grows_finishPickle env _ _)

theorem extractPickle_below {p : Pickle} {s' : State}
    (h : extractPickle env outputDir p s = .ok s') : s.tree.Below s'.tree := by
  have hgrows : Grows s (extractPickle env outputDir p s).state := extractPickle_grows p s
  rw [h] at hgrows
  exact hgrows.tree

/-- **What a record has done** is still so when the run ends. -/
theorem grows_of_comes (h : Comes env ps outputDir t r s) :
    Grows (saveRecord env outputDir r s).state (cli env ps outputDir t).state := by
  obtain ⟨before, p, after, s₀, done, rest, rfl, hbefore, hp, hdone⟩ := h
  obtain ⟨d, hload⟩ : ∃ d, p.load = .ok d := by
    rcases hload : p.load with e | d
    · rw [recordsOf, hload] at hp
      simp at hp
    · exact ⟨d, rfl⟩
  have hrecord : Grows (saveRecord env outputDir r s).state
      (each (saveRecord env outputDir) (recordsOf p) (startPickle s₀)).state := by
    rw [hp]
    exact each_after Grows.refl (fun _ _ _ => Grows.trans) saveRecord_grows hdone
  have hpickle : Grows (saveRecord env outputDir r s).state
      (extractPickle env outputDir p s₀).state := by
    rw [extractPickle_of_load hload]
    exact hrecord.trans (grows_finishPickle env _ _)
  have hafter : Grows (extractPickle env outputDir p s₀).state
      (each (extractPickle env outputDir) (before ++ p :: after) (State.init t)).state :=
    each_after Grows.refl (fun _ _ _ => Grows.trans) extractPickle_grows hbefore
  have hloop := hpickle.trans hafter
  rw [cli]
  rcases hrun : each (extractPickle env outputDir) (before ++ p :: after) (State.init t)
    with s₁ | ⟨e, s₁⟩
  · rw [hrun] at hloop
    exact ⟨hloop.calls, hloop.tree⟩
  · rw [hrun] at hloop
    exact hloop

end turns

/-! ### The tree of a run -/

/-- The tree is what the effects make of `t`. -/
def Replays (t : Files) (s : State) : Prop := s.tree = replay t s.effects

theorem Replays.saved {t : Files} {s : State} (h : Replays t s) (outputDir : Str) (r : Record)
    (encoded : Bytes) (made : List Place) (p : Place) :
    Replays t (saved outputDir r encoded made p s) := by
  unfold Replays at h ⊢
  simp only [Steps.saved]
  rw [replay_append, ← h, replay_append, replay_made]
  rfl

theorem Replays.made {t : Files} {s s' : State} (h : Replays t s) {made : List Place}
    (ht : s'.tree = s.tree.mkdirs made) (he : s'.effects = s.effects ++ made.map .made) :
    Replays t s' := by
  unfold Replays at h ⊢
  rw [ht, he, replay_append, ← h, replay_made]

theorem Replays.below {t : Files} {s : State} (h : Replays t s) : t.Below s.tree := by
  rw [h]
  exact below_replay t s.effects

theorem saveRecord_replays {env : Env} {outputDir : Str} {t : Files} {r : Record} {s : State}
    (hs : Replays t s) : (saveRecord env outputDir r s).Ends (Replays t) (Replays t) := by
  refine ends_iff.mpr ⟨fun s' h => ?_, fun e s' h => ?_⟩
  · obtain ⟨encoded, -, ⟨-, rfl⟩ | ⟨-, made, p, -, -, rfl⟩⟩ := saveRecord_eq_ok.mp h
    · exact hs
    · exact hs.saved outputDir r encoded made p
  · obtain ⟨ht, he, -⟩ | ⟨encoded, -, -, made, opened, -, -, ht, he, -⟩ := saveRecord_raised h
    · unfold Replays at hs ⊢
      rw [ht, he, hs]
    · exact hs.made ht he

theorem Replays.congr {t : Files} {s s' : State} (htree : s'.tree = s.tree)
    (heffects : s'.effects = s.effects) (h : Replays t s) : Replays t s' := by
  unfold Replays at h ⊢
  rw [htree, heffects, h]

/-- **The tree of a run**, however it ends. -/
theorem cli_replays (env : Env) (ps : List Pickle) (outputDir : Str) (t : Files) :
    Replays t (cli env ps outputDir t).state :=
  cli_turns (fun _ _ _ hs => (saveRecord_replays hs).state)
    (fun _ _ htree _ heffects => Replays.congr htree heffects) rfl

/-- In the states it comes to, too. -/
theorem replays_of_comes {env : Env} {ps : List Pickle} {outputDir : Str} {t : Files} {r : Record}
    {s : State} (h : Comes env ps outputDir t r s) : Replays t s :=
  of_comes (fun _ _ hs => (saveRecord_replays hs).state)
    (fun _ _ htree _ heffects => Replays.congr htree heffects) rfl h

theorem replays_of_ok {env : Env} {ps : List Pickle} {outputDir : Str} {t : Files} {s : State}
    (hrun : cli env ps outputDir t = .ok s) : Replays t s := by
  have h := cli_replays env ps outputDir t
  rwa [hrun] at h

end Exlic.Steps
