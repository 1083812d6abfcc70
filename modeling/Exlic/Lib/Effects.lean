import Exlic.Lib.FileTree

/-! # Effects on a file tree, and interruptions

What a program does to a tree is a list of effects: directories made, files opened for writing (and
so emptied), files written. `replay` does them in order. A program that is stopped leaves a tree
that is `Interrupted`: it did the first effects, and of the next one, if that is a write, possibly
a part.

Such a tree lies between the two ends of the whole run (`interrupted_between`), and a file no effect
names is as it was (`file?_interrupted`). Any other file holds a part of what an effect puts there
(`file?_interrupted_cases`). -/

namespace Exlic.Lib.Effects

open Exlic.Lib.FileTree Exlic.Lib.FileTree.Tree

variable {ν β : Type}

/-- One change of the tree. -/
inductive Effect (ν β : Type) where
  | made (p : List ν)
  | truncated (p : List ν)
  | written (p : List ν) (content : List β)
  deriving DecidableEq

/-- The place an effect changes. -/
def Effect.place : Effect ν β → List ν
  | made p => p
  | truncated p => p
  | written p _ => p

/-- The file an effect changes, if any. -/
def Effect.file : Effect ν β → Option (List ν)
  | made _ => none
  | truncated p => some p
  | written p _ => some p

/-- What an effect leaves in its file. -/
def Effect.content : Effect ν β → List β
  | written _ c => c
  | _ => []

variable [DecidableEq ν] [DecidableEq β]

def Effect.apply (t : Tree ν β) : Effect ν β → Tree ν β
  | made p => t.mkdir p
  | truncated p => t.put p []
  | written p c => t.put p c

/-- The tree after all effects. -/
def replay (t : Tree ν β) (es : List (Effect ν β)) : Tree ν β := es.foldl Effect.apply t

/-- What a program with the effects `es` leaves when it is stopped. -/
inductive Interrupted (t : Tree ν β) (es : List (Effect ν β)) : Tree ν β → Prop
  | before (done rest : List (Effect ν β)) (h : es = done ++ rest) :
      Interrupted t es (replay t done)
  | within (done rest : List (Effect ν β)) (p : List ν) (part content : List β)
      (h : es = done ++ .written p content :: rest) (hp : part <+: content) :
      Interrupted t es ((replay t done).put p part)

@[simp] theorem replay_nil (t : Tree ν β) : replay t [] = t := rfl

theorem replay_cons (t : Tree ν β) (e : Effect ν β) (es : List (Effect ν β)) :
    replay t (e :: es) = replay (e.apply t) es := rfl

theorem replay_append (t : Tree ν β) (es es' : List (Effect ν β)) :
    replay t (es ++ es') = replay (replay t es) es' := by simp [replay]

theorem replay_made (t : Tree ν β) (ps : List (List ν)) :
    replay t (ps.map .made) = t.mkdirs ps := by
  induction ps generalizing t with
  | nil => rfl
  | cons p ps ih => exact ih (t.mkdir p)

@[simp] theorem cwd_apply (t : Tree ν β) (e : Effect ν β) : (e.apply t).cwd = t.cwd := by
  cases e <;> simp [Effect.apply]

@[simp] theorem cwd_replay (t : Tree ν β) (es : List (Effect ν β)) :
    (replay t es).cwd = t.cwd := by
  induction es generalizing t with
  | nil => rfl
  | cons e es ih => rw [replay_cons, ih, cwd_apply]

theorem below_apply (t : Tree ν β) (e : Effect ν β) : Below t (e.apply t) := by
  cases e with
  | made p => exact below_mkdir t p
  | truncated p => exact below_put t p []
  | written p c => exact below_put t p c

theorem below_replay (t : Tree ν β) (es : List (Effect ν β)) : Below t (replay t es) := by
  induction es generalizing t with
  | nil => exact Below.refl t
  | cons e es ih => exact (below_apply t e).trans (ih _)

theorem get_apply_of_ne (t : Tree ν β) {e : Effect ν β} {q : List ν} (h : q ≠ e.place) :
    (e.apply t).get q = t.get q := by
  cases e with
  | made p => exact get_mkdir_of_ne t h
  | truncated p => exact get_put_of_ne t [] h
  | written p c => exact get_put_of_ne t c h

/-- **Frame**: a place no effect names is as it was. -/
theorem get_replay_of_notMem (t : Tree ν β) {es : List (Effect ν β)} {q : List ν}
    (h : ∀ e ∈ es, q ≠ e.place) : (replay t es).get q = t.get q := by
  induction es generalizing t with
  | nil => rfl
  | cons e es ih =>
    rw [replay_cons, ih _ fun e' he => h e' (List.mem_cons_of_mem _ he),
      get_apply_of_ne t (h e (by simp))]

theorem file?_apply_of_ne (t : Tree ν β) {e : Effect ν β} {q : List ν} (h : e.file ≠ some q) :
    (e.apply t).file? q = t.file? q := by
  cases e with
  | made p => exact file?_mkdir t p q
  | truncated p => exact file?_put_of_ne t [] fun hq => h (hq ▸ rfl)
  | written p c => exact file?_put_of_ne t c fun hq => h (hq ▸ rfl)

theorem file?_replay_of_notMem (t : Tree ν β) {es : List (Effect ν β)} {q : List ν}
    (h : ∀ e ∈ es, e.file ≠ some q) : (replay t es).file? q = t.file? q := by
  induction es generalizing t with
  | nil => rfl
  | cons e es ih =>
    rw [replay_cons, ih _ fun e' he => h e' (List.mem_cons_of_mem _ he),
      file?_apply_of_ne t (h e (by simp))]

/-! ### What is there afterwards -/

theorem file?_apply_cases (t : Tree ν β) (e : Effect ν β) (q : List ν) :
    (e.apply t).file? q = t.file? q ∨ e.file = some q ∧ (e.apply t).file? q = some e.content := by
  by_cases hq : e.file = some q
  · have hput : ∀ c : List β,
        (t.put q c).file? q = t.file? q ∨ (t.put q c).file? q = some c := by
      intro c
      by_cases h : ¬ t.IsDir q ∧ t.IsDir q.dropLast
      · exact Or.inr (by rw [file?_put h.1 h.2, if_pos rfl])
      · exact Or.inl (by rw [put, dif_neg h])
    cases e with
    | made p => cases hq
    | truncated p =>
      obtain rfl := Option.some.inj hq
      exact (hput []).imp_right fun h => ⟨rfl, h⟩
    | written p c =>
      obtain rfl := Option.some.inj hq
      exact (hput c).imp_right fun h => ⟨rfl, h⟩
  · exact Or.inl (file?_apply_of_ne t hq)

/-- **A file is as it was, or as one of the effects left it.** -/
theorem file?_replay_cases (t : Tree ν β) (es : List (Effect ν β)) (q : List ν) :
    (replay t es).file? q = t.file? q ∨
      ∃ e ∈ es, e.file = some q ∧ (replay t es).file? q = some e.content := by
  induction es generalizing t with
  | nil => exact Or.inl rfl
  | cons e es ih =>
    rw [replay_cons]
    obtain hsame | ⟨e', he', hfile⟩ := ih (e.apply t)
    · rw [hsame]
      exact (file?_apply_cases t e q).imp_right fun h => ⟨e, by simp, h⟩
    · exact Or.inr ⟨e', List.mem_cons_of_mem e he', hfile⟩

theorem isDir_apply_cases {t : Tree ν β} {e : Effect ν β} {q : List ν} (h : (e.apply t).IsDir q) :
    t.IsDir q ∨ e = .made q := by
  cases e with
  | made p =>
    obtain h | ⟨rfl, -⟩ := (isDir_mkdir t p q).mp h
    · exact Or.inl h
    · exact Or.inr rfl
  | truncated p => exact Or.inl ((isDir_put t p q []).mp h)
  | written p c => exact Or.inl ((isDir_put t p q c).mp h)

theorem isDir_replay_cases {t : Tree ν β} {es : List (Effect ν β)} {q : List ν}
    (h : (replay t es).IsDir q) : t.IsDir q ∨ .made q ∈ es := by
  induction es generalizing t with
  | nil => exact Or.inl h
  | cons e es ih =>
    obtain h | h := ih h
    · exact (isDir_apply_cases h).imp_right fun he => by simp [he]
    · exact Or.inr (List.mem_cons_of_mem e h)

/-! ### Interrupted runs -/

section interrupted

variable {t l : Tree ν β} {es : List (Effect ν β)} (hl : Interrupted t es l)
include hl

theorem cwd_interrupted : l.cwd = t.cwd := by
  cases hl <;> simp

/-- **A tree that was left behind lies between the two ends of the whole run.** -/
theorem interrupted_between : Below t l ∧ Below l (replay t es) := by
  cases hl with
  | before done rest h =>
    refine ⟨below_replay t done, ?_⟩
    rw [h, replay_append]
    exact below_replay _ rest
  | within done rest p part content h hp =>
    refine ⟨(below_replay t done).trans (below_put _ p part), ?_⟩
    rw [h, replay_append, replay_cons]
    exact (below_put_put _ p part content).trans (below_replay _ rest)

/-- A file no effect names is as it was. -/
theorem file?_interrupted {q : List ν} (h : ∀ e ∈ es, e.file ≠ some q) : l.file? q = t.file? q := by
  cases hl with
  | before done rest hes =>
    exact file?_replay_of_notMem t fun e he => h e (by rw [hes]; simp [he])
  | within done rest p part content hes hp =>
    have hp : q ≠ p := by
      rintro rfl
      exact h (.written q content) (by rw [hes]; simp) rfl
    rw [file?_put_of_ne _ part hp]
    exact file?_replay_of_notMem t fun e he => h e (by rw [hes]; simp [he])

/-- A place no effect names is as it was. -/
theorem get_interrupted {q : List ν} (h : ∀ e ∈ es, q ≠ e.place) : l.get q = t.get q := by
  cases hl with
  | before done rest hes =>
    exact get_replay_of_notMem t fun e he => h e (by rw [hes]; simp [he])
  | within done rest p part content hes hp =>
    have hp : q ≠ p := h (.written p content) (by rw [hes]; simp)
    rw [get_put_of_ne _ part hp]
    exact get_replay_of_notMem t fun e he => h e (by rw [hes]; simp [he])

/-- **What a program that is stopped leaves of a file**: what was there, or a part of what one of
its effects puts there. -/
theorem file?_interrupted_cases (q : List ν) : l.file? q = t.file? q ∨
    ∃ e ∈ es, e.file = some q ∧ ∃ part, part <+: e.content ∧ l.file? q = some part := by
  cases hl with
  | before done rest hes =>
    refine (file?_replay_cases t done q).imp_right ?_
    rintro ⟨e, he, hq, hfile⟩
    exact ⟨e, by rw [hes]; simp [he], hq, _, List.prefix_refl _, hfile⟩
  | within done rest p part content hes hp =>
    obtain hput | ⟨hq, hfile⟩ := file?_apply_cases (replay t done) (.written p part) q
    · change ((replay t done).put p part).file? q = _ at hput
      rw [hput]
      refine (file?_replay_cases t done q).imp_right ?_
      rintro ⟨e, he, hq, hfile⟩
      exact ⟨e, by rw [hes]; simp [he], hq, _, List.prefix_refl _, hfile⟩
    · exact Or.inr ⟨.written p content, by rw [hes]; simp, hq, part, hp, hfile⟩

theorem isDir_interrupted_cases {q : List ν} (h : l.IsDir q) : t.IsDir q ∨ .made q ∈ es := by
  cases hl with
  | before done rest hes =>
    exact (isDir_replay_cases h).imp_right fun he => by rw [hes]; simp [he]
  | within done rest p part content hes hp =>
    rw [isDir_put] at h
    exact (isDir_replay_cases h).imp_right fun he => by rw [hes]; simp [he]

end interrupted

end Exlic.Lib.Effects
