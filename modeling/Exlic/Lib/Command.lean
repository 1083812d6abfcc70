import Mathlib.Data.List.Basic

/-! # Commands that may raise

A command takes a state and either finishes in a state or raises in one: what was done before an
exception stays done. `andThen` is sequencing, `each` the `for` loop that the first exception
leaves, `onRaise` the handler that does something and raises again.

Rules for loops:

* `each_ends`: an invariant that speaks about the elements still to come and the state; a turn that
  raises has to establish what holds after an exception;
* `each_returns`: an invariant under which no turn raises;
* `each_done`: what is known of the elements that are done;
* `each_eq_raised`: where a loop raises;
* `each_turns`: a fact about the state that each turn keeps, however it ends;
* `each_after`: what one turn leaves reaches to the end of the loop;
* `each_agree`: two loops that do the same as long as an invariant holds;
* `each_completes`: if a loop finishes from one state, it finishes from every state that is related
  to it by a relation each turn keeps. -/

namespace Exlic.Lib.Command

variable {ε σ α β : Type}

/-- How a command ends. -/
inductive Outcome (ε σ : Type) where
  | ok (s : σ)
  | raised (e : ε) (s : σ)

namespace Outcome

/-- The state a command leaves, however it ends. -/
def state : Outcome ε σ → σ
  | ok s => s
  | raised _ s => s

/-- Whether a command finishes. -/
def isOk : Outcome ε σ → Bool
  | ok _ => true
  | raised _ _ => false

/-- What a command raises, if it does. -/
def exn? : Outcome ε σ → Option ε
  | ok _ => none
  | raised e _ => some e

/-- Sequencing: the second command runs only if the first one finishes. -/
def andThen : Outcome ε σ → (σ → Outcome ε σ) → Outcome ε σ
  | ok s, f => f s
  | raised e s, _ => raised e s

/-- `except: g; raise`. -/
def onRaise (g : σ → σ) : Outcome ε σ → Outcome ε σ
  | ok s => ok s
  | raised e s => raised e (g s)

@[simp] theorem state_ok (s : σ) : (ok s : Outcome ε σ).state = s := rfl
@[simp] theorem state_raised (e : ε) (s : σ) : (raised e s).state = s := rfl
@[simp] theorem andThen_ok (s : σ) (f : σ → Outcome ε σ) : (ok s).andThen f = f s := rfl
@[simp] theorem andThen_raised (e : ε) (s : σ) (f : σ → Outcome ε σ) :
    (raised e s).andThen f = raised e s := rfl
@[simp] theorem onRaise_ok (g : σ → σ) (s : σ) : (ok s : Outcome ε σ).onRaise g = ok s := rfl

theorem eq_ok_of_isOk {o : Outcome ε σ} (h : o.isOk = true) : o = ok o.state := by
  cases o with
  | ok s => rfl
  | raised e s => cases h

theorem eq_raised_of_exn {o : Outcome ε σ} {e : ε} (h : o.exn? = some e) :
    o = raised e o.state := by
  cases o with
  | ok s => cases h
  | raised e' s => rw [Option.some.inj h]; rfl

theorem andThen_assoc (o : Outcome ε σ) (f g : σ → Outcome ε σ) :
    (o.andThen f).andThen g = o.andThen fun s => (f s).andThen g := by
  cases o <;> rfl

theorem andThen_eq_ok {o : Outcome ε σ} {f : σ → Outcome ε σ} {s' : σ} :
    o.andThen f = ok s' ↔ ∃ s, o = ok s ∧ f s = ok s' := by
  cases o with
  | ok s => simp
  | raised e s => simp

theorem andThen_eq_raised {o : Outcome ε σ} {f : σ → Outcome ε σ} {e : ε} {s' : σ} :
    o.andThen f = raised e s' ↔ o = raised e s' ∨ ∃ s, o = ok s ∧ f s = raised e s' := by
  cases o with
  | ok s => simp
  | raised e s => simp

theorem onRaise_eq_raised {o : Outcome ε σ} {g : σ → σ} {e : ε} {s' : σ} :
    o.onRaise g = raised e s' ↔ ∃ s, o = raised e s ∧ s' = g s := by
  cases o with
  | ok s => simp
  | raised e s => simp [onRaise, eq_comm]

@[simp] theorem onRaise_eq_ok {o : Outcome ε σ} {g : σ → σ} {s' : σ} :
    o.onRaise g = ok s' ↔ o = ok s' := by
  cases o <;> simp [onRaise]

end Outcome

open Outcome

/-- The `for` loop: the turns in order, until one raises. -/
def each (f : α → σ → Outcome ε σ) : List α → σ → Outcome ε σ
  | [], s => ok s
  | a :: as, s => (f a s).andThen (each f as)

section each

variable (f : α → σ → Outcome ε σ)

@[simp] theorem each_nil (s : σ) : each f [] s = ok s := rfl

theorem each_cons (a : α) (as : List α) (s : σ) :
    each f (a :: as) s = (f a s).andThen (each f as) := rfl

theorem each_append (as bs : List α) (s : σ) :
    each f (as ++ bs) s = (each f as s).andThen (each f bs) := by
  induction as generalizing s with
  | nil => rfl
  | cons a as ih =>
    rw [List.cons_append, each_cons, each_cons, andThen_assoc]
    congr 1
    exact funext ih

/-- Nested loops are one loop over the elements of all inner lists. -/
theorem each_flatMap (g : β → List α) (bs : List β) (s : σ) :
    each f (bs.flatMap g) s = each (fun b => each f (g b)) bs s := by
  induction bs generalizing s with
  | nil => rfl
  | cons b bs ih =>
    rw [List.flatMap_cons, each_append, each_cons]
    congr 1
    exact funext ih

theorem each_map (g : β → α) (bs : List β) (s : σ) :
    each f (bs.map g) s = each (fun b => f (g b)) bs s := by
  induction bs generalizing s with
  | nil => rfl
  | cons b bs ih =>
    rw [List.map_cons, each_cons, each_cons]
    congr 1
    exact funext ih

end each

/-! ### The rules -/

namespace Outcome

/-- `P` holds if the command finished, `Q` if it raised. -/
def Ends (P Q : σ → Prop) : Outcome ε σ → Prop
  | ok s => P s
  | raised _ s => Q s

variable {P P' Q Q' : σ → Prop}

@[simp] theorem ends_ok (s : σ) : (ok s : Outcome ε σ).Ends P Q ↔ P s := Iff.rfl
@[simp] theorem ends_raised (e : ε) (s : σ) : (raised e s).Ends P Q ↔ Q s := Iff.rfl

theorem Ends.imp {o : Outcome ε σ} (ho : o.Ends P Q) (hP : ∀ s, P s → P' s)
    (hQ : ∀ s, Q s → Q' s) : o.Ends P' Q' := by
  cases o with
  | ok s => exact hP s ho
  | raised e s => exact hQ s ho

theorem Ends.andThen {o : Outcome ε σ} {f : σ → Outcome ε σ} (ho : o.Ends P Q)
    (hf : ∀ s, P s → (f s).Ends P' Q) : (o.andThen f).Ends P' Q := by
  cases o with
  | ok s => exact hf s ho
  | raised e s => exact ho

theorem Ends.state {o : Outcome ε σ} (ho : o.Ends P P) : P o.state := by
  cases o <;> exact ho

theorem Ends.of_ok {o : Outcome ε σ} (ho : o.Ends P Q) {s : σ} (hs : o = ok s) : P s := by
  subst hs
  exact ho

theorem ends_iff {o : Outcome ε σ} :
    o.Ends P Q ↔ (∀ s, o = ok s → P s) ∧ ∀ e s, o = raised e s → Q s := by
  cases o <;> simp

end Outcome

/-- **Invariants of loops.** `I` speaks about the elements that are left and the state. -/
theorem each_ends {I : List α → σ → Prop} {J : σ → Prop} {f : α → σ → Outcome ε σ}
    (h : ∀ a as s, I (a :: as) s → (f a s).Ends (I as) J) :
    ∀ (as : List α) (s : σ), I as s → (each f as s).Ends (I []) J
  | [], _, hs => hs
  | a :: as, s, hs => (h a as s hs).andThen (each_ends h as)

/-- **Loops that finish**: no turn raises, and each keeps the invariant. -/
theorem each_returns {I : List α → σ → Prop} {f : α → σ → Outcome ε σ}
    (h : ∀ a as s, I (a :: as) s → ∃ s', f a s = ok s' ∧ I as s') :
    ∀ (as : List α) (s : σ), I as s → ∃ s', each f as s = ok s' ∧ I [] s'
  | [], s, hs => ⟨s, rfl, hs⟩
  | a :: as, s, hs => by
    obtain ⟨s₁, h₁, hs₁⟩ := h a as s hs
    obtain ⟨s', h', hs'⟩ := each_returns h as s₁ hs₁
    exact ⟨s', by rw [each_cons, h₁]; exact h', hs'⟩

/-- What one turn adds to the elements that are done, a whole loop adds. -/
theorem each_done {D : List α → σ → Prop} {f : α → σ → Outcome ε σ}
    (h : ∀ done a s s', D done s → f a s = ok s' → D (done ++ [a]) s') :
    ∀ {as done : List α} {s s' : σ}, D done s → each f as s = ok s' → D (done ++ as) s'
  | [], done, s, s', hs, hrun => by
    obtain rfl : s = s' := by simpa using hrun
    rwa [List.append_nil]
  | a :: as, done, s, s', hs, hrun => by
    rw [each_cons, andThen_eq_ok] at hrun
    obtain ⟨s₁, h₁, hrun⟩ := hrun
    have hdone := each_done h (h done a s s₁ hs h₁) hrun
    rwa [List.append_assoc] at hdone

/-- **Where a loop raises**: after some turns that finish. -/
theorem each_eq_raised {f : α → σ → Outcome ε σ} {e : ε} {s' : σ} : ∀ {as : List α} {s : σ},
    each f as s = raised e s' ↔ ∃ before a after s₁, as = before ++ a :: after ∧
      each f before s = ok s₁ ∧ f a s₁ = raised e s'
  | [], s => by simp
  | a :: as, s => by
    rw [each_cons, andThen_eq_raised]
    constructor
    · rintro (h | ⟨s₁, h₁, h⟩)
      · exact ⟨[], a, as, s, rfl, rfl, h⟩
      · obtain ⟨before, b, after, s₂, rfl, hbefore, hb⟩ := each_eq_raised.mp h
        exact ⟨a :: before, b, after, s₂, rfl, by rw [each_cons, h₁]; exact hbefore, hb⟩
    · rintro ⟨_ | ⟨a', before⟩, b, after, s₂, has, hbefore, hb⟩
      · obtain ⟨rfl, rfl⟩ := List.cons.inj has
        obtain rfl : s = s₂ := by simpa using hbefore
        exact Or.inl hb
      · obtain ⟨rfl, rfl⟩ := List.cons.inj has
        rw [each_cons, andThen_eq_ok] at hbefore
        obtain ⟨s₁, h₁, hbefore⟩ := hbefore
        exact Or.inr ⟨s₁, h₁, each_eq_raised.mpr ⟨before, b, after, s₂, rfl, hbefore, hb⟩⟩

/-- **Two loops that agree** as long as an invariant of the second one holds. -/
theorem each_agree {I : List α → σ → Prop} {f g : α → σ → Outcome ε σ}
    (h : ∀ a as s, I (a :: as) s → f a s = g a s ∧ (g a s).Ends (I as) fun _ => True) :
    ∀ (as : List α) (s : σ), I as s → each f as s = each g as s
  | [], _, _ => rfl
  | a :: as, s, hs => by
    obtain ⟨heq, hends⟩ := h a as s hs
    rw [each_cons, each_cons, heq]
    rcases hg : g a s with s₁ | ⟨e, s₁⟩
    · exact each_agree h as s₁ (hends.of_ok hg)
    · rfl

/-- **Every turn of a loop**, however it ends: a fact that each turn keeps, if it is known that the
turns before have finished. -/
theorem each_turns {K : σ → Prop} {f : α → σ → Outcome ε σ} : ∀ {as : List α} {s₀ : σ},
    (∀ done a rest s, as = done ++ a :: rest → each f done s₀ = ok s → K s → K (f a s).state) →
      K s₀ → K (each f as s₀).state
  | [], _, _, hs => hs
  | a :: as, s₀, h, hs => by
    have hfirst := h [] a as s₀ rfl rfl hs
    rw [each_cons]
    rcases hf : f a s₀ with s₁ | ⟨e, s₁⟩
    · rw [hf] at hfirst
      refine each_turns (fun done b rest s has hdone hs => ?_) hfirst
      refine h (a :: done) b rest s (by rw [has]; rfl) ?_ hs
      rw [each_cons, hf]
      exact hdone
    · rwa [hf] at hfirst

/-- What one turn leaves reaches to the end of the loop, by a relation that each turn keeps. -/
theorem each_after {R : σ → σ → Prop} {f : α → σ → Outcome ε σ} (hrefl : ∀ s, R s s)
    (htrans : ∀ s s₁ s₂, R s s₁ → R s₁ s₂ → R s s₂) (h : ∀ a s, R s (f a s).state)
    {done : List α} {a : α} {rest : List α} {s₀ s : σ} (hdone : each f done s₀ = ok s) :
    R (f a s).state (each f (done ++ a :: rest) s₀).state := by
  rw [each_append, hdone, andThen_ok, each_cons]
  rcases hf : f a s with s₁ | ⟨e, s₁⟩
  · exact each_turns (K := R s₁) (fun _ b _ s₂ _ _ hs => htrans _ _ _ hs (h b s₂)) (hrefl s₁)
  · exact hrefl s₁

/-- In a loop that finishes, every turn does. -/
theorem exists_turn {f : α → σ → Outcome ε σ} : ∀ {as : List α} {s s' : σ},
    each f as s = ok s' → ∀ a ∈ as, ∃ s₁ s₂, f a s₁ = ok s₂
  | [], _, _, _, _, ha => by cases ha
  | a :: as, s, s', h, b, hb => by
    rw [each_cons, andThen_eq_ok] at h
    obtain ⟨s₁, h₁, h⟩ := h
    rcases List.mem_cons.mp hb with rfl | hb
    · exact ⟨s, s₁, h₁⟩
    · exact exists_turn h b hb

/-- A fact about the last state that each turn takes back to the state before it. -/
theorem each_backward {M : σ → Prop} {f : α → σ → Outcome ε σ} {as : List α}
    (hM : ∀ a ∈ as, ∀ s s', f a s = ok s' → M s' → M s) {s s' : σ}
    (hs : each f as s = ok s') (hs' : M s') : M s := by
  induction as generalizing s with
  | nil =>
    obtain rfl : s = s' := by simpa using hs
    exact hs'
  | cons a as ih =>
    rw [each_cons, andThen_eq_ok] at hs
    obtain ⟨s1, h1, h2⟩ := hs
    exact hM a (by simp) s s1 h1 (ih (fun b hb => hM b (by simp [hb])) h2)

/-- **Finishing again**: a loop that finishes also finishes from a related state, in a related
state. `M` is a fact about the last state that reaches back to every state before it. -/
theorem each_completes {M : σ → Prop} {Q : σ → σ → Prop} {f : α → σ → Outcome ε σ} {as : List α}
    (hM : ∀ a ∈ as, ∀ s s', f a s = ok s' → M s' → M s)
    (h : ∀ a ∈ as, ∀ s t s', Q s t → f a s = ok s' → M s' → ∃ t', f a t = ok t' ∧ Q s' t')
    {s t s' : σ} (hQ : Q s t) (hs : each f as s = ok s') (hs' : M s') :
    ∃ t', each f as t = ok t' ∧ Q s' t' := by
  induction as generalizing s t with
  | nil =>
    obtain rfl : s = s' := by simpa using hs
    exact ⟨t, rfl, hQ⟩
  | cons a as ih =>
    rw [each_cons, andThen_eq_ok] at hs
    obtain ⟨s1, h1, h2⟩ := hs
    have hM' : ∀ b ∈ as, ∀ s s', f b s = ok s' → M s' → M s := fun b hb => hM b (by simp [hb])
    have hs1 : M s1 := each_backward hM' h2 hs'
    obtain ⟨t1, ht1, hQ1⟩ := h a (by simp) s t s1 hQ h1 hs1
    obtain ⟨t', ht', hQ'⟩ := ih hM' (fun b hb => h b (by simp [hb])) hQ1 h2
    exact ⟨t', by rw [each_cons, ht1]; exact ht', hQ'⟩

end Exlic.Lib.Command
