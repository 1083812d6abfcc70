import Mathlib.Data.List.Forall2
import Mathlib.Data.List.Perm.Basic

/-! # Lists in another order, up to a relation

`Shuffled R as bs`: some order of `as` is related to `bs`, element by element. So nested lists can
be put in another order at every level. `Shuffled.flatMap`: if related elements give lists that are
the same up to order, so do shuffled lists. -/

namespace Exlic.Lib.Shuffle

variable {α β γ : Type} {R : α → β → Prop}

/-- The elements of `bs` are related to those of `as`, in another order. -/
def Shuffled (R : α → β → Prop) (as : List α) (bs : List β) : Prop :=
  ∃ cs, as.Perm cs ∧ List.Forall₂ R cs bs

theorem forall₂_flatMap {f : α → List γ} {g : β → List γ} : ∀ {as : List α} {bs : List β},
    List.Forall₂ R as bs → (∀ a ∈ as, ∀ b, R a b → (f a).Perm (g b)) →
      (as.flatMap f).Perm (bs.flatMap g)
  | [], [], .nil, _ => List.Perm.refl _
  | a :: as, b :: bs, .cons hab habs, h => by
    rw [List.flatMap_cons, List.flatMap_cons]
    refine (h a (by simp) b hab).append (forall₂_flatMap habs fun a' ha' => ?_)
    exact h a' (List.mem_cons_of_mem a ha')

/-- **Shuffled lists of lists** have the same elements. -/
theorem Shuffled.flatMap {f : α → List γ} {g : β → List γ} {as : List α} {bs : List β}
    (h : Shuffled R as bs) (hfg : ∀ a ∈ as, ∀ b, R a b → (f a).Perm (g b)) :
    (as.flatMap f).Perm (bs.flatMap g) := by
  obtain ⟨cs, hp, hcs⟩ := h
  refine (hp.flatMap_right f).trans (forall₂_flatMap hcs fun c hc => ?_)
  exact hfg c (hp.mem_iff.mpr hc)

theorem Shuffled.map {f : α → γ} {g : β → γ} {as : List α} {bs : List β}
    (h : Shuffled R as bs) (hfg : ∀ a ∈ as, ∀ b, R a b → f a = g b) :
    (as.map f).Perm (bs.map g) := by
  have hflat := h.flatMap (f := fun a => [f a]) (g := fun b => [g b]) fun a ha b hab => by
    rw [hfg a ha b hab]
  rwa [← List.map_eq_flatMap, ← List.map_eq_flatMap] at hflat

end Exlic.Lib.Shuffle
