import Mathlib.Data.Finset.Card
import Mathlib.Data.Finset.Dedup

/-! # The last write wins

`last ws k` is the value of the last write to `k` in the list `ws`. It is the write that no later
one to the same key follows (`last_eq_some`); in a longer list, the later part decides where it
writes (`last_append`). All other writes are `overwritten` (`card_keys_add_overwritten`). -/

namespace Exlic.Lib.Writes

variable {κ γ : Type} [DecidableEq κ]

/-- The value of the last write to `k`, if there is one. -/
def last : List (κ × γ) → κ → Option γ
  | [], _ => none
  | w :: ws, k => (last ws k).or (if w.1 = k then some w.2 else none)

theorem last_append (ws ws' : List (κ × γ)) (k : κ) :
    last (ws ++ ws') k = (last ws' k).or (last ws k) := by
  induction ws with
  | nil => simp [last]
  | cons w ws ih => rw [List.cons_append, last, last, ih, Option.or_assoc]

theorem last_concat_self (ws : List (κ × γ)) (k : κ) (v : γ) :
    last (ws ++ [(k, v)]) k = some v := by
  simp [last_append, last]

theorem last_concat_of_ne (ws : List (κ × γ)) {k k' : κ} (v : γ) (h : k' ≠ k) :
    last (ws ++ [(k', v)]) k = last ws k := by
  simp [last_append, last, h]

theorem last_eq_none {ws : List (κ × γ)} {k : κ} : last ws k = none ↔ ∀ w ∈ ws, w.1 ≠ k := by
  induction ws with
  | nil => simp [last]
  | cons w ws ih =>
    rw [last, Option.or_eq_none_iff, ih, List.forall_mem_cons, and_comm]
    simp

/-- **The last write** is the one that no later one replaces. -/
theorem last_eq_some {ws : List (κ × γ)} {k : κ} {v : γ} : last ws k = some v ↔
    ∃ before after, ws = before ++ (k, v) :: after ∧ ∀ w ∈ after, w.1 ≠ k := by
  constructor
  · intro h
    induction ws with
    | nil => cases h
    | cons w ws ih =>
      rw [last] at h
      rcases hrest : last ws k with _ | v'
      · rw [hrest, Option.none_or] at h
        split_ifs at h with hk
        obtain rfl := Option.some.inj h
        exact ⟨[], ws, by rw [← hk]; rfl, last_eq_none.mp hrest⟩
      · rw [hrest, Option.some_or] at h
        obtain ⟨before, after, rfl, hafter⟩ := ih (hrest.trans h)
        exact ⟨w :: before, after, rfl, hafter⟩
  · rintro ⟨before, after, rfl, hafter⟩
    rw [last_append, last, last_eq_none.mpr hafter]
    simp

theorem mem_of_last {ws : List (κ × γ)} {k : κ} {v : γ} (h : last ws k = some v) :
    (k, v) ∈ ws := by
  obtain ⟨before, after, rfl, -⟩ := last_eq_some.mp h
  simp

/-- Where all writes agree, the last one does. -/
theorem last_of_agree {ws : List (κ × γ)} {k : κ} {v : γ} (hmem : (k, v) ∈ ws)
    (hagree : ∀ v', (k, v') ∈ ws → v' = v) : last ws k = some v := by
  rcases h : last ws k with _ | v'
  · exact absurd rfl (last_eq_none.mp h _ hmem)
  · rw [hagree v' (mem_of_last h)]

/-- Renaming the keys changes nothing else. -/
theorem last_map_injective {κ' : Type} [DecidableEq κ'] {f : κ → κ'} (hf : Function.Injective f)
    (ws : List (κ × γ)) (k : κ) : last (ws.map (Prod.map f id)) (f k) = last ws k := by
  induction ws with
  | nil => rfl
  | cons w ws ih =>
    rw [List.map_cons, last, last, ih, Prod.map_fst, Prod.map_snd]
    simp only [hf.eq_iff, id_eq]

/-- Only the writes to some keys matter for these keys, and they may be renamed. -/
theorem last_filter {α κ' : Type} [DecidableEq κ'] {p : α → Prop} [DecidablePred p] {key : α → κ}
    {key' : α → κ'} {value : α → γ} {k : κ} {k' : κ'} {xs : List α}
    (h : ∀ x ∈ xs, key x = k ↔ p x ∧ key' x = k') :
    last (xs.map fun x => (key x, value x)) k =
      last ((xs.filter p).map fun x => (key' x, value x)) k' := by
  induction xs with
  | nil => rfl
  | cons x xs ih =>
    have hx := h x List.mem_cons_self
    have hxs := ih fun y hy => h y (List.mem_cons_of_mem x hy)
    by_cases hp : p x
    · rw [List.filter_cons_of_pos (by simpa using hp), List.map_cons, List.map_cons, last, last,
        hxs]
      simp only [hx, hp, true_and]
    · rw [List.filter_cons_of_neg (by simpa using hp), List.map_cons, last, hxs]
      simp only [hx, hp, false_and, if_false, Option.or_none]

theorem isSome_last {ws : List (κ × γ)} {k : κ} : (last ws k).isSome ↔ k ∈ ws.map Prod.fst := by
  rw [Option.isSome_iff_ne_none, Ne, last_eq_none, List.mem_map]
  push Not
  rfl

/-- The writes that a later one to the same key replaces. -/
def overwritten : List (κ × γ) → List (κ × γ)
  | [] => []
  | w :: ws =>
    if w.1 ∈ (ws.map Prod.fst).toFinset then w :: overwritten ws else overwritten ws

/-- **A write is the last one to its key, or it is overwritten.** -/
theorem card_keys_add_overwritten : ∀ ws : List (κ × γ),
    (ws.map Prod.fst).toFinset.card + (overwritten ws).length = ws.length
  | [] => rfl
  | w :: ws => by
    have ih := card_keys_add_overwritten ws
    rw [List.map_cons, List.toFinset_cons, overwritten, List.length_cons]
    split_ifs with h
    · rw [Finset.insert_eq_of_mem h, List.length_cons]
      omega
    · rw [Finset.card_insert_of_notMem h]
      omega

end Exlic.Lib.Writes
