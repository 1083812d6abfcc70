import Mathlib.Data.Finset.Card
import Mathlib.Data.Finset.Image
import Mathlib.Data.Finset.Dedup

/-! # First occurrences

`firsts key seen as` keeps of a list the elements whose key is neither in `seen` nor the key of an
element before. No two of them share a key (`nodup_firsts`), and every new key is the key of one of
them (`keys_firsts`), so their number depends only on the set of keys (`length_firsts`). -/

namespace Exlic.Lib.Firsts

variable {α γ δ : Type} [DecidableEq γ] [DecidableEq δ] (key : α → γ)

/-- The elements that are the first with their key. -/
def firsts : Finset γ → List α → List α
  | _, [] => []
  | seen, a :: as =>
    if key a ∈ seen then firsts seen as else a :: firsts (insert (key a) seen) as

theorem firsts_cons_of_mem {seen : Finset γ} {a : α} (as : List α) (h : key a ∈ seen) :
    firsts key seen (a :: as) = firsts key seen as := by
  rw [firsts, if_pos h]

theorem firsts_cons_of_notMem {seen : Finset γ} {a : α} (as : List α) (h : key a ∉ seen) :
    firsts key seen (a :: as) = a :: firsts key (insert (key a) seen) as := by
  rw [firsts, if_neg h]

theorem firsts_append : ∀ (as bs : List α) (seen : Finset γ),
    firsts key seen (as ++ bs) =
      firsts key seen as ++ firsts key (seen ∪ (as.map key).toFinset) bs
  | [], bs, seen => by simp [firsts]
  | a :: as, bs, seen => by
    have hu : ∀ s : Finset γ, insert (key a) s ∪ (as.map key).toFinset =
        s ∪ ((a :: as).map key).toFinset := by
      intro s; ext c; simp
    rw [List.cons_append]
    by_cases h : key a ∈ seen
    · rw [firsts_cons_of_mem key _ h, firsts_cons_of_mem key _ h, firsts_append as bs seen, ← hu,
        Finset.insert_eq_of_mem h]
    · rw [firsts_cons_of_notMem key _ h, firsts_cons_of_notMem key _ h, firsts_append as bs _, hu]
      rfl

theorem firsts_sublist : ∀ (as : List α) (seen : Finset γ), (firsts key seen as).Sublist as
  | [], _ => List.Sublist.refl _
  | a :: as, seen => by
    by_cases h : key a ∈ seen
    · rw [firsts_cons_of_mem key _ h]
      exact (firsts_sublist as seen).cons a
    · rw [firsts_cons_of_notMem key _ h]
      exact (firsts_sublist as _).cons_cons a

theorem mem_of_mem_firsts {as : List α} {seen : Finset γ} {a : α} (h : a ∈ firsts key seen as) :
    a ∈ as := (firsts_sublist key as seen).subset h

theorem notMem_of_mem_firsts : ∀ {as : List α} {seen : Finset γ} {a : α},
    a ∈ firsts key seen as → key a ∉ seen
  | [], _, _, h => by simp [firsts] at h
  | b :: as, seen, a, h => by
    by_cases hb : key b ∈ seen
    · rw [firsts_cons_of_mem key _ hb] at h
      exact notMem_of_mem_firsts h
    · rw [firsts_cons_of_notMem key _ hb] at h
      rcases List.mem_cons.mp h with rfl | h
      · exact hb
      · exact fun ha => notMem_of_mem_firsts h (Finset.mem_insert_of_mem ha)

/-- **No two first occurrences share a key.** -/
theorem nodup_firsts : ∀ (as : List α) (seen : Finset γ), ((firsts key seen as).map key).Nodup
  | [], _ => List.nodup_nil
  | a :: as, seen => by
    by_cases h : key a ∈ seen
    · rw [firsts_cons_of_mem key _ h]
      exact nodup_firsts as seen
    · rw [firsts_cons_of_notMem key _ h, List.map_cons, List.nodup_cons]
      refine ⟨fun hm => ?_, nodup_firsts as _⟩
      obtain ⟨b, hb, hab⟩ := List.mem_map.mp hm
      exact notMem_of_mem_firsts key hb (hab ▸ Finset.mem_insert_self _ _)

/-- **Every new key is the key of a first occurrence.** -/
theorem keys_firsts : ∀ (as : List α) (seen : Finset γ),
    seen ∪ ((firsts key seen as).map key).toFinset = seen ∪ (as.map key).toFinset
  | [], _ => rfl
  | a :: as, seen => by
    by_cases h : key a ∈ seen
    · rw [firsts_cons_of_mem key _ h, keys_firsts as seen, List.map_cons, List.toFinset_cons,
        Finset.union_insert, Finset.insert_eq_of_mem (Finset.mem_union_left _ h)]
    · rw [firsts_cons_of_notMem key _ h, List.map_cons, List.map_cons, List.toFinset_cons,
        List.toFinset_cons, Finset.union_insert, Finset.union_insert, ← Finset.insert_union,
        keys_firsts as _, Finset.insert_union]

theorem keys_firsts_empty (as : List α) :
    ((firsts key ∅ as).map key).toFinset = (as.map key).toFinset := by
  simpa using keys_firsts key as ∅

theorem exists_mem_firsts {as : List α} {a : α} (h : a ∈ as) :
    ∃ b ∈ firsts key ∅ as, key b = key a := by
  have hm : key a ∈ ((firsts key ∅ as).map key).toFinset := by
    rw [keys_firsts_empty]
    exact List.mem_toFinset.mpr (List.mem_map_of_mem h)
  exact List.mem_map.mp (List.mem_toFinset.mp hm)

/-- **The number of first occurrences** is the number of keys. -/
theorem length_firsts (as : List α) :
    (firsts key ∅ as).length = (as.map key).toFinset.card := by
  rw [← keys_firsts_empty, List.toFinset_card_of_nodup (nodup_firsts key as ∅), List.length_map]

theorem eq_of_mem_firsts {as : List α} {seen : Finset γ} {a b : α}
    (ha : a ∈ firsts key seen as) (hb : b ∈ firsts key seen as) (h : key a = key b) : a = b :=
  List.inj_on_of_nodup_map (nodup_firsts key as seen) ha hb h

theorem firsts_perm_length {as bs : List α} (h : as.Perm bs) :
    (firsts key ∅ as).length = (firsts key ∅ bs).length := by
  rw [length_firsts, length_firsts, List.toFinset_eq_of_perm _ _ (h.map key)]

/-- The element after `as` is kept exactly if its key is new. -/
theorem firsts_concat (as : List α) (a : α) (seen : Finset γ) :
    firsts key seen (as ++ [a]) =
      if key a ∈ seen ∪ (as.map key).toFinset then firsts key seen as
      else firsts key seen as ++ [a] := by
  rw [firsts_append]
  split_ifs with h
  · rw [firsts_cons_of_mem key _ h]; simp [firsts]
  · rw [firsts_cons_of_notMem key _ h]; simp [firsts]

/-- The more keys are seen already, the fewer elements are kept. -/
theorem mem_firsts_of_subset : ∀ {as : List α} {seen seen' : Finset γ} {a : α}, seen' ⊆ seen →
    a ∈ firsts key seen as → a ∈ firsts key seen' as
  | [], _, _, _, _, h => by simp [firsts] at h
  | b :: as, seen, seen', a, hsub, h => by
    by_cases hb : key b ∈ seen'
    · rw [firsts_cons_of_mem key _ (hsub hb)] at h
      rw [firsts_cons_of_mem key _ hb]
      exact mem_firsts_of_subset hsub h
    · rw [firsts_cons_of_notMem key _ hb, List.mem_cons]
      by_cases hb' : key b ∈ seen
      · rw [firsts_cons_of_mem key _ hb'] at h
        refine Or.inr (mem_firsts_of_subset ?_ h)
        exact Finset.insert_subset hb' hsub
      · rw [firsts_cons_of_notMem key _ hb', List.mem_cons] at h
        exact h.imp_right (mem_firsts_of_subset (Finset.insert_subset_insert _ hsub))

/-- Keys that are told apart alike keep the same elements. -/
theorem firsts_congr {key' : α → δ} : ∀ {as : List α} {seen : Finset γ} {seen' : Finset δ},
    (∀ a ∈ as, key a ∈ seen ↔ key' a ∈ seen') →
    (∀ a ∈ as, ∀ b ∈ as, key a = key b ↔ key' a = key' b) →
    firsts key seen as = firsts key' seen' as
  | [], _, _, _, _ => rfl
  | a :: as, seen, seen', hs, hk => by
    have hk' : ∀ b ∈ as, ∀ c ∈ as, key b = key c ↔ key' b = key' c := fun b hb c hc =>
      hk b (List.mem_cons_of_mem a hb) c (List.mem_cons_of_mem a hc)
    have ha := hs a (by simp)
    by_cases h : key a ∈ seen
    · rw [firsts_cons_of_mem key _ h, firsts_cons_of_mem key' _ (ha.mp h)]
      exact firsts_congr (fun b hb => hs b (List.mem_cons_of_mem a hb)) hk'
    · rw [firsts_cons_of_notMem key _ h, firsts_cons_of_notMem key' _ (fun h' => h (ha.mpr h'))]
      congr 1
      refine firsts_congr (fun b hb => ?_) hk'
      rw [Finset.mem_insert, Finset.mem_insert, hs b (List.mem_cons_of_mem a hb),
        hk b (List.mem_cons_of_mem a hb) a (by simp)]

theorem firsts_map {β : Type} (f : β → α) : ∀ (bs : List β) (seen : Finset γ),
    firsts key seen (bs.map f) = (firsts (fun b => key (f b)) seen bs).map f
  | [], _ => rfl
  | b :: bs, seen => by
    rw [List.map_cons]
    by_cases h : key (f b) ∈ seen
    · rw [firsts_cons_of_mem key _ h, firsts_cons_of_mem (fun b => key (f b)) _ h,
        firsts_map f bs seen]
    · rw [firsts_cons_of_notMem key _ h, firsts_cons_of_notMem (fun b => key (f b)) _ h,
        firsts_map f bs _, List.map_cons]

end Exlic.Lib.Firsts
