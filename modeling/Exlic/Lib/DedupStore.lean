import Mathlib.Data.Finmap
import Exlic.Lib.Firsts

/-! # A store that keeps each content once

Items `(k, c)` are added in order. A content that is known is skipped; a new one is put at its
place `k`, over whatever was kept there. The structure `Store` carries what holds of every such
store: as many contents were saved as are known, and a content is kept at one place at most.

* `keys_run`: the places in use are those of the first occurrences of contents.
* `card_region_iff`: as many places of a region are in use as contents were saved exactly if the
  places of the first occurrences are distinct and lie in the region. So contents are lost exactly
  by two first occurrences at one place.
* `exists_lookup_iff`, `saved_perm`, `skipped_perm`: if the first occurrences have distinct places,
  which contents are kept does not depend on the order of the items; how many were saved and
  skipped never does. -/

namespace Exlic.Lib.DedupStore

open Exlic.Lib.Firsts

variable {κ γ : Type} [DecidableEq κ] [DecidableEq γ]

/-- A store of contents at places. -/
structure Store (κ γ : Type) [DecidableEq κ] [DecidableEq γ] where
  known : Finset γ
  files : Finmap fun _ : κ => γ
  saved : ℕ
  skipped : ℕ
  saved_eq : saved = known.card
  known_of_file : ∀ k c, files.lookup k = some c → c ∈ known
  file_inj : ∀ k k' c, files.lookup k = some c → files.lookup k' = some c → k = k'

namespace Store

/-- The store before the first item. -/
def empty : Store κ γ where
  known := ∅
  files := ∅
  saved := 0
  skipped := 0
  saved_eq := rfl
  known_of_file := by simp
  file_inj := by simp

/-- A known content is skipped. -/
def skip (s : Store κ γ) : Store κ γ := { s with skipped := s.skipped + 1 }

/-- A new content is put at its place. -/
def save (s : Store κ γ) (k : κ) (c : γ) (hc : c ∉ s.known) : Store κ γ where
  known := insert c s.known
  files := s.files.insert k c
  saved := s.saved + 1
  skipped := s.skipped
  saved_eq := by rw [Finset.card_insert_of_notMem hc, s.saved_eq]
  known_of_file := by
    intro k' c' h
    by_cases hk : k' = k
    · rw [hk, Finmap.lookup_insert] at h
      cases h
      exact Finset.mem_insert_self _ _
    · rw [Finmap.lookup_insert_of_ne _ hk] at h
      exact Finset.mem_insert_of_mem (s.known_of_file k' c' h)
  file_inj := by
    -- a place that keeps its old content keeps one that was known, so not `c`
    have hold : ∀ k', k' ≠ k → (s.files.insert k c).lookup k' ≠ some c := by
      intro k' hk h
      rw [Finmap.lookup_insert_of_ne _ hk] at h
      exact hc (s.known_of_file k' c h)
    intro k₁ k₂ c' h₁ h₂
    by_cases hk₁ : k₁ = k
    · by_cases hk₂ : k₂ = k
      · rw [hk₁, hk₂]
      · rw [hk₁, Finmap.lookup_insert] at h₁
        cases h₁
        exact absurd h₂ (hold k₂ hk₂)
    · by_cases hk₂ : k₂ = k
      · rw [hk₂, Finmap.lookup_insert] at h₂
        cases h₂
        exact absurd h₁ (hold k₁ hk₁)
      · rw [Finmap.lookup_insert_of_ne _ hk₁] at h₁
        rw [Finmap.lookup_insert_of_ne _ hk₂] at h₂
        exact s.file_inj k₁ k₂ c' h₁ h₂

/-- One item. -/
def add (s : Store κ γ) (i : κ × γ) : Store κ γ :=
  if h : i.2 ∈ s.known then s.skip else s.save i.1 i.2 h

theorem add_of_mem {s : Store κ γ} {i : κ × γ} (h : i.2 ∈ s.known) : s.add i = s.skip := by
  rw [add, dif_pos h]

theorem add_of_notMem {s : Store κ γ} {i : κ × γ} (h : i.2 ∉ s.known) :
    s.add i = s.save i.1 i.2 h := by
  rw [add, dif_neg h]

/-- All items, in order. -/
def addAll (s : Store κ γ) (is : List (κ × γ)) : Store κ γ := is.foldl add s

theorem addAll_cons (s : Store κ γ) (i : κ × γ) (is : List (κ × γ)) :
    s.addAll (i :: is) = (s.add i).addAll is := rfl

theorem known_add (s : Store κ γ) (i : κ × γ) : (s.add i).known = insert i.2 s.known := by
  by_cases h : i.2 ∈ s.known
  · rw [add_of_mem h, Finset.insert_eq_of_mem h]; rfl
  · rw [add_of_notMem h]; rfl

theorem count_add (s : Store κ γ) (i : κ × γ) :
    (s.add i).saved + (s.add i).skipped = s.saved + s.skipped + 1 := by
  by_cases h : i.2 ∈ s.known
  · rw [add_of_mem h]; simp only [skip]; omega
  · rw [add_of_notMem h]; simp only [save]; omega

theorem known_addAll : ∀ (is : List (κ × γ)) (s : Store κ γ),
    (s.addAll is).known = s.known ∪ (is.map Prod.snd).toFinset
  | [], s => by simp [addAll]
  | i :: is, s => by
    rw [addAll_cons, known_addAll is, known_add, List.map_cons, List.toFinset_cons,
      Finset.union_insert, Finset.insert_union]

theorem count_addAll : ∀ (is : List (κ × γ)) (s : Store κ γ),
    (s.addAll is).saved + (s.addAll is).skipped = s.saved + s.skipped + is.length
  | [], s => rfl
  | i :: is, s => by
    have h := count_addAll is (s.add i)
    rw [addAll_cons, h, count_add, List.length_cons]
    omega

/-- Later first occurrences are put over earlier ones. -/
theorem files_addAll : ∀ (is : List (κ × γ)) (s : Store κ γ),
    (s.addAll is).files =
      (firsts Prod.snd s.known is).foldl (fun m i => m.insert i.1 i.2) s.files
  | [], s => rfl
  | i :: is, s => by
    rw [addAll_cons, files_addAll is]
    by_cases h : i.2 ∈ s.known
    · rw [add_of_mem h, firsts_cons_of_mem _ _ h]; rfl
    · rw [add_of_notMem h, firsts_cons_of_notMem _ _ h]; rfl

end Store

open Store

/-! ### What is kept after all items -/

/-- The first occurrences of contents. -/
abbrev news (is : List (κ × γ)) : List (κ × γ) := firsts Prod.snd ∅ is

/-- The store after all items. -/
def run (is : List (κ × γ)) : Store κ γ := (empty : Store κ γ).addAll is

theorem known_run (is : List (κ × γ)) : (run is).known = (is.map Prod.snd).toFinset := by
  rw [run, known_addAll]; simp [empty]

theorem count_run (is : List (κ × γ)) : (run is).saved + (run is).skipped = is.length := by
  rw [run, count_addAll]; simp [empty]

theorem saved_run (is : List (κ × γ)) : (run is).saved = (news is).length := by
  rw [saved_eq, known_run, length_firsts]

omit [DecidableEq γ] in
theorem keys_foldl_insert : ∀ (is : List (κ × γ)) (m : Finmap fun _ : κ => γ),
    (is.foldl (fun m i => m.insert i.1 i.2) m).keys = m.keys ∪ (is.map Prod.fst).toFinset
  | [], m => by simp
  | i :: is, m => by
    rw [List.foldl_cons, keys_foldl_insert is]
    ext k
    simp [Finmap.mem_keys, or_assoc]

/-- The places in use are those of the first occurrences. -/
theorem keys_run (is : List (κ × γ)) :
    (run is).files.keys = ((news is).map Prod.fst).toFinset := by
  rw [run, files_addAll, keys_foldl_insert]
  simp [empty]

omit [DecidableEq γ] in
theorem lookup_foldl_insert_of_notMem : ∀ (is : List (κ × γ)) (m : Finmap fun _ : κ => γ) (k : κ),
    k ∉ is.map Prod.fst → (is.foldl (fun m i => m.insert i.1 i.2) m).lookup k = m.lookup k
  | [], m, k, _ => rfl
  | i :: is, m, k, hk => by
    rw [List.map_cons, List.mem_cons, not_or] at hk
    rw [List.foldl_cons, lookup_foldl_insert_of_notMem is _ k hk.2,
      Finmap.lookup_insert_of_ne _ hk.1]

omit [DecidableEq γ] in
theorem lookup_foldl_insert : ∀ {is : List (κ × γ)} {m : Finmap fun _ : κ => γ} {i : κ × γ},
    (is.map Prod.fst).Nodup → i ∈ is →
      (is.foldl (fun m i => m.insert i.1 i.2) m).lookup i.1 = some i.2
  | j :: is, m, i, hn, hi => by
    rw [List.map_cons, List.nodup_cons] at hn
    rw [List.foldl_cons]
    rcases List.mem_cons.mp hi with rfl | hi
    · rw [lookup_foldl_insert_of_notMem is _ _ hn.1, Finmap.lookup_insert]
    · exact lookup_foldl_insert hn.2 hi

/-- First occurrences at distinct places are all kept. -/
theorem lookup_run {is : List (κ × γ)} (hn : ((news is).map Prod.fst).Nodup) {i : κ × γ}
    (hi : i ∈ news is) : (run is).files.lookup i.1 = some i.2 := by
  rw [run, files_addAll]
  exact lookup_foldl_insert hn hi

/-- If the first occurrences have distinct places, every content is kept at one of them. -/
theorem exists_place {is : List (κ × γ)} (hn : ((news is).map Prod.fst).Nodup) {i : κ × γ}
    (hi : i ∈ is) : ∃ j ∈ news is, (run is).files.lookup j.1 = some i.2 := by
  obtain ⟨j, hj, hji⟩ := exists_mem_firsts Prod.snd hi
  exact ⟨j, hj, by rw [lookup_run hn hj, hji]⟩

/-- **When nothing is lost.** As many places of the region `P` are in use as contents were saved
exactly if the first occurrences have distinct places, all in `P`. -/
theorem card_region_iff (is : List (κ × γ)) (P : κ → Prop) [DecidablePred P] :
    ((run is).files.keys.filter P).card = (run is).saved ↔
      ((news is).map Prod.fst).Nodup ∧ ∀ i ∈ news is, P i.1 := by
  have hlen : (run is).saved = ((news is).map Prod.fst).length := by
    rw [saved_run, List.length_map]
  have hle : (run is).files.keys.card ≤ (run is).saved := by
    rw [keys_run, hlen]
    exact List.toFinset_card_le _
  have hnodup : (run is).files.keys.card = (run is).saved ↔ ((news is).map Prod.fst).Nodup := by
    rw [keys_run, hlen]
    exact Multiset.toFinset_card_eq_card_iff_nodup.trans Multiset.coe_nodup
  have hregion : ((run is).files.keys.filter P).card = (run is).files.keys.card ↔
      ∀ i ∈ news is, P i.1 := by
    rw [Finset.card_filter_eq_iff, keys_run]
    simp only [List.mem_toFinset, List.mem_map]
    exact ⟨fun h i hi => h i.1 ⟨i, hi, rfl⟩, by rintro h _ ⟨i, hi, rfl⟩; exact h i hi⟩
  have hfilter := Finset.card_filter_le (run is).files.keys P
  rw [← hnodup, ← hregion]
  omega

/-! ### What does not depend on the order -/

section apart

variable {is : List (κ × γ)} (hn : ((news is).map Prod.fst).Nodup)
include hn

/-- **What is kept** if the first occurrences have distinct places: the contents of all items. -/
theorem exists_lookup_iff (c : γ) :
    (∃ k, (run is).files.lookup k = some c) ↔ c ∈ is.map Prod.snd := by
  constructor
  · rintro ⟨k, hk⟩
    have hm := (run is).known_of_file k c hk
    rw [known_run] at hm
    exact List.mem_toFinset.mp hm
  · intro hc
    obtain ⟨i, hi, rfl⟩ := List.mem_map.mp hc
    obtain ⟨j, -, hj⟩ := exists_place hn hi
    exact ⟨j.1, hj⟩

end apart

theorem saved_perm {is js : List (κ × γ)} (h : is.Perm js) : (run is).saved = (run js).saved := by
  rw [saved_run, saved_run]
  exact firsts_perm_length Prod.snd h

theorem skipped_perm {is js : List (κ × γ)} (h : is.Perm js) :
    (run is).skipped = (run js).skipped := by
  have h1 := count_run is
  have h2 := count_run js
  have h3 := saved_perm h
  have h4 := h.length_eq
  omega

end Exlic.Lib.DedupStore
