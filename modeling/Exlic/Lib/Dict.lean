import Mathlib.Data.List.Basic
import Mathlib.Data.List.Induction
import Mathlib.Data.List.Nodup

/-! # Dicts as lists of pairs

A dict lists its pairs in the order in which their keys came in. `setItem` replaces the value of a
key in place, or puts a new pair at the end; `dictOf` builds a dict from pairs, so of equal keys the
last value wins at the first place.

`length_items_dictOf`: if the values are lists, building the dict loses elements exactly if a value
that is not empty is replaced. -/

namespace Exlic.Lib.Dict

variable {κ α β : Type} [DecidableEq κ]

/-- `d[k] = v`. -/
def setItem : List (κ × α) → κ → α → List (κ × α)
  | [], k, v => [(k, v)]
  | (k', v') :: d, k, v => if k' = k then (k', v) :: d else (k', v') :: setItem d k v

/-- `dict(kvs)`. -/
def dictOf (kvs : List (κ × α)) : List (κ × α) := kvs.foldl (fun d kv => setItem d kv.1 kv.2) []

@[simp] theorem dictOf_nil : dictOf ([] : List (κ × α)) = [] := rfl

theorem dictOf_concat (kvs : List (κ × α)) (kv : κ × α) :
    dictOf (kvs ++ [kv]) = setItem (dictOf kvs) kv.1 kv.2 := by
  simp [dictOf]

theorem setItem_of_notMem : ∀ {d : List (κ × α)} {k : κ} (v : α), k ∉ d.map Prod.fst →
    setItem d k v = d ++ [(k, v)]
  | [], _, _, _ => rfl
  | (k', v') :: d, k, v, h => by
    rw [List.map_cons, List.mem_cons, not_or] at h
    rw [setItem, if_neg (fun he => h.1 he.symm), setItem_of_notMem v h.2]
    rfl

theorem keys_setItem_of_mem : ∀ {d : List (κ × α)} {k : κ} (v : α), k ∈ d.map Prod.fst →
    (setItem d k v).map Prod.fst = d.map Prod.fst
  | (k', v') :: d, k, v, h => by
    rw [setItem]
    split_ifs with hk
    · rfl
    · rw [List.map_cons, List.mem_cons] at h
      rw [List.map_cons, keys_setItem_of_mem v (h.resolve_left fun he => hk he.symm)]
      rfl

theorem nodup_setItem {d : List (κ × α)} (h : (d.map Prod.fst).Nodup) (k : κ) (v : α) :
    ((setItem d k v).map Prod.fst).Nodup := by
  by_cases hk : k ∈ d.map Prod.fst
  · rw [keys_setItem_of_mem v hk]; exact h
  · rw [setItem_of_notMem v hk, List.map_append]
    exact h.append (List.nodup_singleton k) (by simpa using hk)

/-- The keys of a dict are distinct. -/
theorem nodup_dictOf (kvs : List (κ × α)) : ((dictOf kvs).map Prod.fst).Nodup := by
  induction kvs using List.reverseRecOn with
  | nil => exact List.nodup_nil
  | append_singleton kvs kv ih =>
    rw [dictOf_concat]
    exact nodup_setItem ih _ _

/-- **Distinct keys lose nothing.** -/
theorem dictOf_eq_self {kvs : List (κ × α)} (h : (kvs.map Prod.fst).Nodup) : dictOf kvs = kvs := by
  induction kvs using List.reverseRecOn with
  | nil => rfl
  | append_singleton kvs kv ih =>
    rw [List.map_append, List.map_singleton, List.nodup_append] at h
    have hk : kv.1 ∉ kvs.map Prod.fst := fun hm => h.2.2 _ hm _ (by simp) rfl
    rw [dictOf_concat, ih h.1, setItem_of_notMem _ hk]

theorem setItem_map (f : α → β) : ∀ (d : List (κ × α)) (k : κ) (v : α),
    setItem (d.map fun kv => (kv.1, f kv.2)) k (f v) =
      (setItem d k v).map fun kv => (kv.1, f kv.2)
  | [], _, _ => rfl
  | (k', v') :: d, k, v => by
    rw [List.map_cons, setItem, setItem]
    split_ifs with hk
    · rfl
    · rw [setItem_map f d k v]; rfl

theorem dictOf_map (f : α → β) (kvs : List (κ × α)) :
    dictOf (kvs.map fun kv => (kv.1, f kv.2)) = (dictOf kvs).map fun kv => (kv.1, f kv.2) := by
  induction kvs using List.reverseRecOn with
  | nil => rfl
  | append_singleton kvs kv ih =>
    rw [List.map_append, List.map_singleton, dictOf_concat, dictOf_concat, ih, setItem_map]

theorem mem_setItem : ∀ {d : List (κ × α)} {k : κ} {v : α} {x : κ × α}, (d.map Prod.fst).Nodup →
    (x ∈ setItem d k v ↔ x = (k, v) ∨ x ∈ d ∧ x.1 ≠ k)
  | [], k, v, x, _ => by simp [setItem]
  | (k', v') :: d, k, v, x, h => by
    rw [List.map_cons, List.nodup_cons] at h
    rw [setItem]
    split_ifs with hk
    · subst hk
      -- the other keys of `d` differ from the one that is replaced
      have hd : x ∈ d → x.1 ≠ k' := fun hx he =>
        h.1 (List.mem_map.mpr ⟨x, hx, he⟩)
      rw [List.mem_cons, List.mem_cons]
      constructor
      · rintro (rfl | hx)
        · exact Or.inl rfl
        · exact Or.inr ⟨Or.inr hx, hd hx⟩
      · rintro (rfl | ⟨rfl | hx, hne⟩)
        · exact Or.inl rfl
        · exact absurd rfl hne
        · exact Or.inr hx
    · rw [List.mem_cons, List.mem_cons, mem_setItem h.2]
      constructor
      · rintro (rfl | rfl | ⟨hx, hne⟩)
        · exact Or.inr ⟨Or.inl rfl, hk⟩
        · exact Or.inl rfl
        · exact Or.inr ⟨Or.inr hx, hne⟩
      · rintro (rfl | ⟨rfl | hx, hne⟩)
        · exact Or.inr (Or.inl rfl)
        · exact Or.inl rfl
        · exact Or.inr (Or.inr ⟨hx, hne⟩)

theorem mem_of_mem_dictOf {kvs : List (κ × α)} {x : κ × α} (h : x ∈ dictOf kvs) : x ∈ kvs := by
  induction kvs using List.reverseRecOn with
  | nil => exact h
  | append_singleton kvs kv ih =>
    rw [dictOf_concat, mem_setItem (nodup_dictOf kvs)] at h
    rw [List.mem_append, List.mem_singleton]
    rcases h with rfl | ⟨h, -⟩
    · exact Or.inr rfl
    · exact Or.inl (ih h)

theorem mem_of_lookup {d : List (κ × α)} {k : κ} {v : α} (h : d.lookup k = some v) :
    (k, v) ∈ d := by
  obtain ⟨l₁, l₂, hl, -⟩ := List.lookup_eq_some_iff.mp h
  rw [hl]; simp

theorem lookup_of_mem : ∀ {d : List (κ × α)} {a : κ × α}, (d.map Prod.fst).Nodup → a ∈ d →
    d.lookup a.1 = some a.2
  | (k, v) :: d, a, h, ha => by
    rw [List.map_cons, List.nodup_cons] at h
    rcases List.mem_cons.mp ha with rfl | ha
    · exact List.lookup_cons_self
    · have hne : a.1 ≠ k := fun he => h.1 (List.mem_map.mpr ⟨a, ha, he⟩)
      rw [List.lookup_cons, beq_false_of_ne hne]
      exact lookup_of_mem h.2 ha

/-! ### Dicts of lists -/

/-- The elements of all values. -/
def items (d : List (κ × List α)) : List α := d.flatMap Prod.snd

/-- No value but an empty one has a later value of the same key. -/
def Unmerged (kvs : List (κ × List α)) : Prop := kvs.Pairwise fun a b => a.1 = b.1 → a.2 = []

instance [DecidableEq α] (kvs : List (κ × List α)) : Decidable (Unmerged kvs) := by
  unfold Unmerged; infer_instance

omit [DecidableEq κ] in
theorem items_concat (kvs : List (κ × List α)) (kv : κ × List α) :
    items (kvs ++ [kv]) = items kvs ++ kv.2 := by
  simp [items]

omit [DecidableEq κ] in
theorem unmerged_concat {kvs : List (κ × List α)} {kv : κ × List α} :
    Unmerged (kvs ++ [kv]) ↔ Unmerged kvs ∧ ∀ a ∈ kvs, a.1 = kv.1 → a.2 = [] := by
  unfold Unmerged
  rw [List.pairwise_append]
  simp

theorem mem_dictOf_or_nil {kvs : List (κ × List α)} (h : Unmerged kvs) {a : κ × List α}
    (ha : a ∈ kvs) : a ∈ dictOf kvs ∨ a.2 = [] := by
  induction kvs using List.reverseRecOn with
  | nil => cases ha
  | append_singleton kvs kv ih =>
    rw [unmerged_concat] at h
    rw [dictOf_concat, mem_setItem (nodup_dictOf kvs)]
    rw [List.mem_append, List.mem_singleton] at ha
    rcases ha with ha | rfl
    · rcases ih h.1 ha with hm | hm
      · by_cases hk : a.1 = kv.1
        · exact Or.inr (h.2 a ha hk)
        · exact Or.inl (Or.inr ⟨hm, hk⟩)
      · exact Or.inr hm
    · exact Or.inl (Or.inl rfl)

theorem mem_items_dictOf {kvs : List (κ × List α)} (h : Unmerged kvs) {x : α} :
    x ∈ items (dictOf kvs) ↔ x ∈ items kvs := by
  unfold items
  simp only [List.mem_flatMap]
  constructor
  · rintro ⟨a, ha, hx⟩
    exact ⟨a, mem_of_mem_dictOf ha, hx⟩
  · rintro ⟨a, ha, hx⟩
    rcases mem_dictOf_or_nil h ha with hm | hm
    · exact ⟨a, hm, hx⟩
    · rw [hm] at hx
      cases hx

/-- A key that is set gives up its old value. -/
theorem length_items_setItem : ∀ {d : List (κ × List α)} {k : κ} (v : List α),
    (items (setItem d k v)).length + ((d.lookup k).getD []).length =
      (items d).length + v.length
  | [], k, v => by simp [items, setItem]
  | (k', v') :: d, k, v => by
    rw [setItem]
    split_ifs with hk
    · subst hk
      rw [List.lookup_cons_self]
      simp [items]
      omega
    · have hb : (k == k') = false := beq_false_of_ne fun he => hk he.symm
      have ih := length_items_setItem (d := d) (k := k) v
      rw [List.lookup_cons, hb]
      simp only [items, List.flatMap_cons, List.length_append] at ih ⊢
      omega

/-- **What building a dict of lists loses.** -/
theorem length_items_dictOf (kvs : List (κ × List α)) :
    (items (dictOf kvs)).length ≤ (items kvs).length ∧
      ((items (dictOf kvs)).length = (items kvs).length ↔ Unmerged kvs) := by
  induction kvs using List.reverseRecOn with
  | nil => exact ⟨Nat.le_refl _, by simp [Unmerged]⟩
  | append_singleton kvs kv ih =>
    obtain ⟨hle, heq⟩ := ih
    have hset := length_items_setItem (d := dictOf kvs) (k := kv.1) kv.2
    rw [dictOf_concat, items_concat, List.length_append, unmerged_concat, ← heq]
    refine ⟨by omega, ?_⟩
    have hold : (items (dictOf kvs)).length = (items kvs).length →
        (((dictOf kvs).lookup kv.1).getD [] = [] ↔ ∀ a ∈ kvs, a.1 = kv.1 → a.2 = []) := by
      intro he
      have hu := heq.mp he
      constructor
      · intro hnil a ha hk
        rcases mem_dictOf_or_nil hu ha with hm | hm
        · rw [← hk, lookup_of_mem (nodup_dictOf kvs) hm] at hnil
          exact hnil
        · exact hm
      · intro h
        rcases hl : (dictOf kvs).lookup kv.1 with _ | v
        · rfl
        · exact h (kv.1, v) (mem_of_mem_dictOf (mem_of_lookup hl)) rfl
    constructor
    · intro h
      have he : (items (dictOf kvs)).length = (items kvs).length := by omega
      refine ⟨he, (hold he).mp (List.length_eq_zero_iff.mp (by omega))⟩
    · rintro ⟨he, hk⟩
      have := (hold he).mpr hk
      rw [this, List.length_nil] at hset
      omega

end Exlic.Lib.Dict
