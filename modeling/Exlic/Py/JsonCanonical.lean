import Exlic.Py.JsonTrip
import Mathlib.Data.List.Chain

/-! # Values that `json` returns unchanged

A string is `Unpaired` if no high surrogate has a low one right after it; a value is `Canonical` if
its strings are unpaired and the keys of its objects distinct. What `json` returns is canonical
(`canonical_trip`), and the canonical values are those it returns as they were
(`loads_dumps_eq_self_iff`); so a second round changes nothing (`loads_dumps_again`).

`isSome_encode_joinSurrogates`: which strings can be encoded after they went through `json`. -/

namespace Exlic.Py.JsonCanonical

open Exlic.Lib.Dict Exlic.Py.Strings Exlic.Py.Utf8 Exlic.Py.Json Exlic.Py.JsonTrip

/-! ### Strings -/

/-- No high surrogate has a low one right after it. -/
def Unpaired (s : Str) : Prop := s.IsChain fun c d => ¬ (High c ∧ Low d)

instance (s : Str) : Decidable (Unpaired s) := by unfold Unpaired; infer_instance

/-- The character of a pair is no surrogate. -/
theorem val_pair_ge {c d : Code} (hc : High c) (hd : Low d) : 0x10000 ≤ (pair c d).val := by
  obtain ⟨hc1, hc2⟩ := hc
  obtain ⟨hd1, hd2⟩ := hd
  rw [pair, val_code (by omega)]
  omega

theorem not_high_pair {c d : Code} (hc : High c) (hd : Low d) : ¬ High (pair c d) := by
  intro h
  have hge := val_pair_ge hc hd
  have hle := h.2
  omega

theorem not_low_pair {c d : Code} (hc : High c) (hd : Low d) : ¬ Low (pair c d) := by
  intro h
  have hge := val_pair_ge hc hd
  have hle := h.2
  omega

/-- **When joining changes nothing.** -/
theorem joinSurrogates_eq_self_iff : ∀ {s : Str}, joinSurrogates s = s ↔ Unpaired s
  | [] => iff_of_true rfl List.isChain_nil
  | [c] => iff_of_true rfl (List.isChain_singleton c)
  | c :: d :: s => by
    rw [Unpaired, List.isChain_cons_cons]
    by_cases h : High c ∧ Low d
    · rw [joinSurrogates_pair s h.1 h.2]
      refine iff_of_false (fun he => ?_) fun hj => hj.1 h
      rw [List.cons.injEq] at he
      exact not_high_pair h.1 h.2 (he.1.symm ▸ h.1)
    · rw [joinSurrogates, if_neg h, List.cons.injEq, joinSurrogates_eq_self_iff]
      exact and_congr_left fun _ => iff_of_true rfl h

/-- A low surrogate at the start was there before. -/
theorem head?_of_joinSurrogates {d : Code} (hd : Low d) : ∀ {s : Str},
    d ∈ (joinSurrogates s).head? → d ∈ s.head?
  | [], h => h
  | [c], h => h
  | c :: e :: s, h => by
    by_cases hce : High c ∧ Low e
    · rw [joinSurrogates_pair s hce.1 hce.2, List.head?_cons, Option.mem_some] at h
      rw [← h] at hd
      exact absurd hd (not_low_pair hce.1 hce.2)
    · rwa [joinSurrogates, if_neg hce] at h

/-- **Joining leaves no pair.** -/
theorem unpaired_joinSurrogates : ∀ s : Str, Unpaired (joinSurrogates s)
  | [] => List.isChain_nil
  | [c] => List.isChain_singleton c
  | c :: d :: s => by
    by_cases h : High c ∧ Low d
    · rw [joinSurrogates_pair s h.1 h.2, Unpaired, List.isChain_cons]
      exact ⟨fun e _ he => not_high_pair h.1 h.2 he.1, unpaired_joinSurrogates s⟩
    · rw [joinSurrogates, if_neg h, Unpaired, List.isChain_cons]
      refine ⟨fun e hmem he => h ⟨he.1, ?_⟩, unpaired_joinSurrogates (d :: s)⟩
      have hhead := head?_of_joinSurrogates he.2 hmem
      rw [List.head?_cons, Option.mem_some] at hhead
      rw [hhead]
      exact he.2

/-! ### Values -/

mutual

/-- No string has a surrogate pair, and the keys of every object are distinct. -/
def Canonical : Value → Prop
  | .str s => Unpaired s
  | .arr xs => CanonicalElems xs
  | .obj kvs => (kvs.map Prod.fst).Nodup ∧ CanonicalPairs kvs

def CanonicalElems : List Value → Prop
  | [] => True
  | x :: xs => Canonical x ∧ CanonicalElems xs

def CanonicalPairs : List (Str × Value) → Prop
  | [] => True
  | (k, v) :: kvs => (Unpaired k ∧ Canonical v) ∧ CanonicalPairs kvs

end

theorem canonicalElems_iff : ∀ {xs : List Value}, CanonicalElems xs ↔ ∀ x ∈ xs, Canonical x
  | [] => by simp [CanonicalElems]
  | x :: xs => by rw [CanonicalElems, canonicalElems_iff, List.forall_mem_cons]

theorem canonicalPairs_iff : ∀ {kvs : List (Str × Value)},
    CanonicalPairs kvs ↔ ∀ kv ∈ kvs, Unpaired kv.1 ∧ Canonical kv.2
  | [] => by simp [CanonicalPairs]
  | (k, v) :: kvs => by rw [CanonicalPairs, canonicalPairs_iff, List.forall_mem_cons]

mutual

/-- **What comes back is canonical.** -/
theorem canonical_trip : ∀ v : Value, Canonical (trip v)
  | .str s => by
    rw [trip, Canonical]
    exact unpaired_joinSurrogates s
  | .arr xs => by
    rw [trip, Canonical]
    exact canonical_tripElems xs
  | .obj kvs => by
    rw [trip, Canonical, canonicalPairs_iff]
    have hall := canonicalPairs_iff.mp (canonical_tripPairs kvs)
    exact ⟨nodup_dictOf _, fun kv hkv => hall kv (mem_of_mem_dictOf hkv)⟩

theorem canonical_tripElems : ∀ xs : List Value, CanonicalElems (tripElems xs)
  | [] => by
    rw [tripElems, CanonicalElems]
    trivial
  | x :: xs => by
    rw [tripElems, CanonicalElems]
    exact ⟨canonical_trip x, canonical_tripElems xs⟩

theorem canonical_tripPairs : ∀ kvs : List (Str × Value), CanonicalPairs (tripPairs kvs)
  | [] => by
    rw [tripPairs, CanonicalPairs]
    trivial
  | (k, v) :: kvs => by
    rw [tripPairs, CanonicalPairs]
    exact ⟨⟨unpaired_joinSurrogates k, canonical_trip v⟩, canonical_tripPairs kvs⟩

end

mutual

/-- **Canonical values come back as they were.** -/
theorem trip_of_canonical : ∀ {v : Value}, Canonical v → trip v = v
  | .str s, h => by
    rw [Canonical] at h
    rw [trip, joinSurrogates_eq_self_iff.mpr h]
  | .arr xs, h => by
    rw [Canonical] at h
    rw [trip, tripElems_of_canonical h]
  | .obj kvs, h => by
    rw [Canonical] at h
    rw [trip, tripPairs_of_canonical h.2, dictOf_eq_self h.1]

theorem tripElems_of_canonical : ∀ {xs : List Value}, CanonicalElems xs → tripElems xs = xs
  | [], _ => rfl
  | x :: xs, h => by
    rw [CanonicalElems] at h
    rw [tripElems, trip_of_canonical h.1, tripElems_of_canonical h.2]

theorem tripPairs_of_canonical :
    ∀ {kvs : List (Str × Value)}, CanonicalPairs kvs → tripPairs kvs = kvs
  | [], _ => rfl
  | (k, v) :: kvs, h => by
    rw [CanonicalPairs] at h
    rw [tripPairs, joinSurrogates_eq_self_iff.mpr h.1.1, trip_of_canonical h.1.2,
      tripPairs_of_canonical h.2]

end

theorem trip_eq_self_iff {v : Value} : trip v = v ↔ Canonical v :=
  ⟨fun h => h ▸ canonical_trip v, trip_of_canonical⟩

/-- **The values that `json` returns as they were.** -/
theorem loads_dumps_eq_self_iff {v : Value} : loads (dumps v) = some v ↔ Canonical v := by
  rw [loads_dumps, Option.some.injEq, trip_eq_self_iff]

/-- **A second round changes nothing.** -/
theorem loads_dumps_again {v w : Value} (h : loads (dumps v) = some w) :
    loads (dumps w) = some w := by
  rw [loads_dumps] at h
  obtain rfl := Option.some.inj h
  exact loads_dumps_eq_self_iff.mpr (canonical_trip v)

/-! ### Encoding what came back -/

/-- The surrogates that stand for a byte. -/
def Escaped (c : Code) : Prop := 0xDC80 ≤ c.val ∧ c.val ≤ 0xDCFF

instance (c : Code) : Decidable (Escaped c) := by unfold Escaped; infer_instance

/-- A high surrogate is followed by a low one, and a low one that does not stand for a byte has a
high one before it. -/
def Settled (prev : Option Code) (c : Code) (next : Option Code) : Prop :=
  (High c → ∃ d ∈ next, Low d) ∧ (Low c → Escaped c ∨ ∃ d ∈ prev, High d)

/-- All characters of a string are settled; `prev` is the one before it. -/
def AllSettled : Option Code → Str → Prop
  | _, [] => True
  | prev, c :: s => Settled prev c s.head? ∧ AllSettled (some c) s

theorem not_low_of_high {c : Code} (h : High c) : ¬ Low c := by
  intro hl
  have hle := h.2
  have hge := hl.1
  omega

/-- Only a high surrogate before the string makes a difference. -/
theorem allSettled_of_not_high {c : Code} (h : ¬ High c) (s : Str) :
    AllSettled (some c) s ↔ AllSettled none s := by
  cases s with
  | nil => exact Iff.rfl
  | cons d s =>
    have hprev : (∃ e ∈ some c, High e) ↔ ∃ e ∈ (none : Option Code), High e := by simp [h]
    rw [AllSettled, AllSettled, Settled, Settled, hprev]

theorem isSome_encodeCode {c : Code} : (encodeCode c).isSome ↔ ¬ High c ∧ (Low c → Escaped c) := by
  unfold encodeCode High Low Escaped
  simp only
  split_ifs <;> simp <;> omega

theorem isSome_encode_cons {c : Code} {s : Str} :
    (encode (c :: s)).isSome ↔ (encodeCode c).isSome ∧ (encode s).isSome := by
  rw [encode]
  rcases encodeCode c with _ | b <;> rcases encode s with _ | bs <;> simp

/-- **What can be encoded after `json`.** -/
theorem isSome_encode_joinSurrogates : ∀ s : Str,
    (encode (joinSurrogates s)).isSome ↔ AllSettled none s
  | [] => iff_of_true rfl trivial
  | [c] => by
    rw [joinSurrogates, isSome_encode_cons, isSome_encodeCode]
    simp [encode, AllSettled, Settled]
  | c :: d :: s => by
    have hsplit : AllSettled none (c :: d :: s) ↔
        Settled none c (some d) ∧ AllSettled (some c) (d :: s) := Iff.rfl
    rw [hsplit]
    by_cases h : High c ∧ Low d
    · -- both halves of a pair are settled, and what follows does not see them
      have hd : ¬ High d := fun hh => not_low_of_high hh h.2
      have hc : Settled none c (some d) :=
        ⟨fun _ => ⟨d, rfl, h.2⟩, fun hl => absurd hl (not_low_of_high h.1)⟩
      have hd' : Settled (some c) d s.head? :=
        ⟨fun hh => absurd hh hd, fun _ => Or.inr ⟨c, rfl, h.1⟩⟩
      have hpair : (encodeCode (pair c d)).isSome :=
        isSome_encodeCode.mpr
          ⟨not_high_pair h.1 h.2, fun hl => absurd hl (not_low_pair h.1 h.2)⟩
      rw [joinSurrogates_pair s h.1 h.2, isSome_encode_cons, isSome_encode_joinSurrogates s,
        and_iff_right hpair, and_iff_right hc, AllSettled, and_iff_right hd',
        allSettled_of_not_high hd]
    · rw [joinSurrogates, if_neg h, isSome_encode_cons, isSome_encodeCode,
        isSome_encode_joinSurrogates (d :: s)]
      by_cases hc : High c
      · refine iff_of_false (fun he => he.1.1 hc) fun hs => ?_
        obtain ⟨e, he, hlow⟩ := hs.1.1 hc
        obtain rfl := Option.mem_some.mp he
        exact h ⟨hc, hlow⟩
      · rw [allSettled_of_not_high hc]
        refine and_congr_left fun _ => ?_
        simp [Settled, hc]

end Exlic.Py.JsonCanonical
