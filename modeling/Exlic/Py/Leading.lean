import Exlic.Py.PathJoin

/-! # Leading parts of paths

Functions that make a directory with its parents go through the leading parts of its path
(`leads`). Those of a joined path are leading parts of the first path, or the first path joined to
leading parts of the second one (`leads_join`); so their ways pass what the first path passes, or
places seen from where it ends (`passed_of_leads_join`). -/

namespace Exlic.Py.Leading

open Exlic.Lib.FileTree Exlic.Py.Strings Exlic.Py.Utf8 Exlic.Py.Paths Exlic.Py.PathJoin

/-- The leading parts of a path: what stands before one of its slashes, and all of it. -/
def leads : Str → List Str
  | [] => [[]]
  | c :: s =>
    if c = slash then [] :: (leads s).map (List.cons c) else (leads s).map (List.cons c)

theorem self_mem_leads : ∀ s : Str, s ∈ leads s
  | [] => by simp [leads]
  | c :: s => by
    have h : c :: s ∈ (leads s).map (List.cons c) := List.mem_map_of_mem (self_mem_leads s)
    unfold leads
    split_ifs
    · exact List.mem_cons_of_mem _ h
    · exact h

theorem leads_append (a b : Str) :
    leads (a ++ slash :: b) = leads a ++ (leads b).map fun s => a ++ slash :: s := by
  induction a with
  | nil =>
    change leads (slash :: b) = [] :: (leads b).map (List.cons slash)
    rw [leads, if_pos rfl]
  | cons c a ih =>
    rw [List.cons_append, leads, leads, ih, List.map_append, List.map_map]
    split_ifs <;> rfl

theorem leads_of_notMem : ∀ {s : Str}, slash ∉ s → leads s = [s]
  | [], _ => rfl
  | c :: s, h => by
    rw [List.mem_cons, not_or] at h
    rw [leads, if_neg (fun hc => h.1 hc.symm), leads_of_notMem h.2]
    rfl

/-- A leading part is the path or stands before a slash of it. -/
theorem mem_leads {s' s : Str} : s' ∈ leads s ↔ s' = s ∨ ∃ rest, s = s' ++ slash :: rest := by
  constructor
  · intro h
    induction s generalizing s' with
    | nil => exact Or.inl (List.mem_singleton.mp h)
    | cons c s ih =>
      have htail : s' ∈ (leads s).map (List.cons c) →
          s' = c :: s ∨ ∃ rest, c :: s = s' ++ slash :: rest := by
        intro h
        obtain ⟨s₁, hs₁, rfl⟩ := List.mem_map.mp h
        obtain rfl | ⟨rest, rfl⟩ := ih hs₁
        · exact Or.inl rfl
        · exact Or.inr ⟨rest, rfl⟩
      unfold leads at h
      split_ifs at h with hc
      · obtain rfl | h := List.mem_cons.mp h
        · exact Or.inr ⟨s, by rw [hc]; rfl⟩
        · exact htail h
      · exact htail h
  · rintro (rfl | ⟨rest, rfl⟩)
    · exact self_mem_leads s'
    · rw [leads_append]
      exact List.mem_append_left _ (self_mem_leads s')

theorem head?_of_leads {s' s : Str} (h : s' ∈ leads s) (hne : s' ≠ []) : s'.head? = s.head? := by
  obtain rfl | ⟨rest, rfl⟩ := mem_leads.mp h
  · rfl
  · rcases s' with _ | ⟨c, s'⟩
    · exact absurd rfl hne
    · rfl

theorem relative_of_leads {s' s : Str} (h : s' ∈ leads s) (hs : Relative s) : Relative s' := by
  by_cases hne : s' = []
  · rw [hne]
    simp [Relative]
  · unfold Relative
    rw [head?_of_leads h hne]
    exact hs

/-- **The leading parts of a joined path.** -/
theorem leads_join {a b s : Str} (hs : s ∈ leads (join a b)) (hne : s ≠ []) :
    s ∈ leads a ∨ ∃ s' ∈ leads b, s = join a s' := by
  unfold join at hs
  split_ifs at hs with hb ha
  · refine Or.inr ⟨s, hs, ?_⟩
    rw [join, if_pos ((head?_of_leads hs hne).trans hb)]
  · have hjoin : ∀ {s'}, s' ∈ leads b → join a s' = a ++ s' := by
      intro s' hs'
      have hrel : Relative s' := relative_of_leads hs' hb
      rw [join, if_neg hrel, if_pos ha]
    obtain rfl | hlast := ha
    · exact Or.inr ⟨s, hs, (hjoin hs).symm⟩
    · obtain ⟨a', rfl⟩ := List.getLast?_eq_some_iff.mp hlast
      rw [List.append_assoc, List.singleton_append, leads_append, List.mem_append] at hs
      obtain hs | hs := hs
      · left
        rw [leads_append]
        exact List.mem_append_left _ hs
      · obtain ⟨s', hs', rfl⟩ := List.mem_map.mp hs
        refine Or.inr ⟨s', hs', ?_⟩
        rw [hjoin hs', List.append_assoc]
        rfl
  · rw [leads_append, List.mem_append] at hs
    obtain hs | hs := hs
    · exact Or.inl hs
    · obtain ⟨s', hs', rfl⟩ := List.mem_map.mp hs
      have hrel : Relative s' := relative_of_leads hs' hb
      exact Or.inr ⟨s', hs', by rw [join, if_neg hrel, if_neg ha]⟩

theorem join_mem_leads {a b s' : Str} (hs' : s' ∈ leads b) (hne : s' ≠ []) :
    join a s' ∈ leads (join a b) := by
  have hhead := head?_of_leads hs' hne
  unfold join
  rw [hhead]
  split_ifs with hb ha
  · exact hs'
  · obtain rfl | hlast := ha
    · exact hs'
    · obtain ⟨a', rfl⟩ := List.getLast?_eq_some_iff.mp hlast
      rw [List.append_assoc, List.append_assoc, List.singleton_append, List.singleton_append,
        leads_append]
      exact List.mem_append_right _ (List.mem_map_of_mem hs')
  · rw [leads_append]
    exact List.mem_append_right _ (List.mem_map_of_mem hs')

/-- The leading parts of a path that does not go up do not go up. -/
theorem descends_of_leads {s' s : Str} (h : s' ∈ leads s) (hs : Descends s) : Descends s' := by
  refine ⟨relative_of_leads h hs.relative, fun c hc => hs.not_up c ?_⟩
  obtain rfl | ⟨rest, rfl⟩ := mem_leads.mp h
  · exact hc
  · rw [splitSlash_append]
    exact List.mem_append_left _ hc

/-! ### Their ways -/

variable {cwd p q : Place} {a b s s' : Str} {w : List Place}

/-- A leading part passes no other places than the path. -/
theorem passed_of_leads (hs' : s' ∈ leads s) (hs : moves s ≠ none) (hw : way cwd s' = some w)
    (hq : q ∈ w) : q ∈ passed cwd s := by
  have hpassed := mem_passed_of_way hw hq
  obtain rfl | ⟨rest, rfl⟩ := mem_leads.mp hs'
  · exact hpassed
  have hne : s' ≠ [] := by
    rintro rfl
    simp [way] at hw
  have hc := continues_append hne rest
  obtain ⟨-, hnone⟩ | ⟨ms, ms', ms₁, hms, -, -, hall⟩ := hc.moves_eq
  · exact absurd hnone hs
  -- the way of the path begins with that of the leading part
  rw [moves_append, hms] at hall
  rcases hrest : moves rest with _ | ms₂
  · rw [hrest] at hall
    cases hall
  · rw [passed, moves_append, hms, hrest]
    rw [passed, hms] at hpassed
    rw [hc.start_eq]
    exact mem_trail_append.mpr (Or.inl hpassed)

/-- An absolute path does not depend on the working directory. -/
theorem way_of_absolute (hs : ¬ Relative s) (cwd p : Place) : way cwd s = way p s := by
  have hstart : ∀ cwd : Place, start cwd s = [] := fun cwd => if_pos (not_not.mp hs)
  unfold way
  rw [hstart, hstart]

theorem moves_ne_none_of_way (hw : way cwd s = some w) : moves s ≠ none := by
  unfold way at hw
  split_ifs at hw
  obtain ⟨ms, hms, -⟩ := Option.map_eq_some_iff.mp hw
  rw [hms]
  simp

/-- **The way of a leading part of a joined path** passes what the first path passes, or what a
leading part of the second one passes from there. -/
theorem passed_of_leads_join (hp : resolve cwd a = some p) (hs : s ∈ leads (join a b))
    (hw : way cwd s = some w) (hq : q ∈ w) : q ∈ passed cwd a ∨
      ∃ s' ∈ leads b, s = join a s' ∧ ∃ w', way p s' = some w' ∧ q ∈ w' ∧ ∀ q' ∈ w', q' ∈ w := by
  have hne : s ≠ [] := by
    rintro rfl
    simp [way] at hw
  obtain hs | ⟨s', hs', rfl⟩ := leads_join hs hne
  · left
    refine passed_of_leads hs ?_ hw hq
    intro hnone
    unfold resolve at hp
    rw [hnone] at hp
    split_ifs at hp
    cases hp
  by_cases hrel : Relative s'
  swap
  · -- the second path starts anew
    have hjoin : join a s' = s' := if_pos (not_not.mp hrel)
    rw [hjoin, way_of_absolute hrel cwd p] at hw
    exact Or.inr ⟨s', hs', rfl, w, hw, hq, fun _ h => h⟩
  obtain hq' | hq' := mem_passed_join hrel hp (mem_passed_of_way hw hq)
  · exact Or.inl hq'
  by_cases hnil : s' = []
  · left
    obtain rfl : q = p := by simpa [hnil, passed, moves_nil, start, trail, move] using hq'
    exact mem_passed_of_resolve hp
  · obtain ⟨d, hd⟩ := exists_resolve_of_way hw
    rw [resolve_join hrel, hp, Option.bind_some] at hd
    obtain ⟨w', hw'⟩ := exists_way_of_resolve hnil hd
    have hpassed := way_eq_passed hw'
    rw [← hpassed] at hq'
    refine Or.inr ⟨s', hs', rfl, w', hw', hq', fun q' hq' => ?_⟩
    rw [way_eq_passed hw]
    rw [hpassed] at hq'
    exact mem_passed_join_right hrel hp (moves_ne_none_of_way hw) hq'

/-- Conversely, the way of the joined path passes no more than the two. -/
theorem exists_way_join (hp : resolve cwd a = some p) (hw : way p s' = some w) :
    ∃ w', way cwd (join a s') = some w' ∧ (∀ q ∈ w, q ∈ w') ∧
      ∀ q ∈ w', q ∈ passed cwd a ∨ q ∈ w := by
  have hne : s' ≠ [] := by
    rintro rfl
    simp [way] at hw
  by_cases hrel : Relative s'
  swap
  · have hjoin : join a s' = s' := if_pos (not_not.mp hrel)
    rw [way_of_absolute hrel p cwd] at hw
    exact ⟨w, by rw [hjoin, hw], fun _ h => h, fun _ h => Or.inr h⟩
  obtain ⟨d, hd⟩ := exists_resolve_of_way hw
  have hjoin : resolve cwd (join a s') = some d := by
    rw [resolve_join hrel, hp, Option.bind_some, hd]
  have hjoinne : join a s' ≠ [] := by
    by_cases ha : a = []
    · rw [ha, join_nil]
      exact hne
    · exact join_ne_nil ha s'
  obtain ⟨w', hw'⟩ := exists_way_of_resolve hjoinne hjoin
  have hpassed := way_eq_passed hw
  have hpassed' := way_eq_passed hw'
  refine ⟨w', hw', fun q hq => ?_, fun q hq => ?_⟩
  · rw [hpassed] at hq
    rw [hpassed']
    exact mem_passed_join_right hrel hp (moves_ne_none_of_way hw') hq
  · rw [hpassed'] at hq
    rw [hpassed]
    exact mem_passed_join hrel hp hq

end Exlic.Py.Leading
