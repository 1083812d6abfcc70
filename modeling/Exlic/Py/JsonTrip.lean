import Exlic.Py.Json

/-! # What comes back from `json`

`loads_dumps`: reading what was written always succeeds and returns `trip v`, the value with every
surrogate pair joined (`joinSurrogates`), in the keys too, so that keys which become equal are
merged. On texts without high surrogates nothing is joined (`joinSurrogates_eq_self`). -/

namespace Exlic.Py.JsonTrip

open Exlic.Lib.Dict Exlic.Py.Strings Exlic.Py.Json

/-! ### Joining surrogate pairs -/

/-- Replaces every high surrogate with a low one right after it by the character of the pair. -/
def joinSurrogates : Str → Str
  | [] => []
  | [c] => [c]
  | c :: d :: s =>
    if High c ∧ Low d then pair c d :: joinSurrogates s else c :: joinSurrogates (d :: s)

mutual

/-- The value that is read back. -/
def trip : Value → Value
  | .str s => .str (joinSurrogates s)
  | .arr xs => .arr (tripElems xs)
  | .obj kvs => .obj (dictOf (tripPairs kvs))

def tripElems : List Value → List Value
  | [] => []
  | x :: xs => trip x :: tripElems xs

def tripPairs : List (Str × Value) → List (Str × Value)
  | [] => []
  | (k, v) :: kvs => (joinSurrogates k, trip v) :: tripPairs kvs

end

theorem joinSurrogates_cons_of_not_high {c : Code} (s : Str) (h : ¬ High c) :
    joinSurrogates (c :: s) = c :: joinSurrogates s := by
  cases s with
  | nil => rfl
  | cons d s => rw [joinSurrogates, if_neg fun h' => h h'.1]

theorem joinSurrogates_cons_cons_of_not_low {c d : Code} (s : Str) (h : ¬ Low d) :
    joinSurrogates (c :: d :: s) = c :: joinSurrogates (d :: s) := by
  rw [joinSurrogates, if_neg fun h' => h h'.2]

theorem joinSurrogates_pair {c d : Code} (s : Str) (hc : High c) (hd : Low d) :
    joinSurrogates (c :: d :: s) = pair c d :: joinSurrogates s := by
  rw [joinSurrogates, if_pos ⟨hc, hd⟩]

/-- **Without high surrogates there is nothing to join.** -/
theorem joinSurrogates_eq_self : ∀ {s : Str}, (∀ c ∈ s, ¬ High c) → joinSurrogates s = s
  | [], _ => rfl
  | c :: s, h => by
    rw [joinSurrogates_cons_of_not_high s (h c (by simp)),
      joinSurrogates_eq_self fun d hd => h d (List.mem_cons_of_mem c hd)]

theorem low_lt {c : Code} (h : Low c) : c.val < 0x10000 := by have := h.2; omega

theorem high_lt {c : Code} (h : High c) : c.val < 0x10000 := by have := h.2; omega

/-! ### Escapes are read back -/

theorem hexVal_hexDigit : ∀ n < 16, hexVal (hexDigit n) = some n := by decide

theorem unhex_hexDigits {n : ℕ} (h : n < 0x10000) :
    unhex (hexDigit (n / 4096)) (hexDigit (n / 256 % 16)) (hexDigit (n / 16 % 16))
      (hexDigit (n % 16)) = some (code n) := by
  unfold unhex
  rw [hexVal_hexDigit _ (by omega), hexVal_hexDigit _ (by omega), hexVal_hexDigit _ (by omega),
    hexVal_hexDigit _ (by omega)]
  simp only
  rw [show n / 4096 * 4096 + n / 256 % 16 * 256 + n / 16 % 16 * 16 + n % 16 = n by omega]

theorem backslash_ne_quote : backslash ≠ quote := by decide

theorem scanstring_unicodeEscape {n : ℕ} (hn : n < 0x10000) (hh : ¬ High (code n)) (s : Str) :
    scanstring (unicodeEscape n ++ s) = push (code n) (scanstring s) := by
  change scanstring (backslash :: chr 'u' :: _ :: _ :: _ :: _ :: s) = _
  rw [scanstring, if_neg backslash_ne_quote, if_pos rfl]
  simp only [↓reduceIte]
  rw [unhex_hexDigits hn]
  simp only
  rw [if_neg hh]

theorem scanstring_pair {h l : ℕ} (hn : h < 0x10000) (ln : l < 0x10000) (hh : High (code h))
    (hl : Low (code l)) (s : Str) :
    scanstring (unicodeEscape h ++ (unicodeEscape l ++ s)) =
      push (pair (code h) (code l)) (scanstring s) := by
  change scanstring (backslash :: chr 'u' :: _ :: _ :: _ :: _ ::
    backslash :: chr 'u' :: _ :: _ :: _ :: _ :: s) = _
  rw [scanstring, if_neg backslash_ne_quote, if_pos rfl]
  simp only [↓reduceIte, and_self]
  rw [unhex_hexDigits hn]
  simp only
  rw [if_pos hh, unhex_hexDigits ln]
  simp only
  rw [if_pos hl]

/-- The text does not go on with the escape of a low surrogate. -/
def NoLow (r : Str) : Prop :=
  ∀ a b c d s, r = backslash :: chr 'u' :: a :: b :: c :: d :: s →
    ∃ l, unhex a b c d = some l ∧ ¬ Low l

/-- A high surrogate without a low one after it stays alone. -/
theorem scanstring_high {n : ℕ} (hn : n < 0x10000) (hh : High (code n)) {r : Str} (hr : NoLow r) :
    scanstring (unicodeEscape n ++ r) = push (code n) (scanstring r) := by
  change scanstring (backslash :: chr 'u' :: _ :: _ :: _ :: _ :: r) = _
  rw [scanstring, if_neg backslash_ne_quote, if_pos rfl]
  simp only [↓reduceIte]
  rw [unhex_hexDigits hn]
  simp only
  rw [if_pos hh]
  split
  · next x y a b c d s =>
    split_ifs with hxy
    · obtain ⟨rfl, rfl⟩ := hxy
      obtain ⟨l, hl, hlow⟩ := hr a b c d s rfl
      rw [hl]
      simp only
      rw [if_neg hlow]
    · rfl
  · rfl

theorem shortEscapes_spec : ∀ p ∈ shortEscapes, unescape p.2 = some p.1 ∧ p.2 ≠ chr 'u' := by
  have h : (shortEscapes.all fun p => unescape p.2 = some p.1 ∧ p.2 ≠ chr 'u') = true := by decide
  intro p hp
  have := List.all_eq_true.mp h p hp
  rwa [decide_eq_true_eq] at this

theorem mem_shortEscapes {c e : Code} (h : shortEscapes.lookup c = some e) :
    (c, e) ∈ shortEscapes := by
  obtain ⟨l₁, l₂, hl, -⟩ := List.lookup_eq_some_iff.mp h
  rw [hl]; simp

theorem scanstring_short {c e : Code} (h : shortEscapes.lookup c = some e) (s : Str) :
    scanstring (backslash :: e :: s) = push c (scanstring s) := by
  obtain ⟨h1, h2⟩ := shortEscapes_spec _ (mem_shortEscapes h)
  rw [scanstring.eq_def]
  simp only [if_neg backslash_ne_quote, ↓reduceIte, if_neg h2, h1]

theorem scanstring_plain {c : Code} (h : shortEscapes.lookup c = none) (hc : 0x20 ≤ c.val)
    (s : Str) : scanstring (c :: s) = push c (scanstring s) := by
  have hne : ∀ p ∈ shortEscapes, c ≠ p.1 := by
    intro p hp
    exact bne_iff_ne.mp (List.lookup_eq_none_iff.mp h p hp)
  have h1 : c ≠ quote := hne (quote, quote) (by decide)
  have h2 : c ≠ backslash := hne (backslash, backslash) (by decide)
  rw [scanstring.eq_def]
  simp only
  rw [if_neg h1, if_neg h2, if_neg (by omega)]

/-- The pair of a character above `U+FFFF`. -/
theorem astral_pair {n : ℕ} (h1 : 0x10000 ≤ n) (h2 : n < 0x110000) :
    High (code (0xD800 + (n - 0x10000) / 1024)) ∧ Low (code (0xDC00 + (n - 0x10000) % 1024)) ∧
      pair (code (0xD800 + (n - 0x10000) / 1024)) (code (0xDC00 + (n - 0x10000) % 1024)) =
        code n := by
  have hh := val_code (n := 0xD800 + (n - 0x10000) / 1024) (by omega)
  have hl := val_code (n := 0xDC00 + (n - 0x10000) % 1024) (by omega)
  refine ⟨⟨?_, ?_⟩, ⟨?_, ?_⟩, ?_⟩
  · rw [hh]; omega
  · rw [hh]; omega
  · rw [hl]; omega
  · rw [hl]; omega
  · unfold pair
    rw [hh, hl]
    exact congrArg code (by omega)

/-- **A character that is no high surrogate** is read back, whatever follows. -/
theorem scanstring_escape {c : Code} (hc : ¬ High c) (s : Str) :
    scanstring (escape c ++ s) = push c (scanstring s) := by
  unfold escape
  rcases hl : shortEscapes.lookup c with _ | e
  · split_ifs with h1 h2
    · exact scanstring_plain hl h1.1 s
    · rw [← code_val c] at hc
      rw [scanstring_unicodeEscape h2 hc, code_val]
    · obtain ⟨hh, hlow, hp⟩ := astral_pair (by omega) c.isLt
      rw [List.append_assoc, scanstring_pair (by omega) (by omega) hh hlow, hp, code_val]
  · exact scanstring_short hl s

theorem escape_surrogate {c : Code} (h1 : 0xD800 ≤ c.val) (h2 : c.val ≤ 0xDFFF) :
    escape c = unicodeEscape c.val := by
  have hl : shortEscapes.lookup c = none := by
    rw [List.lookup_eq_none_iff]
    have hs : (shortEscapes.all fun p => p.1.val < 0x80) = true := by decide
    intro p hp
    have := List.all_eq_true.mp hs p hp
    rw [decide_eq_true_eq] at this
    rw [bne_iff_ne]
    rintro rfl
    omega
  unfold escape
  rw [hl, if_neg (by omega), if_pos (by omega)]

theorem escape_high {c : Code} (h : High c) : escape c = unicodeEscape c.val :=
  escape_surrogate h.1 (by have := h.2; omega)

theorem escape_low {c : Code} (h : Low c) : escape c = unicodeEscape c.val :=
  escape_surrogate (by have := h.1; omega) h.2

theorem noLow_quote (s : Str) : NoLow (quote :: s) := by
  intro a b c d r h
  rw [List.cons.injEq] at h
  exact absurd h.1.symm backslash_ne_quote

theorem noLow_unicodeEscape {n : ℕ} (hn : n < 0x10000) (hl : ¬ Low (code n)) (s : Str) :
    NoLow (unicodeEscape n ++ s) := by
  intro a b c d r h
  simp only [unicodeEscape, List.cons_append, List.nil_append, List.cons.injEq] at h
  obtain ⟨-, -, rfl, rfl, rfl, rfl, -⟩ := h
  exact ⟨code n, unhex_hexDigits hn, hl⟩

/-- A character that is no low surrogate is not written like one. -/
theorem noLow_escape {c : Code} (hc : ¬ Low c) (s : Str) : NoLow (escape c ++ s) := by
  unfold escape
  rcases hl : shortEscapes.lookup c with _ | e
  · split_ifs with h1 h2
    · intro a b x d r h
      simp only [List.cons_append, List.nil_append, List.cons.injEq] at h
      obtain ⟨rfl, -⟩ := h
      exact absurd hl (by decide)
    · rw [← code_val c] at hc
      exact noLow_unicodeEscape h2 hc s
    · rw [List.append_assoc]
      refine noLow_unicodeEscape (by omega) (fun h => ?_) _
      have hv := h.1
      rw [val_code (by omega)] at hv
      have := c.isLt
      omega
  · intro a b x d r h
    simp only [List.cons_append, List.nil_append, List.cons.injEq] at h
    exact absurd h.2.1 (shortEscapes_spec _ (mem_shortEscapes hl)).2

theorem scanstring_quote (r : Str) : scanstring (quote :: r) = some ([], r) := by
  rw [scanstring.eq_def]
  simp only [↓reduceIte]

/-- **A string is read back with its surrogate pairs joined.** -/
theorem scanstring_dumpsStr : ∀ (s r : Str),
    scanstring (s.flatMap escape ++ quote :: r) = some (joinSurrogates s, r)
  | [], r => scanstring_quote r
  | [c], r => by
    rw [List.flatMap_cons, List.flatMap_nil, List.append_nil]
    by_cases hc : High c
    · have hc' := hc
      rw [← code_val c] at hc'
      rw [escape_high hc, scanstring_high (high_lt hc) hc' (noLow_quote r), scanstring_quote,
        code_val]
      rfl
    · rw [scanstring_escape hc, scanstring_quote]
      rfl
  | c :: d :: s, r => by
    rw [List.flatMap_cons, List.append_assoc]
    by_cases hc : High c
    · have hc' := hc
      rw [← code_val c] at hc'
      by_cases hd : Low d
      · have hd' := hd
        rw [← code_val d] at hd'
        rw [List.flatMap_cons, List.append_assoc, escape_high hc, escape_low hd,
          scanstring_pair (high_lt hc) (low_lt hd) hc' hd', scanstring_dumpsStr s r,
          joinSurrogates_pair s hc hd, code_val, code_val]
        rfl
      · have hr : NoLow ((d :: s).flatMap escape ++ quote :: r) := by
          rw [List.flatMap_cons, List.append_assoc]
          exact noLow_escape hd _
        rw [escape_high hc, scanstring_high (high_lt hc) hc' hr, scanstring_dumpsStr (d :: s) r,
          joinSurrogates_cons_cons_of_not_low s hd, code_val]
        rfl
    · rw [scanstring_escape hc, scanstring_dumpsStr (d :: s) r,
        joinSurrogates_cons_of_not_high _ hc]
      rfl

/-! ### Values are read back -/

theorem skipSpace_of_head {c : Code} {s : Str} (h : isSpace c = false) :
    skipSpace (c :: s) = c :: s := by
  rw [skipSpace, List.dropWhile_cons, if_neg (by rw [h]; simp)]

/-- What the text of a value starts with. -/
theorem dumps_head (v : Value) : ∃ c s, dumps v = c :: s ∧ isSpace c = false ∧ c ≠ rbracket := by
  cases v with
  | str s => exact ⟨quote, s.flatMap escape ++ [quote], by rw [dumps]; rfl, by decide, by decide⟩
  | arr xs =>
    refine ⟨lbracket, (dumps (.arr xs)).tail, ?_, by decide, by decide⟩
    cases xs <;> rw [dumps] <;> rfl
  | obj kvs =>
    refine ⟨lbrace, (dumps (.obj kvs)).tail, ?_, by decide, by decide⟩
    rcases kvs with _ | ⟨⟨k, v⟩, kvs⟩ <;> rw [dumps] <;> rfl

theorem skipSpace_dumps (v : Value) (r : Str) : skipSpace (dumps v ++ r) = dumps v ++ r := by
  obtain ⟨c, s, h, hc, -⟩ := dumps_head v
  rw [h, List.cons_append, skipSpace_of_head hc]

/-- One space, as after a comma or a colon, is skipped. -/
theorem skipSpace_space (s : Str) : skipSpace (space :: s) = skipSpace s := by
  rw [skipSpace, List.dropWhile_cons, if_pos (by decide)]
  rfl

theorem skipSpace_quote (s : Str) : skipSpace (quote :: s) = quote :: s :=
  skipSpace_of_head (by decide)

theorem scanOnce_arr (x : Value) (n : ℕ) (r : Str) :
    scanOnce (n + 1) (lbracket :: (dumps x ++ r)) =
      (scanElems n (dumps x ++ r)).map fun p => (.arr p.1, p.2) := by
  obtain ⟨c, s, hx, -, hc⟩ := dumps_head x
  rw [scanOnce, if_neg (by decide), if_pos rfl, skipSpace_dumps, hx, List.cons_append]
  simp only
  rw [if_neg hc]

theorem scanOnce_obj (n : ℕ) (r : Str) :
    scanOnce (n + 1) (lbrace :: quote :: r) =
      (scanPairs n (quote :: r)).map fun p => (.obj (dictOf p.1), p.2) := by
  rw [scanOnce, if_neg (by decide), if_neg (by decide), if_pos rfl, skipSpace_quote]
  simp only
  rw [if_neg (by decide)]

theorem length_dumps_pos (v : Value) : 0 < (dumps v).length := by
  obtain ⟨c, s, h, -⟩ := dumps_head v
  rw [h]; simp

theorem length_dumpsElems_pos (xs : List Value) : 0 < (dumpsElems xs).length := by
  cases xs <;> simp [dumpsElems]

theorem length_dumpsPairs_pos (kvs : List (Str × Value)) : 0 < (dumpsPairs kvs).length := by
  rcases kvs with _ | ⟨⟨k, v⟩, kvs⟩ <;> simp [dumpsPairs]

mutual

/-- **A written value is read back**, with enough fuel, whatever follows. -/
theorem scanOnce_dumps : ∀ (v : Value) (n : ℕ) (r : Str), (dumps v).length ≤ n →
    scanOnce n (dumps v ++ r) = some (trip v, r)
  | v, 0, r, h => by
    have := length_dumps_pos v
    omega
  | .str s, m + 1, r, h => by
    rw [dumps, dumpsStr] at h ⊢
    rw [List.append_assoc, List.cons_append, scanOnce, if_pos rfl, List.singleton_append,
      scanstring_dumpsStr]
    rfl
  | .arr [], m + 1, r, h => by
    rw [dumps] at h ⊢
    rfl
  | .arr (x :: xs), m + 1, r, h => by
    have hpos := length_dumpsElems_pos xs
    rw [dumps] at h ⊢
    simp only [List.cons_append, List.append_assoc, List.length_cons, List.length_append] at h ⊢
    rw [scanOnce_arr, scanElems_dumps x xs m r (by omega)]
    rfl
  | .obj [], m + 1, r, h => by
    rw [dumps] at h ⊢
    rfl
  | .obj ((k, v) :: kvs), m + 1, r, h => by
    rw [dumps] at h ⊢
    simp only [List.cons_append, List.append_assoc, List.length_cons, List.length_append] at h ⊢
    have hs := scanPairs_dumps k v kvs m r (by omega)
    rw [dumpsStr] at hs ⊢
    rw [List.cons_append, List.cons_append, scanOnce_obj]
    rw [List.cons_append, List.cons_append] at hs
    rw [hs]
    rfl

theorem scanElems_dumps : ∀ (x : Value) (xs : List Value) (n : ℕ) (r : Str),
    (dumps x).length + (dumpsElems xs).length ≤ n →
    scanElems n (dumps x ++ (dumpsElems xs ++ r)) = some (trip x :: tripElems xs, r)
  | x, xs, 0, r, h => by
    have := length_dumps_pos x
    omega
  | x, [], m + 1, r, h => by
    rw [dumpsElems] at h ⊢
    rw [scanElems, scanOnce_dumps x m _ (by simp at h; omega)]
    rfl
  | x, y :: ys, m + 1, r, h => by
    have hpos := length_dumpsElems_pos ys
    rw [dumpsElems] at h ⊢
    simp only [List.cons_append, List.append_assoc, List.length_cons, List.length_append] at h ⊢
    have hc : skipSpace (comma :: space :: (dumps y ++ (dumpsElems ys ++ r))) =
        comma :: space :: (dumps y ++ (dumpsElems ys ++ r)) := skipSpace_of_head (by decide)
    rw [scanElems, scanOnce_dumps x m _ (by omega)]
    simp only
    rw [hc]
    simp only
    rw [if_neg (by decide), if_pos trivial, skipSpace_space, skipSpace_dumps,
      scanElems_dumps y ys m r (by omega)]
    rfl

theorem scanPairs_dumps : ∀ (k : Str) (v : Value) (kvs : List (Str × Value)) (n : ℕ) (r : Str),
    (dumps v).length + (dumpsPairs kvs).length ≤ n →
    scanPairs n (dumpsStr k ++ (colon :: space :: (dumps v ++ (dumpsPairs kvs ++ r)))) =
      some ((joinSurrogates k, trip v) :: tripPairs kvs, r)
  | k, v, kvs, 0, r, h => by
    have := length_dumps_pos v
    omega
  | k, v, kvs, m + 1, r, h => by
    have hpos := length_dumpsPairs_pos kvs
    have hc : ∀ s, skipSpace (colon :: s) = colon :: s := fun s => skipSpace_of_head (by decide)
    rw [dumpsStr, List.append_assoc, List.cons_append, scanPairs, if_pos rfl,
      List.singleton_append, scanstring_dumpsStr]
    simp only
    rw [hc]
    simp only
    rw [if_pos trivial, skipSpace_space, skipSpace_dumps, scanOnce_dumps v m _ (by omega)]
    simp only
    match kvs with
    | [] => rfl
    | (k', v') :: kvs =>
      have hcomma : ∀ s, skipSpace (comma :: s) = comma :: s :=
        fun s => skipSpace_of_head (by decide)
      rw [dumpsPairs] at h ⊢
      simp only [List.cons_append, List.append_assoc, List.length_cons, List.length_append] at h ⊢
      have hs := scanPairs_dumps k' v' kvs m r (by omega)
      rw [hcomma]
      simp only
      rw [if_neg (by decide), if_pos trivial, skipSpace_space]
      rw [dumpsStr, List.cons_append, List.cons_append] at hs ⊢
      rw [skipSpace_quote, hs]
      rfl

end

/-- **Reading what was written** gives the value with its surrogate pairs joined. -/
theorem loads_dumps (v : Value) : loads (dumps v) = some (trip v) := by
  have h := scanOnce_dumps v ((dumps v).length + 1) [] (by omega)
  have hs := skipSpace_dumps v []
  rw [List.append_nil] at h hs
  rw [loads, hs, h]
  rfl

end Exlic.Py.JsonTrip
