import SequenceConstraint.Dotted

/-!
# Sequences of symbols in both spellings

As long as every symbol is a capital with small letters after it, the flat spelling of a sequence
loses nothing: the dots are put back where they were.

## Main statements

* `ofFlat_flatten` — the dotted spelling of symbols written without dots
* `flatten_join` — the dots are left out again
* `symbolCount_join` — the number of symbols
-/

namespace SequenceConstraint.Dotted

/-- A capital with small letters after it. -/
def IsSymbol : List Char → Prop
  | [] => False
  | c :: cs => c.isUpper = true ∧ ∀ d ∈ cs, d.isLower = true

instance : DecidablePred IsSymbol
  | [] => inferInstanceAs (Decidable False)
  | c :: cs => decidable_of_iff (c.isUpper = true ∧ cs.all Char.isLower = true) (by
      rw [IsSymbol, List.all_eq_true])

/-! ## Characters of a symbol -/

theorem not_isUpper_of_isLower {c : Char} (h : c.isLower = true) : c.isUpper = false := by
  obtain ⟨hlower, -⟩ := Bool.and_eq_true_iff.1 h
  rw [Bool.eq_false_iff]
  intro hupper
  obtain ⟨-, hle⟩ := of_decide_eq_true hupper
  exact absurd (UInt32.le_trans (of_decide_eq_true hlower) hle) (by decide)

theorem flatMap_separated_of_isLower {s : List Char} (h : ∀ c ∈ s, c.isLower = true) :
    s.flatMap separated = s := by
  induction s with
  | nil => rfl
  | cons c cs ih =>
    obtain ⟨hc, hcs⟩ := List.forall_mem_cons.1 h
    rw [List.flatMap_cons, ih hcs, separated, not_isUpper_of_isLower hc]
    rfl

namespace IsSymbol

variable {s : List Char}

theorem ne_nil (h : IsSymbol s) : s ≠ [] := by
  rintro rfl
  exact h

theorem isAlpha (h : IsSymbol s) : ∀ c ∈ s, c.isAlpha = true := by
  cases s with
  | nil => exact h.elim
  | cons c cs =>
    obtain ⟨hc, hcs⟩ := h
    intro d hd
    show (d.isUpper || d.isLower) = true
    rw [Bool.or_eq_true]
    rcases List.mem_cons.1 hd with rfl | hd
    · exact .inl hc
    · exact .inr (hcs d hd)

theorem separator_notMem (h : IsSymbol s) : separator ∉ s := by
  intro hmem
  exact absurd (h.isAlpha separator hmem) (by decide)

/-- The dots go before the symbols, and before nothing else. -/
theorem flatMap_separated (h : IsSymbol s) : s.flatMap separated = separator :: s := by
  cases s with
  | nil => exact h.elim
  | cons c cs =>
    obtain ⟨hc, hcs⟩ := h
    rw [List.flatMap_cons, flatMap_separated_of_isLower hcs, separated, if_pos hc]
    rfl

end IsSymbol

/-! ## Sequences -/

/-- The dotted spelling of a sequence of symbols. -/
def join (ws : List (List Char)) : List Char := [separator].intercalate ws

section Join

variable {w : List Char} {ws : List (List Char)}

theorem join_cons (w : List Char) (ws : List (List Char)) :
    join (w :: ws) = w ++ ws.flatMap (separator :: ·) := by
  induction ws generalizing w with
  | nil => simp [join, List.intercalate_singleton]
  | cons v ws ih =>
    rw [join, List.intercalate_cons_cons, ← join, ih v, List.flatMap_cons, List.append_assoc]
    rfl

theorem flatMap_separated_flatten (h : ∀ w ∈ ws, IsSymbol w) :
    ws.flatten.flatMap separated = ws.flatMap (separator :: ·) := by
  induction ws with
  | nil => rfl
  | cons w ws ih =>
    obtain ⟨hw, hws⟩ := List.forall_mem_cons.1 h
    rw [List.flatten_cons, List.flatMap_append, hw.flatMap_separated, ih hws, List.flatMap_cons]

/-- **The dots are put back where they were.** -/
theorem ofFlat_flatten (h : ∀ w ∈ ws, IsSymbol w) : ofFlat ws.flatten = join ws := by
  cases ws with
  | nil => rfl
  | cons w ws =>
    obtain ⟨hw, hws⟩ := List.forall_mem_cons.1 h
    cases w with
    | nil => exact hw.elim
    | cons c cs =>
      rw [join_cons, List.flatten_cons, List.cons_append, ofFlat, List.flatMap_append,
        flatMap_separated_of_isLower hw.2, flatMap_separated_flatten hws]
      rfl

theorem flatten_of_notMem (h : separator ∉ w) : flatten w = w := by
  refine List.filter_eq_self.2 fun c hc => bne_iff_ne.2 ?_
  rintro rfl
  exact h hc

theorem flatten_append (s t : List Char) : flatten (s ++ t) = flatten s ++ flatten t :=
  List.filter_append s t

/-- A text in parentheses with a mark after them. -/
theorem flatten_marked (s : List Char) {mark : Char} (h : mark ≠ separator) :
    flatten ('(' :: s ++ [')', mark]) = '(' :: flatten s ++ [')'] ++ [mark] := by
  have hclose : flatten [')', mark] = [')', mark] := by
    refine flatten_of_notMem fun hmem => ?_
    rcases List.mem_cons.1 hmem with hparen | hmark
    · cases hparen
    · exact h (List.mem_singleton.1 hmark).symm
  rw [flatten_append, hclose]
  show '(' :: (flatten s ++ [')', mark]) = '(' :: (flatten s ++ [')'] ++ [mark])
  rw [List.append_assoc]
  rfl

/-- **The dots are left out again.** -/
theorem flatten_join (h : ∀ w ∈ ws, separator ∉ w) : flatten (join ws) = ws.flatten := by
  induction ws with
  | nil => rfl
  | cons w ws ih =>
    obtain ⟨hw, hws⟩ := List.forall_mem_cons.1 h
    cases ws with
    | nil => simp [join, List.intercalate_singleton, flatten_of_notMem hw]
    | cons v ws =>
      have hdot : flatten [separator] = [] := rfl
      rw [join, List.intercalate_cons_cons, ← join, flatten_append, flatten_append, ih hws, hdot,
        flatten_of_notMem hw, List.append_nil]
      rfl

theorem count_separator (h : ∀ w ∈ ws, IsSymbol w) :
    (ws.flatMap (separator :: ·)).count separator = ws.length := by
  induction ws with
  | nil => rfl
  | cons w ws ih =>
    obtain ⟨hw, hws⟩ := List.forall_mem_cons.1 h
    have hzero := List.count_eq_zero.2 hw.separator_notMem
    rw [List.flatMap_cons, List.count_append, ih hws, List.count_cons_self, hzero,
      List.length_cons]
    omega

/-- **The number of symbols.** -/
theorem symbolCount_join (h : ∀ w ∈ ws, IsSymbol w) : symbolCount (join ws) = ws.length := by
  -- the first symbol has no dot before it, but it counts as well
  cases ws with
  | nil => rfl
  | cons w ws =>
    obtain ⟨hw, hws⟩ := List.forall_mem_cons.1 h
    have hzero := List.count_eq_zero.2 hw.separator_notMem
    have hne : (w ++ ws.flatMap (separator :: ·)).isEmpty = false := by
      cases w with
      | nil => exact hw.elim
      | cons c cs => rfl
    rw [join_cons, symbolCount, hne, List.count_append, count_separator hws, hzero]
    simp

/-- The same with strings. -/
theorem intercalate_ofList (ws : List (List Char)) :
    String.intercalate "." (ws.map String.ofList) = String.ofList (join ws) := by
  apply String.toList_inj.1
  rw [String.toList_intercalate, String.toList_ofList, List.map_map]
  simp [join, separator, Function.comp_def]

end Join

end SequenceConstraint.Dotted
