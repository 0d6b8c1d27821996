import SequenceConstraint.Pattern
import SequenceConstraint.Proofs.Language.Generated

/-!
# Sequences that are selected

Both lists of a pattern are selections: of the texts of a run those that fit are looked up in the
matcher, each once, and the ones with the wanted verdict are kept. If the matcher gives up on one
of them, there is no list.

## Main statements

* `mem_select` — what is selected
* `exists_checkText` — every text that fits has been decided
* `select_error` — giving up is the only error
-/

namespace SequenceConstraint

/-- What comes first in canonical order has no more symbols. -/
theorem Dotted.symbolCount_le_of_order {s t : List Char} (h : order s t = .lt) :
    symbolCount s ≤ symbolCount t := by
  have hcount : (compare (symbolCount s) (symbolCount t)).then (compare s t) = .lt := h
  rcases Ordering.then_eq_lt.1 hcount with hlt | ⟨heq, -⟩
  · exact Nat.le_of_lt (Nat.compare_eq_lt.1 hlt)
  · exact Nat.le_of_eq (Nat.compare_eq_eq.1 heq)

namespace Pattern

variable {p : Pattern} {fits : List Char → Bool} {accepted : Bool}

theorem map_eq_ok_iff {α β : Type} {f : α → β} {x : Except PatternError α} {b : β} :
    x.map f = .ok b ↔ ∃ a, x = .ok a ∧ b = f a := by
  cases x with
  | error e => simp [Except.map]
  | ok a => simp [Except.map, eq_comm]

theorem map_eq_error_iff {α β : Type} {f : α → β} {x : Except PatternError α} {e : PatternError} :
    x.map f = .error e ↔ x = .error e := by
  cases x with
  | error e' => simp [Except.map]
  | ok a => simp [Except.map]

theorem checkText_eq_ok_iff {s : List Char} {b : Bool} :
    p.checkText s = .ok b ↔ p.tree.matches? (Dotted.flatten s) = some b := by
  unfold checkText
  cases p.tree.matches? (Dotted.flatten s) <;> simp

theorem checkText_error {s : List Char} {e : PatternError} (h : p.checkText s = .error e) :
    e = .matchBudgetExhausted := by
  unfold checkText at h
  split at h
  · cases h
  · cases h
    rfl

/-- The texts of the states of a run, in their dotted spelling. -/
def sequencesOf (run : Run Snapshot) : List (List Char) :=
  run.toList.map fun state => Dotted.ofFlat (state []).text

theorem sequencesOf_yield (state : Snapshot) (rest : Unit → Run Snapshot) :
    sequencesOf (.yield state rest) = Dotted.ofFlat (state []).text :: sequencesOf (rest ()) := rfl

/-- A plan for a language goes through the texts of that language. -/
theorem mem_sequencesOf_run {plan : Plan} {cap : Nat} {l : Language Char}
    (h : plan.Produces cap l) {s : List Char} :
    s ∈ sequencesOf (plan.run cap []) ↔ ∃ w ∈ l, Dotted.ofFlat w = s := by
  rw [sequencesOf, List.mem_map]
  constructor
  · rintro ⟨x, hx, rfl⟩
    exact ⟨_, (h [] _).1 ⟨x [], ⟨x, hx, rfl⟩, rfl⟩, rfl⟩
  · rintro ⟨w, hw, rfl⟩
    obtain ⟨_, ⟨x, hx, rfl⟩, rfl⟩ := (h [] w).2 hw
    exact ⟨x, hx, rfl⟩

section SelectFrom

variable {seen : Std.TreeSet (List Char) compare} {kept out : List (List Char)}
  {run : Run Snapshot}

/-- A text that does not fit, or has been looked at, is passed over. -/
theorem selectFrom_skip {state : Snapshot} {rest : Unit → Run Snapshot}
    (h : ¬(fits (Dotted.ofFlat (state []).text) = true ∧
      seen.contains (Dotted.ofFlat (state []).text) = false)) :
    p.selectFrom fits accepted seen kept (.yield state rest) =
      p.selectFrom fits accepted seen kept (rest ()) := by
  rw [selectFrom, if_pos]
  rw [Bool.or_eq_true, Bool.not_eq_true']
  by_cases hfits : fits (Dotted.ofFlat (state []).text) = true
  · right
    rw [← Bool.not_eq_false]
    exact fun hseen => h ⟨hfits, hseen⟩
  · exact .inl (Bool.eq_false_iff.2 hfits)

/-- Any other is looked up. -/
theorem selectFrom_look {state : Snapshot} {rest : Unit → Run Snapshot} {s : List Char}
    (hs : Dotted.ofFlat (state []).text = s) (hfits : fits s = true)
    (hseen : seen.contains s = false)
    (h : p.selectFrom fits accepted seen kept (.yield state rest) = .ok out) :
    ∃ answer, p.checkText s = .ok answer ∧
      p.selectFrom fits accepted (seen.insert s) (if answer == accepted then s :: kept else kept)
        (rest ()) = .ok out := by
  subst hs
  rw [selectFrom, if_neg (by simp [hfits, hseen])] at h
  split at h
  · cases h
  · rename_i answer hanswer
    exact ⟨answer, hanswer, h⟩

theorem contains_insert_eq_false_iff {s t : List Char} :
    (seen.insert s).contains t = false ↔ s ≠ t ∧ seen.contains t = false := by
  rw [← Bool.not_eq_true, contains_insert_iff, not_or, Bool.not_eq_true]

/-- **Of the texts that have not been looked at before, those are kept that fit and have the wanted
verdict.** -/
theorem mem_selectFrom (h : p.selectFrom fits accepted seen kept run = .ok out) (s : List Char) :
    s ∈ out ↔ s ∈ kept ∨ (s ∈ sequencesOf run ∧ fits s = true ∧ seen.contains s = false ∧
      p.checkText s = .ok accepted) := by
  induction run generalizing seen kept with
  | done last =>
    cases h
    simp [sequencesOf]
  | yield state rest ih =>
    rw [sequencesOf_yield, List.mem_cons]
    by_cases hnew : fits (Dotted.ofFlat (state []).text) = true ∧
        seen.contains (Dotted.ofFlat (state []).text) = false
    · obtain ⟨answer, hanswer, h⟩ := selectFrom_look rfl hnew.1 hnew.2 h
      rw [ih () h, contains_insert_eq_false_iff]
      -- this is the only time that the text is looked up
      by_cases hs : s = Dotted.ofFlat (state []).text
      · subst hs
        rw [hanswer]
        by_cases ha : answer = accepted
        · simp [ha, hnew]
        · simp [ha]
      · have hs' := Ne.symm hs
        split <;> simp [hs, hs']
    · rw [selectFrom_skip hnew] at h
      rw [ih () h]
      by_cases hs : s = Dotted.ofFlat (state []).text
      · subst hs
        grind
      · simp [hs]

/-- **Every text that fits has been decided.** -/
theorem exists_checkText_of_selectFrom (h : p.selectFrom fits accepted seen kept run = .ok out)
    {s : List Char} (hs : s ∈ sequencesOf run) (hfits : fits s = true)
    (hseen : seen.contains s = false) : ∃ b, p.checkText s = .ok b := by
  induction run generalizing seen kept with
  | done last => cases hs
  | yield state rest ih =>
    by_cases hnew : fits (Dotted.ofFlat (state []).text) = true ∧
        seen.contains (Dotted.ofFlat (state []).text) = false
    · obtain ⟨answer, hanswer, h⟩ := selectFrom_look rfl hnew.1 hnew.2 h
      by_cases he : s = Dotted.ofFlat (state []).text
      · subst he
        exact ⟨answer, hanswer⟩
      · have hmem := (List.mem_cons.1 hs).resolve_left he
        exact ih () h hmem (contains_insert_eq_false_iff.2 ⟨Ne.symm he, hseen⟩)
    · rw [selectFrom_skip hnew] at h
      rcases List.mem_cons.1 hs with rfl | hmem
      · exact absurd ⟨hfits, hseen⟩ hnew
      · exact ih () h hmem hseen

theorem selectFrom_error {e : PatternError}
    (h : p.selectFrom fits accepted seen kept run = .error e) : e = .matchBudgetExhausted := by
  induction run generalizing seen kept with
  | done last => cases h
  | yield state rest ih =>
    rw [selectFrom] at h
    split at h
    · exact ih () h
    · split at h
      · rename_i e' he
        cases h
        exact checkText_error he
      · exact ih () h

end SelectFrom

section Select

variable {run : Run Snapshot} {out : List (List Char)}

theorem select_eq_ok_iff :
    p.select fits accepted run = .ok out ↔
      ∃ texts, p.selectFrom fits accepted ∅ [] run = .ok texts ∧ out = Dotted.ascending texts :=
  map_eq_ok_iff

/-- **What is selected:** the texts that fit and have the wanted verdict. -/
theorem mem_select (h : p.select fits accepted run = .ok out) {s : List Char} :
    s ∈ out ↔ s ∈ sequencesOf run ∧ fits s = true ∧ p.checkText s = .ok accepted := by
  obtain ⟨texts, htexts, rfl⟩ := select_eq_ok_iff.1 h
  rw [Dotted.mem_ascending, mem_selectFrom htexts]
  simp

/-- Each text comes before the next in canonical order. -/
theorem pairwise_select (h : p.select fits accepted run = .ok out) :
    out.Pairwise fun s t => Dotted.order s t = .lt := by
  obtain ⟨texts, -, rfl⟩ := select_eq_ok_iff.1 h
  exact Dotted.pairwise_ascending texts

/-- **The first text that is selected has the fewest symbols.** -/
theorem symbolCount_head_le {first : List Char} {rest : List (List Char)}
    (h : p.select fits accepted run = .ok (first :: rest)) {s : List Char}
    (hs : s ∈ first :: rest) : Dotted.symbolCount first ≤ Dotted.symbolCount s := by
  rcases List.mem_cons.1 hs with rfl | hs
  · exact Nat.le_refl _
  · exact Dotted.symbolCount_le_of_order (List.rel_of_pairwise_cons (pairwise_select h) hs)

/-- **Every text that fits has been decided.** -/
theorem exists_checkText (h : p.select fits accepted run = .ok out) {s : List Char}
    (hs : s ∈ sequencesOf run) (hfits : fits s = true) : ∃ b, p.checkText s = .ok b := by
  obtain ⟨texts, htexts, -⟩ := select_eq_ok_iff.1 h
  exact exists_checkText_of_selectFrom htexts hs hfits (by simp)

/-- **Giving up is the only error.** -/
theorem select_error {e : PatternError} (h : p.select fits accepted run = .error e) :
    e = .matchBudgetExhausted :=
  selectFrom_error (map_eq_error_iff.1 h)

/-! ### Selections as strings -/

theorem mem_map_ofList_select (h : p.select fits accepted run = .ok out) {s : String} :
    s ∈ out.map String.ofList ↔
      s.toList ∈ sequencesOf run ∧ fits s.toList = true ∧ p.check s = .ok accepted := by
  rw [List.mem_map]
  constructor
  · rintro ⟨t, ht, rfl⟩
    rw [check, String.toList_ofList]
    exact (mem_select h).1 ht
  · intro hs
    exact ⟨s.toList, (mem_select h).2 hs, String.ofList_toList⟩

theorem pairwise_map_ofList (h : out.Pairwise fun s t => Dotted.order s t = .lt) :
    (out.map String.ofList).Pairwise fun s t => Dotted.order s.toList t.toList = .lt := by
  rw [List.pairwise_map]
  simp only [String.toList_ofList]
  exact h

end Select

end Pattern

end SequenceConstraint
