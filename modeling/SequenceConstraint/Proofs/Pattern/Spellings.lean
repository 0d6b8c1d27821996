import SequenceConstraint.Proofs.Pattern.Separation

/-!
# Texts that are spelled back

Leaving the dots out of a text and putting dots in again gives the text back only if its dots are
where dots are put in. That is a matter of neighbours: a character is a dot just if the next one is a
capital (`Adjoin`). At the ends of the text, where a neighbour is missing, there is no dot.

## Main statements

* `wellDotted_iff` — dots and capitals by their positions, and by neighbours
* `ofFlat_flatten_iff` — which texts are spelled back
* `symbolCount_ofFlat` — the number of symbols of a flat text
-/

namespace SequenceConstraint.Dotted

/-! ## Well dotted texts -/

/-- Whether the dots of a text are where dots are put in. -/
structure WellDotted (s : List Char) : Prop where
  inside : ∀ i, s[i]? = some separator → 0 < i
  dots : ∀ i, s[i]? = some separator → ∃ c, s[i + 1]? = some c ∧ c.isUpper = true
  capitals : ∀ i c, s[i + 1]? = some c → c.isUpper = true → s[i]? = some separator

/-- Whether two characters may stand beside each other in a well dotted text. -/
def Adjoin (a b : Char) : Prop := a = separator ↔ b.isUpper = true

variable {a b : Char} {s f rest : List Char}

/-- A dot is no capital, so there is no dot before it. -/
theorem adjoin_separator : Adjoin a separator ↔ a ≠ separator := by
  have hdot : separator.isUpper = false := rfl
  simp [Adjoin, hdot]

/-- **A text is well dotted if all neighbours in it are,** and neither end of it is a dot. -/
theorem wellDotted_iff :
    WellDotted s ↔
      s.head? ≠ some separator ∧ s.IsChain Adjoin ∧ s.getLast? ≠ some separator := by
  rw [List.head?_eq_getElem?, List.getLast?_eq_getElem?, List.isChain_iff_getElem]
  constructor
  · intro h
    refine ⟨fun hfirst => Nat.lt_irrefl 0 (h.inside 0 hfirst), fun i hi => ?_, fun hlast => ?_⟩
    · have hleft : s[i]? = some s[i] := List.getElem?_eq_getElem (by omega)
      have hright : s[i + 1]? = some s[i + 1] := List.getElem?_eq_getElem hi
      constructor
      · intro hdot
        obtain ⟨c, hc, hupper⟩ := h.dots i (by rw [hleft, hdot])
        rw [hright] at hc
        rwa [Option.some.inj hc]
      · intro hupper
        have hdot := h.capitals i _ hright hupper
        rw [hleft] at hdot
        exact Option.some.inj hdot
    · -- nothing follows the last character
      obtain ⟨c, hc, -⟩ := h.dots _ hlast
      obtain ⟨hlength, -⟩ := List.getElem?_eq_some_iff.1 hc
      omega
  · rintro ⟨hfirst, hchain, hlast⟩
    refine ⟨fun i hi => Nat.pos_of_ne_zero ?_, fun i hi => ?_, fun i c hc hupper => ?_⟩
    · rintro rfl
      exact hfirst hi
    · obtain ⟨hlength, hdot⟩ := List.getElem?_eq_some_iff.1 hi
      by_cases hnext : i + 1 < s.length
      · exact ⟨s[i + 1], List.getElem?_eq_getElem hnext, (hchain i hnext).1 hdot⟩
      · have heq : i = s.length - 1 := by omega
        exact absurd (heq ▸ hi) hlast
    · obtain ⟨hnext, rfl⟩ := List.getElem?_eq_some_iff.1 hc
      rw [List.getElem?_eq_getElem (by omega), (hchain i hnext).2 hupper]

/-! ## Spelling back -/

/-- Putting dots in makes neighbours right. The character before is no dot. -/
theorem isChain_flatMap_separated (h : separator ∉ a :: f) :
    (a :: f.flatMap separated).IsChain Adjoin ∧
      (a :: f.flatMap separated).getLast? ≠ some separator := by
  induction f generalizing a with
  | nil =>
    obtain ⟨ha, -⟩ := not_or.1 fun hor => h (List.mem_cons.2 hor)
    refine ⟨.singleton a, fun hlast => ha ?_⟩
    exact (Option.some.inj hlast).symm
  | cons b f ih =>
    obtain ⟨ha, hf⟩ := not_or.1 fun hor => h (List.mem_cons.2 hor)
    have hb : b ≠ separator := fun heq => hf (heq ▸ List.mem_cons_self)
    obtain ⟨hchain, hlast⟩ := ih hf
    rw [List.flatMap_cons, separated]
    split
    · rename_i hupper
      refine ⟨.cons_cons (adjoin_separator.2 (Ne.symm ha)) (.cons_cons ?_ hchain), ?_⟩
      · exact iff_of_true rfl hupper
      · rwa [List.cons_append, List.cons_append, List.nil_append, List.getLast?_cons_cons,
          List.getLast?_cons_cons]
    · rename_i hupper
      refine ⟨.cons_cons ?_ hchain, ?_⟩
      · exact iff_of_false (Ne.symm ha) hupper
      · rwa [List.cons_append, List.nil_append, List.getLast?_cons_cons]

/-- With the right neighbours all dots are put in again. A dot before is put in as well. -/
theorem flatMap_separated_flatten_of_isChain (hchain : (a :: rest).IsChain Adjoin)
    (hlast : (a :: rest).getLast? ≠ some separator) :
    (flatten rest).flatMap separated = if a = separator then separator :: rest else rest := by
  induction rest generalizing a with
  | nil =>
    have ha : a ≠ separator := fun heq => hlast (congrArg some heq)
    rw [if_neg ha]
    rfl
  | cons b rest ih =>
    obtain ⟨hab, hrest⟩ := List.isChain_cons_cons.1 hchain
    rw [List.getLast?_cons_cons] at hlast
    have hback := ih hrest hlast
    by_cases hb : b = separator
    · subst hb
      rw [if_neg (adjoin_separator.1 hab)]
      rwa [if_pos rfl] at hback
    · rw [if_neg hb] at hback
      have hkept : flatten (b :: rest) = b :: flatten rest :=
        List.filter_cons_of_pos (bne_iff_ne.2 hb)
      rw [hkept, List.flatMap_cons, hback, separated]
      by_cases hupper : b.isUpper = true
      · rw [if_pos hupper, if_pos (hab.2 hupper)]
        rfl
      · rw [if_neg hupper, if_neg (mt hab.1 hupper)]
        rfl

theorem separator_notMem_flatten (s : List Char) : separator ∉ flatten s := by
  intro hmem
  exact absurd (List.mem_filter.1 hmem).2 (by decide)

/-- What is spelled with dots is well dotted. -/
theorem wellDotted_ofFlat (h : separator ∉ f) : WellDotted (ofFlat f) := by
  cases f with
  | nil => exact wellDotted_iff.2 ⟨nofun, .nil, nofun⟩
  | cons c cs =>
    refine wellDotted_iff.2 ⟨fun hfirst => h ?_, isChain_flatMap_separated h⟩
    rw [← Option.some.inj hfirst]
    exact List.mem_cons_self

/-- **Just the well dotted texts are spelled back.** -/
theorem ofFlat_flatten_iff : ofFlat (flatten s) = s ↔ WellDotted s := by
  constructor
  · intro h
    have hdotted := wellDotted_ofFlat (separator_notMem_flatten s)
    rwa [h] at hdotted
  · intro h
    obtain ⟨hfirst, hchain, hlast⟩ := wellDotted_iff.1 h
    cases s with
    | nil => rfl
    | cons c cs =>
      have hc : c ≠ separator := fun heq => hfirst (congrArg some heq)
      have hkept : flatten (c :: cs) = c :: flatten cs :=
        List.filter_cons_of_pos (bne_iff_ne.2 hc)
      rw [hkept, ofFlat, flatMap_separated_flatten_of_isChain hchain hlast, if_neg hc]

/-! ## Number of symbols -/

theorem count_flatMap_separated (h : separator ∉ f) :
    (f.flatMap separated).count separator = f.countP Char.isUpper := by
  induction f with
  | nil => rfl
  | cons c cs ih =>
    obtain ⟨hc, hcs⟩ := not_or.1 fun hor => h (List.mem_cons.2 hor)
    rw [List.flatMap_cons, List.count_append, ih hcs, separated]
    split
    · rename_i hupper
      rw [List.countP_cons_of_pos hupper, List.count_cons_self,
        List.count_cons_of_ne (Ne.symm hc), List.count_nil]
      omega
    · rename_i hupper
      rw [List.countP_cons_of_neg hupper, List.count_cons_of_ne (Ne.symm hc), List.count_nil]
      omega

/-- **Each capital of a flat text begins a symbol,** and so does its first character. -/
theorem symbolCount_ofFlat (h : separator ∉ f) :
    symbolCount (ofFlat f) = if f = [] then 0 else 1 + f.tail.countP Char.isUpper := by
  cases f with
  | nil => rfl
  | cons c cs =>
    obtain ⟨hc, hcs⟩ := not_or.1 fun hor => h (List.mem_cons.2 hor)
    rw [ofFlat, symbolCount_cons, List.count_cons_of_ne (Ne.symm hc), count_flatMap_separated hcs,
      if_neg (List.cons_ne_nil c cs), List.tail_cons, Nat.add_comm]

/-- **The two spellings.** A text is spelled back just if each of its dots has something before it
and a capital right after it, and each capital but the first character has a dot right before it. A
flat text is always given back, and has a symbol for its first character and one for each capital
after it. -/
theorem spellings_spec (s : List Char) {f : List Char} (hf : separator ∉ f) :
    (ofFlat (flatten s) = s ↔ WellDotted s) ∧ flatten (ofFlat f) = f ∧
      symbolCount (ofFlat f) = if f = [] then 0 else 1 + f.tail.countP Char.isUpper :=
  ⟨ofFlat_flatten_iff, by rw [flatten_ofFlat, flatten_of_notMem hf], symbolCount_ofFlat hf⟩

/-- A text with small letters in front, which is spelled back, and a flat text. -/
theorem spellings_open_close :
    separator ∉ ['o', 'p', 'C', 'l', 'O'] ∧ WellDotted ['o', 'p', '.', 'C', 'l', '.', 'O'] ∧
      flatten (ofFlat ['o', 'p', 'C', 'l', 'O']) = ['o', 'p', 'C', 'l', 'O'] ∧
      symbolCount (ofFlat ['o', 'p', 'C', 'l', 'O']) = 3 := by
  have hf : separator ∉ ['o', 'p', 'C', 'l', 'O'] := by decide
  obtain ⟨hback, hflat, hcount⟩ := spellings_spec ['o', 'p', '.', 'C', 'l', '.', 'O'] hf
  exact ⟨hf, hback.1 (by decide), hflat, hcount⟩

/-- A dot at the end, two dots beside each other and a capital without a dot are not put in. -/
example : ofFlat (flatten ['A', '.']) ≠ ['A', '.'] ∧
    ofFlat (flatten ['A', '.', '.', 'B']) ≠ ['A', '.', '.', 'B'] ∧
    ofFlat (flatten ['A', 'B']) ≠ ['A', 'B'] := by decide

end SequenceConstraint.Dotted
