import SequenceConstraint.Proofs.Pattern.Formula
import SequenceConstraint.Proofs.Pattern.Valid

/-!
# Symbols in membership

A formula stands for a language of sequences of symbols, each symbol being a letter
(`Formula.language`). The matcher goes by characters: behind a symbol a mark repeats the last letter
alone, so what it decides is another language, of characters (`Formula.spelling`). The two are the
same as long as every mark stands behind parentheses or a symbol of one letter.

## Main statements

* `Formula.check_iff_mem_spelling` — what is accepted, for all formulas
* `Formula.spelling_eq` — when that is the language of the formula, spelled out
* `Formula.check_iff_mem_language` — then a sequence is accepted if and only if it is in the language
* `Formula.not_forall_check_iff` — which it need not be if a longer symbol is repeated
-/

namespace SequenceConstraint

open scoped Computability

/-! ## Languages -/

/-- Without a cap a repetition stands for the powers from its smallest number of repeats on. -/
theorem repeatedLanguage_top {α : Type} (min : Nat) (l : Language α) :
    repeatedLanguage ⊤ min none l = l ^ min * l∗ := by
  ext w
  simp only [mem_repeatedLanguage, within_top_iff, Language.mem_mul]
  constructor
  · rintro ⟨k, ⟨hmin, -⟩, hw⟩
    rw [← Nat.add_sub_cancel' hmin, pow_add, Language.mem_mul] at hw
    obtain ⟨u, hu, v, hv, rfl⟩ := hw
    refine ⟨u, hu, v, ?_, rfl⟩
    rw [Language.kstar_eq_iSup_pow, Language.mem_iSup]
    exact ⟨_, hv⟩
  · rintro ⟨u, hu, v, hv, rfl⟩
    rw [Language.kstar_eq_iSup_pow, Language.mem_iSup] at hv
    obtain ⟨k, hv⟩ := hv
    refine ⟨min + k, ⟨Nat.le_add_right min k, by simp⟩, ?_⟩
    rw [pow_add]
    exact Language.append_mem_mul hu hv

theorem branchesLanguage_append (cap : ℕ∞) (bs cs : List (List Node)) :
    branchesLanguage cap (bs ++ cs) = branchesLanguage cap bs + branchesLanguage cap cs := by
  induction bs with
  | nil => rw [List.nil_append, branchesLanguage, zero_add]
  | cons b bs ih => rw [List.cons_append, branchesLanguage, branchesLanguage, ih, add_assoc]

theorem branchesLanguage_singleton (cap : ℕ∞) (b : List Node) :
    branchesLanguage cap [b] = branchLanguage cap b := by
  rw [branchesLanguage, branchesLanguage, add_zero]

theorem branchLanguage_repeated (cap : ℕ∞) (min : Nat) (n : Node) :
    branchLanguage cap [.repetition min none n] =
      repeatedLanguage cap min none (n.language cap) := by
  rw [branchLanguage_singleton rfl, Node.language]
  simp

/-! ## Sequences of symbols -/

/-- **Sequences of symbols that are spelled alike are the same:** a symbol begins at each capital
and nowhere else. -/
theorem eq_of_flatten_symbolTexts_eq {u v : List Symbol}
    (h : (symbolTexts u).flatten = (symbolTexts v).flatten) : u = v := by
  have hjoin : Dotted.join (symbolTexts u) = Dotted.join (symbolTexts v) := by
    rw [← Dotted.ofFlat_flatten isSymbol_of_mem_symbolTexts,
      ← Dotted.ofFlat_flatten isSymbol_of_mem_symbolTexts, h]
  have hlength : u.length = v.length := by
    rw [← length_symbolTexts u, ← length_symbolTexts v,
      ← Dotted.symbolCount_join isSymbol_of_mem_symbolTexts,
      ← Dotted.symbolCount_join isSymbol_of_mem_symbolTexts, hjoin]
  have hdots : ∀ ws : List Symbol, ∀ w ∈ symbolTexts ws, Dotted.separator ∉ w := fun ws w hw =>
    (isSymbol_of_mem_symbolTexts w hw).separator_notMem
  cases u with
  | nil => exact (List.length_eq_zero_iff.1 hlength.symm).symm
  | cons s u =>
    cases v with
    | nil => cases hlength
    | cons t v =>
      -- what stands between the dots are the symbols
      have hsplit := congrArg (List.splitOn Dotted.separator) hjoin
      rw [Dotted.join, Dotted.join,
        List.splitOn_intercalate _ (hdots (s :: u)) (List.cons_ne_nil _ _),
        List.splitOn_intercalate _ (hdots (t :: v)) (List.cons_ne_nil _ _)] at hsplit
      exact List.map_injective_iff.2 Subtype.val_injective hsplit

theorem mem_spelled_flatten {l : Language Symbol} {ws : List Symbol} :
    (symbolTexts ws).flatten ∈ spelled l ↔ ws ∈ l := by
  rw [mem_spelled]
  constructor
  · rintro ⟨vs, hvs, h⟩
    rwa [← eq_of_flatten_symbolTexts_eq h]
  · intro h
    exact ⟨ws, h, rfl⟩

namespace Formula

variable {b : Binding}

/-- The sequences of symbols that a formula stands for. -/
def language : {b : Binding} → Formula b → Language Symbol
  | _, symbol s => {[s]}
  | _, group f => f.language
  | _, plus f => f.language * f.language∗
  | _, star f => f.language∗
  | _, sequence f g _ _ => f.language * g.language
  | _, choice f g => f.language + g.language

/-! ### The language of characters -/

/-- What a mark makes of a symbol or a group whose spelling is `whole`: of a symbol it repeats the
last letter. -/
def marked (min : Nat) (whole : Language Char) : Formula .atom → Language Char
  | symbol s => {s.1.dropLast} * ({s.1.getLast?.toList} ^ min * {s.1.getLast?.toList}∗)
  | group _ => whole ^ min * whole∗

/-- The texts without dots that a formula accepts. -/
def spelling : {b : Binding} → Formula b → Language Char
  | _, symbol s => {s.1}
  | _, group f => f.spelling
  | _, plus f => f.marked 1 f.spelling
  | _, star f => f.marked 0 f.spelling
  | _, sequence f g _ _ => f.spelling * g.spelling
  | _, choice f g => f.spelling + g.spelling

/-- The branches behind a mark. -/
theorem branchesLanguage_repeatLast (f : Formula .atom) (k min : Nat)
    (ih : branchesLanguage ⊤ (f.branches k) = f.spelling) :
    branchesLanguage ⊤ ((f.branches k).map (repeatLast min)) = f.marked min f.spelling := by
  cases f with
  | symbol s =>
    obtain ⟨front, c, hs⟩ := (List.eq_nil_or_concat' s.1).resolve_left s.2.ne_nil
    have hbranches : (symbol s).branches k = [front.map .char ++ [.char c]] := by
      rw [branches, hs, List.map_append]
      rfl
    have hlast : (Node.char c).language ⊤ = {[c]} := by rw [Node.language]
    rw [hbranches, List.map_singleton, repeatLast_concat, branchesLanguage_singleton,
      branchLanguage_append, branchLanguage_repeated, Pattern.branchLanguage_chars, hlast,
      repeatedLanguage_top, marked, hs]
    simp
  | group f =>
    have hnode : (Node.group (.capture (k + 1)) (f.branches (k + 1))).language ⊤ = f.spelling := by
      rwa [branches, branchesLanguage_singleton, branchLanguage_singleton rfl, spelling] at ih
    rw [branches, List.map_singleton, ← List.nil_append [Node.group _ _], repeatLast_concat,
      List.nil_append, branchesLanguage_singleton, branchLanguage_repeated, hnode,
      repeatedLanguage_top, marked, spelling]

/-- **The language of the branches** of a formula. -/
theorem branchesLanguage_branches (f : Formula b) (k : Nat) :
    branchesLanguage ⊤ (f.branches k) = f.spelling := by
  induction f generalizing k with
  | symbol s => rw [branches, branchesLanguage_singleton, Pattern.branchLanguage_chars, spelling]
  | group f ih =>
    rw [branches, branchesLanguage_singleton, branchLanguage_singleton rfl, Node.language, spelling]
    exact ih (k + 1)
  | plus f ih => exact branchesLanguage_repeatLast f k 1 (ih k)
  | star f ih => exact branchesLanguage_repeatLast f k 0 (ih k)
  | sequence f g hf hg ihf ihg =>
    have hfirst := ihf k
    have hsecond := ihg (k + f.captures)
    rw [f.branches_eq k hf, branchesLanguage_singleton] at hfirst
    rw [g.branches_eq _ hg, branchesLanguage_singleton] at hsecond
    rw [branches, branchesLanguage_singleton, branchLanguage_append, hfirst, hsecond, spelling]
  | choice f g ihf ihg => rw [branches, branchesLanguage_append, ihf k, ihg, spelling]

/-! ### Marks behind nodes -/

/-- A symbol of one letter, or a group. -/
def OneNode : Formula .atom → Prop
  | symbol s => s.1.length = 1
  | group _ => True

/-- Whether every mark stands behind a group or a symbol of one letter. -/
def MarksNodes : {b : Binding} → Formula b → Prop
  | _, symbol _ => True
  | _, group f => f.MarksNodes
  | _, plus f => f.OneNode ∧ f.MarksNodes
  | _, star f => f.OneNode ∧ f.MarksNodes
  | _, sequence f g _ _ => f.MarksNodes ∧ g.MarksNodes
  | _, choice f g => f.MarksNodes ∧ g.MarksNodes

theorem marked_eq {f : Formula .atom} (min : Nat) (h : f.OneNode)
    (ih : f.spelling = spelled f.language) :
    f.marked min f.spelling = spelled (f.language ^ min * f.language∗) := by
  have hwhole : f.marked min f.spelling = f.spelling ^ min * f.spelling∗ := by
    cases f with
    | symbol s =>
      obtain ⟨c, hs⟩ := List.length_eq_one_iff.1 h
      have hempty : ({[]} : Language Char) = 1 := rfl
      rw [marked, spelling, hs, List.dropLast_singleton, hempty, one_mul]
      rfl
    | group f => rfl
  rw [hwhole, ih, ← repeatedLanguage_top, ← spelled_repeatedLanguage, repeatedLanguage_top]

/-- **Behind nodes marks repeat whole symbols.** -/
theorem spelling_eq (f : Formula b) (h : f.MarksNodes) : f.spelling = spelled f.language := by
  induction f with
  | symbol s => rw [spelling, language, spelled_singleton]
  | group f ih => exact ih h
  | plus f ih =>
    have hmarked := marked_eq 1 h.1 (ih h.2)
    rw [pow_one] at hmarked
    exact hmarked
  | star f ih =>
    have hmarked := marked_eq 0 h.1 (ih h.2)
    rw [pow_zero, one_mul] at hmarked
    exact hmarked
  | sequence f g hf hg ihf ihg => rw [spelling, language, ihf h.1, ihg h.2, spelled_mul]
  | choice f g ihf ihg => rw [spelling, language, ihf h.1, ihg h.2, spelled_add]

/-! ### Nodes without conditions -/

/-- A mark puts no condition on what stands around it. -/
theorem plain_repeatLast {f : Formula .atom} {k min : Nat} (hmin : min ≤ 1)
    (ih : ∀ n ∈ branchesNodes (f.branches k), n.Plain) :
    ∀ n ∈ branchesNodes ((f.branches k).map (repeatLast min)), n.Plain := by
  obtain ⟨front, m, hbranches⟩ := f.exists_branches_eq k
  rw [hbranches, branchesNodes, branchesNodes, List.append_nil, branchNodes_append] at ih
  rw [hbranches, List.map_singleton, repeatLast_concat, branchesNodes, branchesNodes,
    List.append_nil, branchNodes_append]
  intro n hn
  simp only [branchNodes, Node.nodes, List.append_nil, List.mem_append, List.mem_cons] at hn ih
  rcases hn with hn | rfl | hn
  · exact ih n (.inl hn)
  · exact hmin
  · exact ih n (.inr hn)

theorem branches_plain (f : Formula b) (k : Nat) :
    ∀ n ∈ branchesNodes (f.branches k), n.Plain := by
  induction f generalizing k with
  | symbol s =>
    intro n hn
    rw [branches, branchesNodes, branchesNodes, List.append_nil] at hn
    exact Pattern.plain_of_mem_chars hn
  | group f ih =>
    intro n hn
    simp only [branches, branchesNodes, branchNodes, Node.nodes, List.append_nil,
      List.mem_cons] at hn
    rcases hn with rfl | hn
    · trivial
    · exact ih (k + 1) n hn
  | plus f ih => exact plain_repeatLast (Nat.le_refl 1) (ih k)
  | star f ih => exact plain_repeatLast (Nat.zero_le 1) (ih k)
  | sequence f g hf hg ihf ihg =>
    intro n hn
    have hfirst := ihf k
    have hsecond := ihg (k + f.captures)
    rw [f.branches_eq k hf, branchesNodes, branchesNodes, List.append_nil] at hfirst
    rw [g.branches_eq _ hg, branchesNodes, branchesNodes, List.append_nil] at hsecond
    rw [branches, branchesNodes, branchesNodes, List.append_nil, branchNodes_append,
      List.mem_append] at hn
    rcases hn with hn | hn
    · exact hfirst n hn
    · exact hsecond n hn
  | choice f g ihf ihg =>
    simp only [forall_branchesNodes] at ihf ihg ⊢
    intro c hc
    rcases List.mem_append.1 hc with hc | hc
    · exact ihf k c hc
    · exact ihg _ c hc

/-! ## Membership -/

/-- **What is accepted:** the sequences whose texts without dots are in the spelling of the
formula. -/
theorem check_iff_mem_spelling {f : Formula b} {p : Pattern}
    (hp : Pattern.compile (String.ofList f.render) = .ok p) (xs : List Symbol) {verdict : Bool}
    (h : p.check (String.intercalate "." (xs.map fun x => String.ofList x.1)) = .ok verdict) :
    verdict = true ↔ (symbolTexts xs).flatten ∈ f.spelling := by
  obtain ⟨-, -, -, hparse, -⟩ := Pattern.compile_eq_ok_iff.1 hp
  rw [Pattern.flatSource, String.toList_ofList] at hparse
  have htree := f.eq_of_parse_flatten_render hparse
  have hplain : ∀ n ∈ p.tree.nodes, n.Plain := by
    rw [htree]
    exact f.branches_plain 0
  have hlanguage : p.tree.language ⊤ = f.spelling := by
    rw [htree]
    exact f.branchesLanguage_branches 0
  have hdots : ∀ w ∈ symbolTexts xs, Dotted.separator ∉ w := fun w hw =>
    (isSymbol_of_mem_symbolTexts w hw).separator_notMem
  rw [Pattern.check, ← Expression.ofList_join, String.toList_ofList, Pattern.checkText,
    Dotted.flatten_join hdots] at h
  cases hmatch : p.tree.matches? (symbolTexts xs).flatten with
  | none =>
    rw [hmatch] at h
    cases h
  | some accepted =>
    rw [hmatch] at h
    cases h
    rw [Tree.matches?_eq_some_iff hplain hmatch, hlanguage]

/-- **Symbols are atomic in membership:** the pattern of a formula whose marks stand behind nodes
accepts a sequence of symbols if and only if the sequence is in the language of the formula, where a
symbol is a letter. -/
theorem check_iff_mem_language {f : Formula b} {p : Pattern} (hf : f.MarksNodes)
    (hp : Pattern.compile (String.ofList f.render) = .ok p) (xs : List Symbol) {verdict : Bool}
    (h : p.check (String.intercalate "." (xs.map fun x => String.ofList x.1)) = .ok verdict) :
    verdict = true ↔ xs ∈ f.language := by
  rw [check_iff_mem_spelling hp xs h, f.spelling_eq hf, mem_spelled_flatten]

/-- The formula `(Ab|C)+.D*`. -/
def doorway : Formula .sequence :=
  .sequence (.plus (.group (.choice (.symbol ⟨['A', 'b'], by decide⟩) (.symbol ⟨['C'], by decide⟩))))
    (.star (.symbol ⟨['D'], by decide⟩)) (by decide) (by decide)

theorem doorway_check :
    ∃ p, Pattern.compile "(Ab|C)+.D*" = .ok p ∧ doorway.MarksNodes ∧ p.check "C.Ab.D" = .ok true ∧
      [⟨['C'], by decide⟩, ⟨['A', 'b'], by decide⟩, ⟨['D'], by decide⟩] ∈ doorway.language := by
  let xs : List Symbol := [⟨['C'], by decide⟩, ⟨['A', 'b'], by decide⟩, ⟨['D'], by decide⟩]
  let p : Pattern := ⟨"(Ab|C)+.D*", ["Ab", "C", "D"], doorway.tree,
    Pattern.combinationTree [['A', 'b'], ['C'], ['D']]⟩
  have hsource : String.ofList doorway.render = "(Ab|C)+.D*" := by decide +kernel
  have htext : String.intercalate "." (xs.map fun x => String.ofList x.1) = "C.Ab.D" := by
    decide +kernel
  have hp : Pattern.compile (String.ofList doorway.render) = .ok p := by decide +kernel
  have hcheck : p.check (String.intercalate "." (xs.map fun x => String.ofList x.1)) = .ok true := by
    decide +kernel
  have hmarks : doorway.MarksNodes := by simp [doorway, MarksNodes, OneNode]
  have hmem := (check_iff_mem_language hmarks hp xs hcheck).1 rfl
  rw [hsource] at hp
  rw [htext] at hcheck
  exact ⟨p, hp, hmarks, hcheck, hmem⟩

/-- **A longer symbol is not repeated as a whole:** `Ab+` stands for sequences of `Ab` only, but it
rejects `Ab.Ab`. -/
theorem not_forall_check_iff :
    ¬ ∀ (b : Binding) (f : Formula b) (p : Pattern) (xs : List Symbol) (verdict : Bool),
      Pattern.compile (String.ofList f.render) = .ok p →
      p.check (String.intercalate "." (xs.map fun x => String.ofList x.1)) = .ok verdict →
      (verdict = true ↔ xs ∈ f.language) := by
  intro h
  let ab : Symbol := ⟨['A', 'b'], by decide⟩
  let f : Formula .repeated := .plus (.symbol ab)
  have hp : Pattern.compile (String.ofList f.render) =
      .ok ⟨"Ab+", ["Ab"], f.tree, Pattern.combinationTree [['A', 'b']]⟩ := by decide +kernel
  have hmem : [ab, ab] ∈ f.language := by
    have hone : [ab] ∈ (symbol ab).language := rfl
    exact Language.append_mem_mul hone (Language.mem_kstar.2 ⟨[[ab]], rfl, by simpa using hone⟩)
  have hcheck := h _ f _ [ab, ab] false hp (by decide +kernel)
  cases hcheck.2 hmem

end Formula

end SequenceConstraint
