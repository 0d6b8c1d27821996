import SequenceConstraint.Proofs.Language.Accepted
import SequenceConstraint.Proofs.Pattern.Selection
import SequenceConstraint.Proofs.Pattern.Symbols
import SequenceConstraint.Proofs.Syntax.Letters

/-!
# Combinations of symbols

A pattern keeps a second tree, for all combinations of its symbols. It is put together as text and
read again; for symbols made of letters nothing is lost on the way.

## Main statements

* `compile_eq_ok_iff` — what a compiled pattern consists of
* `parse_combinationsOf` — the tree that the combinations are read as
* `mem_language_combinationTree` — its texts are the symbols one after the other
-/

namespace SequenceConstraint.Pattern

open Syntax

/-! ## Compiling -/

theorem compile_eq (source : String) :
    compile source =
      if hasLookbehind source.toList then .error .unsupportedSyntax
      else
        match Tree.parse (flatSource source) with
        | .error e => .error (.malformed e)
        | .ok tree =>
          match Tree.parse (combinationsOf (symbolsOf source)) with
          | .error e => .error (.malformed e)
          | .ok combinations => .ok ⟨source, symbolsOf source, tree, combinations⟩ := by
  unfold compile compileWith
  by_cases hlook : hasLookbehind source.toList = true
  · rw [if_pos hlook, if_pos hlook]
    rfl
  · rw [if_neg hlook, if_neg hlook]
    cases htree : Tree.parse (flatSource source) with
    | error e => simp [htree]
    | ok tree =>
      cases hcombinations : Tree.parse (combinationsOf (symbolsOf source)) with
      | error e => simp [htree, hcombinations]
      | ok combinations => simp [htree, hcombinations]

theorem compile_eq_ok_iff {source : String} {p : Pattern} :
    compile source = .ok p ↔
      hasLookbehind source.toList = false ∧ p.source = source ∧ p.symbols = symbolsOf source ∧
        Tree.parse (flatSource source) = .ok p.tree ∧
        Tree.parse (combinationsOf (symbolsOf source)) = .ok p.combinations := by
  rw [compile_eq]
  constructor
  · intro h
    split at h
    · cases h
    · rename_i hlook
      split at h
      · cases h
      · rename_i tree htree
        split at h
        · cases h
        · rename_i combinations hcombinations
          cases h
          exact ⟨Bool.eq_false_iff.2 hlook, rfl, rfl, htree, hcombinations⟩
  · rintro ⟨hlook, hsource, hsymbols, htree, hcombinations⟩
    rw [hlook, htree, hcombinations, ← hsymbols, ← hsource]
    rfl

theorem hasLookbehind_eq_false {cs : List Char} (h : '?' ∉ cs) : hasLookbehind cs = false := by
  induction cs with
  | nil => rfl
  | cons c cs ih =>
    rw [List.mem_cons, not_or] at h
    unfold hasLookbehind
    split
    · rename_i heq
      cases heq
    · rename_i rest heq
      obtain ⟨-, rfl⟩ := List.cons.inj heq
      exact absurd List.mem_cons_self h.2
    · rename_i heq
      obtain ⟨-, rfl⟩ := List.cons.inj heq
      exact ih h.2

/-! ## The tree of the combinations -/

/-- The tree of `(C|M|O|S)+`, for some symbols. -/
def combinationTree (symbols : List (List Char)) : Tree :=
  ⟨[[.repetition 1 none (.group (.capture 1) (symbols.map (·.map .char)))]], 1⟩

theorem readAsBranches_letters {ws : List (List Char)} {k : Nat} (hne : ws ≠ [])
    (h : ∀ w ∈ ws, ∀ c ∈ w, c.isAlpha = true) :
    ReadAsBranches (['|'].intercalate ws) 0 k k (ws.map (·.map .char)) := by
  induction ws with
  | nil => exact absurd rfl hne
  | cons w ws ih =>
    obtain ⟨hw, hws⟩ := List.forall_mem_cons.1 h
    cases ws with
    | nil =>
      rw [List.intercalate_singleton]
      exact (readAs_letters hw).branch
    | cons v ws =>
      rw [List.intercalate_cons_cons, List.append_assoc]
      exact (readAs_letters hw).or (ih (List.cons_ne_nil v ws) hws)

theorem combinationsOf_eq (symbols : List (List Char)) :
    combinationsOf (symbols.map String.ofList) =
      String.ofList ('(' :: ['|'].intercalate symbols ++ [')', '+']) := by
  apply String.toList_inj.1
  simp [combinationsOf, String.toList_intercalate, Function.comp_def]

/-- **Symbols made of letters are read as they were written.** -/
theorem parse_combinationsOf {symbols : List (List Char)} (hne : symbols ≠ [])
    (h : ∀ w ∈ symbols, ∀ c ∈ w, c.isAlpha = true) :
    Tree.parse (combinationsOf (symbols.map String.ofList)) = .ok (combinationTree symbols) := by
  have hread : ReadAs ('(' :: ['|'].intercalate symbols ++ [')'] ++ ['+']) 1 0 1
      [.repetition 1 none (.group (.capture 1) (symbols.map (·.map .char)))] :=
    (readAs_group (readAsBranches_letters hne h)).quantified tokenizes_plus (by decide)
  rw [List.append_assoc] at hread
  rw [combinationsOf_eq]
  exact hread.parse (by decide)

/-! ## Its language -/

theorem branchLanguage_chars (cap : ℕ∞) (w : List Char) :
    branchLanguage cap (w.map .char) = {w} := by
  induction w with
  | nil => rfl
  | cons c cs ih =>
    rw [List.map_cons, branchLanguage, if_neg (by simp [Node.isLookahead]), ih, Node.language]
    ext v
    rw [Language.mem_mul]
    constructor
    · rintro ⟨_, rfl, _, rfl, rfl⟩
      rfl
    · rintro rfl
      exact ⟨[c], rfl, cs, rfl, rfl⟩

theorem plain_of_mem_chars {w : List Char} {n : Node} (h : n ∈ branchNodes (w.map .char)) :
    n.Plain := by
  obtain ⟨m, hm, hn⟩ := mem_branchNodes.1 h
  obtain ⟨c, -, rfl⟩ := List.mem_map.1 hm
  obtain rfl := List.mem_singleton.1 hn
  trivial

theorem combinationTree_plain (symbols : List (List Char)) :
    ∀ n ∈ (combinationTree symbols).nodes, n.Plain := by
  rw [combinationTree, Tree.nodes, branchesNodes, branchesNodes, List.append_nil]
  refine plain_repeatedGroup (Nat.le_refl 1) fun n hn => ?_
  obtain ⟨b, hb, hn⟩ := mem_branchesNodes.1 hn
  obtain ⟨w, -, rfl⟩ := List.mem_map.1 hb
  exact plain_of_mem_chars hn

/-- **The combinations are the symbols one after the other.** -/
theorem mem_language_combinationTree {symbols : List (List Char)} {cap : Nat} {w : List Char} :
    w ∈ (combinationTree symbols).language cap ↔
      ∃ vs : List (List Char), (∀ v ∈ vs, v ∈ symbols) ∧ 1 ≤ vs.length ∧ vs.length ≤ 1 + cap ∧
        w = vs.flatten := by
  have hgroup : ∀ v, v ∈ branchesLanguage cap (symbols.map (·.map .char)) ↔ v ∈ symbols := by
    intro v
    rw [mem_branchesLanguage]
    constructor
    · rintro ⟨b, hb, hv⟩
      obtain ⟨u, hu, rfl⟩ := List.mem_map.1 hb
      rw [branchLanguage_chars] at hv
      obtain rfl : v = u := hv
      exact hu
    · intro hv
      refine ⟨_, List.mem_map.2 ⟨v, hv, rfl⟩, ?_⟩
      rw [branchLanguage_chars]
      rfl
  have hlanguage : (combinationTree symbols).language cap =
      repeatedLanguage cap 1 none (branchesLanguage cap (symbols.map (·.map .char))) := by
    rw [combinationTree, Tree.language, branchesLanguage, branchesLanguage, add_zero,
      branchLanguage_repeatedGroup]
  rw [hlanguage]
  simp only [mem_repeatedLanguage, within_iff, Language.mem_pow, hgroup]
  constructor
  · rintro ⟨_, ⟨hmin, hmax⟩, vs, rfl, rfl, hvs⟩
    exact ⟨vs, hvs, hmin, hmax, rfl⟩
  · rintro ⟨vs, hvs, hmin, hmax, rfl⟩
    exact ⟨vs.length, ⟨hmin, hmax⟩, vs, rfl, rfl, hvs⟩

end SequenceConstraint.Pattern
