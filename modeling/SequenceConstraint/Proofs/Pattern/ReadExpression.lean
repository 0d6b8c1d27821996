import SequenceConstraint.Proofs.Pattern.Combinations
import SequenceConstraint.Proofs.Pattern.Expression

/-!
# How expressions are read

Without its dots an expression is read as a tree with one capturing group for each pair of
parentheses, numbered from left to right. The language of that tree is the language of the
expression, with each symbol spelled out.

## Main statements

* `readAs_flatten_render` — the nodes that an expression is read as
* `branchLanguage_nodes` — their language
* `exists_compile` — every expression that is not nested too deep is compiled
-/

namespace SequenceConstraint

open Syntax

/-! ## Spelling -/

/-- The texts of some symbols. -/
def symbolTexts (ws : List Symbol) : List (List Char) := ws.map Subtype.val

theorem isSymbol_of_mem_symbolTexts {ws : List Symbol} :
    ∀ w ∈ symbolTexts ws, Dotted.IsSymbol w := by
  intro w hw
  obtain ⟨s, -, rfl⟩ := List.mem_map.1 hw
  exact s.2

theorem length_symbolTexts (ws : List Symbol) : (symbolTexts ws).length = ws.length :=
  List.length_map _

theorem symbolTexts_append (u v : List Symbol) :
    symbolTexts (u ++ v) = symbolTexts u ++ symbolTexts v :=
  List.map_append

/-- A language of symbols, spelled out without dots. -/
def spelled (l : Language Symbol) : Language Char := {w | ∃ ws ∈ l, (symbolTexts ws).flatten = w}

section Spelled

variable {l m : Language Symbol}

theorem mem_spelled {w : List Char} : w ∈ spelled l ↔ ∃ ws ∈ l, (symbolTexts ws).flatten = w :=
  Iff.rfl

theorem spelled_singleton (s : Symbol) : spelled {[s]} = {s.1} := by
  ext w
  rw [mem_spelled]
  constructor
  · rintro ⟨_, rfl, rfl⟩
    exact List.flatten_singleton
  · rintro rfl
    exact ⟨[s], rfl, List.flatten_singleton⟩

theorem flatten_symbolTexts_append (u v : List Symbol) :
    (symbolTexts (u ++ v)).flatten = (symbolTexts u).flatten ++ (symbolTexts v).flatten := by
  rw [symbolTexts_append, List.flatten_append]

theorem spelled_mul (l m : Language Symbol) : spelled (l * m) = spelled l * spelled m := by
  ext w
  rw [mem_spelled, Language.mem_mul]
  constructor
  · rintro ⟨_, ⟨u, hu, v, hv, rfl⟩, rfl⟩
    exact ⟨_, ⟨u, hu, rfl⟩, _, ⟨v, hv, rfl⟩, (flatten_symbolTexts_append u v).symm⟩
  · rintro ⟨_, ⟨u, hu, rfl⟩, _, ⟨v, hv, rfl⟩, rfl⟩
    exact ⟨u ++ v, ⟨u, hu, v, hv, rfl⟩, flatten_symbolTexts_append u v⟩

theorem spelled_add (l m : Language Symbol) : spelled (l + m) = spelled l + spelled m := by
  ext w
  simp only [mem_spelled, Language.mem_add, or_and_right, exists_or]

theorem spelled_pow (l : Language Symbol) (k : Nat) : spelled (l ^ k) = spelled l ^ k := by
  induction k with
  | zero =>
    ext w
    rw [pow_zero, pow_zero, Language.mem_one, mem_spelled]
    constructor
    · rintro ⟨_, rfl, rfl⟩
      rfl
    · rintro rfl
      exact ⟨[], rfl, rfl⟩
  | succ k ih => rw [pow_succ, pow_succ, spelled_mul, ih]

theorem spelled_repeatedLanguage (cap : ℕ∞) (min : Nat) (max : Option Nat) (l : Language Symbol) :
    spelled (repeatedLanguage cap min max l) = repeatedLanguage cap min max (spelled l) := by
  ext w
  simp only [mem_spelled, mem_repeatedLanguage, ← spelled_pow]
  constructor
  · rintro ⟨ws, ⟨k, hk, hws⟩, rfl⟩
    exact ⟨k, hk, ws, hws, rfl⟩
  · rintro ⟨k, hk, ws, hws, rfl⟩
    exact ⟨ws, ⟨k, hk, hws⟩, rfl⟩

end Spelled

namespace Expression

/-! ## The nodes of an expression -/

/-- The number of capturing groups. -/
def captures : Expression → Nat
  | symbol _ => 0
  | sequence e f => e.captures + f.captures
  | choice e f => e.captures + f.captures + 1
  | plus e => e.captures + 1
  | star e => e.captures + 1

/-- What an expression is read as, after `k` capturing groups. -/
def nodes : Expression → (k : Nat) → Branch
  | symbol s, _ => s.1.map .char
  | sequence e f, k => e.nodes k ++ f.nodes (k + e.captures)
  | choice e f, k => [.group (.capture (k + 1)) [e.nodes (k + 1), f.nodes (k + 1 + e.captures)]]
  | plus e, k => [.repetition 1 none (.group (.capture (k + 1)) [e.nodes (k + 1)])]
  | star e, k => [.repetition 0 none (.group (.capture (k + 1)) [e.nodes (k + 1)])]

/-- **The nodes that an expression is read as.** -/
theorem readAs_flatten_render (e : Expression) (k : Nat) :
    ReadAs (Dotted.flatten e.render) e.depth k (k + e.captures) (e.nodes k) := by
  induction e generalizing k with
  | symbol s =>
    rw [render, Dotted.flatten_of_notMem s.2.separator_notMem]
    exact readAs_letters s.2.isAlpha
  | sequence e f ihe ihf =>
    have htext : Dotted.flatten (sequence e f).render =
        Dotted.flatten e.render ++ Dotted.flatten f.render := Dotted.flatten_append _ _
    have hcount : k + (sequence e f).captures = k + e.captures + f.captures := by
      rw [captures, Nat.add_assoc]
    rw [htext, hcount]
    exact ((ihe k).mono (Nat.le_max_left _ _)).append ((ihf _).mono (Nat.le_max_right _ _))
  | choice e f ihe ihf =>
    have htext : Dotted.flatten (choice e f).render =
        '(' :: (Dotted.flatten e.render ++ '|' :: Dotted.flatten f.render) ++ [')'] := by
      simp [render, Dotted.flatten, Dotted.separator]
    have hcount : k + (choice e f).captures = k + 1 + e.captures + f.captures := by
      rw [captures]
      omega
    rw [htext, hcount]
    refine readAs_group (((ihe _).mono (Nat.le_max_left _ _)).or ?_)
    exact ((ihf _).mono (Nat.le_max_right _ _)).branch
  | plus e ih =>
    have hcount : k + (plus e).captures = k + 1 + e.captures := by
      rw [captures]
      omega
    rw [render, Dotted.flatten_marked _ (by decide), hcount]
    exact (readAs_group (ih _).branch).quantified tokenizes_plus (by decide)
  | star e ih =>
    have hcount : k + (star e).captures = k + 1 + e.captures := by
      rw [captures]
      omega
    rw [render, Dotted.flatten_marked _ (by decide), hcount]
    exact (readAs_group (ih _).branch).quantified tokenizes_star (by decide)

theorem nodes_plain (e : Expression) (k : Nat) : ∀ n ∈ branchNodes (e.nodes k), n.Plain := by
  induction e generalizing k with
  | symbol s => exact fun n hn => Pattern.plain_of_mem_chars hn
  | sequence e f ihe ihf =>
    intro n hn
    rw [nodes, branchNodes_append, List.mem_append] at hn
    rcases hn with hn | hn
    · exact ihe _ n hn
    · exact ihf _ n hn
  | choice e f ihe ihf =>
    intro n hn
    simp only [nodes, branchNodes, Node.nodes, branchesNodes, List.append_nil, List.mem_cons,
      List.mem_append] at hn
    rcases hn with rfl | hn | hn
    · trivial
    · exact ihe _ n hn
    · exact ihf _ n hn
  | plus e ih =>
    refine plain_repeatedGroup (Nat.le_refl 1) ?_
    rw [branchesNodes, branchesNodes, List.append_nil]
    exact ih _
  | star e ih =>
    refine plain_repeatedGroup (Nat.zero_le 1) ?_
    rw [branchesNodes, branchesNodes, List.append_nil]
    exact ih _

/-- **The language of the nodes** is that of the expression, spelled out. -/
theorem branchLanguage_nodes (e : Expression) (k : Nat) (cap : ℕ∞) :
    branchLanguage cap (e.nodes k) = spelled (e.capped cap) := by
  induction e generalizing k with
  | symbol s => rw [nodes, Pattern.branchLanguage_chars, capped, spelled_singleton]
  | sequence e f ihe ihf => rw [nodes, branchLanguage_append, ihe, ihf, capped, spelled_mul]
  | choice e f ihe ihf =>
    rw [nodes, branchLanguage_singleton rfl, Node.language, branchesLanguage, branchesLanguage,
      branchesLanguage, add_zero, ihe, ihf, capped, spelled_add]
  | plus e ih =>
    rw [nodes, branchLanguage_repeatedGroup, branchesLanguage, branchesLanguage, add_zero, ih,
      capped, spelled_repeatedLanguage]
  | star e ih =>
    rw [nodes, branchLanguage_repeatedGroup, branchesLanguage, branchesLanguage, add_zero, ih,
      capped, spelled_repeatedLanguage]

/-! ## The tree of an expression -/

/-- What an expression is read as. -/
def tree (e : Expression) : Tree := ⟨[e.nodes 0], e.captures⟩

theorem language_tree (e : Expression) (cap : ℕ∞) :
    e.tree.language cap = spelled (e.capped cap) := by
  rw [tree, Tree.language, branchesLanguage, branchesLanguage, add_zero, branchLanguage_nodes]

theorem tree_plain (e : Expression) : ∀ n ∈ e.tree.nodes, n.Plain := by
  intro n hn
  rw [tree, Tree.nodes, branchesNodes, branchesNodes, List.append_nil] at hn
  exact e.nodes_plain 0 n hn

/-! ## Compiling an expression -/

/-- The symbols of an expression, from left to right. -/
def symbols : Expression → List Symbol
  | symbol s => [s]
  | sequence e f => e.symbols ++ f.symbols
  | choice e f => e.symbols ++ f.symbols
  | plus e => e.symbols
  | star e => e.symbols

theorem symbols_ne_nil (e : Expression) : e.symbols ≠ [] := by
  induction e with
  | symbol s => exact List.cons_ne_nil s []
  | sequence e f ihe ihf => exact List.append_ne_nil_of_left_ne_nil ihe _
  | choice e f ihe ihf => exact List.append_ne_nil_of_left_ne_nil ihe _
  | plus e ih => exact ih
  | star e ih => exact ih

/-- The runs between the operators of a text that are not empty. -/
def runs (cs : List Char) : List (List Char) :=
  (cs.splitOnP Dotted.operators.contains).filter (!·.isEmpty)

theorem runs_append_cons (cs ds : List Char) {op : Char} (h : op ∈ Dotted.operators) :
    runs (cs ++ op :: ds) = runs cs ++ runs ds := by
  rw [runs, List.splitOnP_append_cons cs ds (List.contains_iff_mem.2 h), List.filter_append]
  rfl

theorem runs_cons (ds : List Char) {op : Char} (h : op ∈ Dotted.operators) :
    runs (op :: ds) = runs ds :=
  runs_append_cons [] ds h

/-- A text without operators is not cut. -/
theorem runs_of_plain {w : List Char} (h : ∀ c ∈ w, c ∉ Dotted.operators) :
    runs w = if w = [] then [] else [w] := by
  have hsplit : w.splitOnP Dotted.operators.contains = [w] := by
    refine List.splitOnP_eq_singleton fun c hc => ?_
    rw [← Bool.not_eq_true, List.contains_iff_mem]
    exact h c hc
  rw [runs, hsplit]
  cases w <;> rfl

theorem runs_of_isSymbol {w : List Char} (h : Dotted.IsSymbol w) : runs w = [w] := by
  have hother : Dotted.operators.all (!Char.isAlpha ·) = true := by decide
  rw [List.all_eq_true] at hother
  have hplain : ∀ c ∈ w, c ∉ Dotted.operators := by
    intro c hc hop
    have hletter := hother c hop
    rw [h.isAlpha c hc] at hletter
    cases hletter
  rw [runs_of_plain hplain, if_neg h.ne_nil]

/-- **Between the operators of an expression stand its symbols.** -/
theorem runs_render (e : Expression) : runs e.render = symbolTexts e.symbols := by
  induction e with
  | symbol s => exact runs_of_isSymbol s.2
  | sequence e f ihe ihf =>
    rw [render, runs_append_cons _ _ (by decide), ihe, ihf, symbols, symbolTexts_append]
  | choice e f ihe ihf =>
    have hclose : runs [')'] = [] := by decide
    rw [render, List.append_assoc, List.cons_append, runs_cons _ (by decide), List.cons_append,
      runs_append_cons _ _ (by decide), runs_append_cons _ _ (by decide), ihe, ihf, symbols,
      symbolTexts_append]
    show _ ++ (_ ++ []) = _
    rw [List.append_nil]
  | plus e ih =>
    rw [render, List.cons_append, runs_cons _ (by decide), runs_append_cons _ _ (by decide), ih]
    exact List.append_nil _
  | star e ih =>
    rw [render, List.cons_append, runs_cons _ (by decide), runs_append_cons _ _ (by decide), ih]
    exact List.append_nil _

theorem mem_symbols_render {e : Expression} {w : List Char} :
    w ∈ Dotted.symbols e.render ↔ w ∈ symbolTexts e.symbols := by
  rw [Dotted.symbols, Dotted.mem_ascending, ← runs_render, runs]

theorem symbols_render (e : Expression) :
    Dotted.symbols e.render ≠ [] ∧ ∀ w ∈ Dotted.symbols e.render, Dotted.IsSymbol w := by
  constructor
  · intro hnil
    obtain ⟨s, hs⟩ := List.exists_mem_of_ne_nil _ e.symbols_ne_nil
    have hmem := mem_symbols_render.2 (List.mem_map.2 ⟨s, hs, rfl⟩)
    rw [hnil] at hmem
    cases hmem
  · intro w hw
    exact isSymbol_of_mem_symbolTexts w (mem_symbols_render.1 hw)

/-- **Every expression that is not nested too deep is compiled.** -/
theorem exists_compile {e : Expression} (h : e.depth ≤ maxDepth) :
    ∃ p, Pattern.compile (String.ofList e.render) = .ok p ∧ p.tree = e.tree := by
  have hread := e.readAs_flatten_render 0
  have hmark : '?' ∉ e.render := fun hmem => hread.unmarked (List.mem_filter.2 ⟨hmem, rfl⟩)
  obtain ⟨hne, hsymbols⟩ := e.symbols_render
  have htree := hread.parse h
  rw [Nat.zero_add] at htree
  let p : Pattern :=
    ⟨String.ofList e.render, Pattern.symbolsOf (String.ofList e.render),
      e.tree, Pattern.combinationTree (Dotted.symbols e.render)⟩
  refine ⟨p, Pattern.compile_eq_ok_iff.2 ⟨?_, rfl, rfl, ?_, ?_⟩, rfl⟩
  · rw [String.toList_ofList]
    exact Pattern.hasLookbehind_eq_false hmark
  · rw [Pattern.flatSource, String.toList_ofList, htree]
    rfl
  · rw [Pattern.symbolsOf, String.toList_ofList]
    exact Pattern.parse_combinationsOf hne fun w hw => (hsymbols w hw).isAlpha

end Expression

end SequenceConstraint
