import Mathlib.Tactic.Choose
import SequenceConstraint.Proofs.Pattern.Combinations
import SequenceConstraint.Proofs.Syntax.Fragments

/-!
# Patterns that compile

A pattern is read twice: flat, and cut into its symbols, which are put together again between bars.
The second reading fails only if the cuts have gone through something: a symbol is a run between
operators, and what stands in a run need not be a text that can be read by itself. As long as each
symbol is, the second reading succeeds, and reads each symbol as it is read alone.

## Main statements

* `compile_iff_parse` — a pattern compiles if its text can be read, as long as its symbols can
* `compile_iff_parse_of_plain` — as they can where only operators stand between plain characters
* `not_forall_compile_iff_parse` — which it need not otherwise
-/

namespace SequenceConstraint

namespace Dotted

/-! ## Runs between operators -/

/-- What is cut at the characters of a kind has a first run that begins the text. -/
theorem exists_splitOnP_eq_cons (p : Char → Bool) (s : List Char) :
    ∃ v vs, s.splitOnP p = v :: vs ∧ v <+: s ∧ (∀ c ∈ v, p c = false) ∧
      ∀ w ∈ vs, w <:+: s ∧ ∀ c ∈ w, p c = false := by
  induction s with
  | nil => exact ⟨[], [], List.splitOnP_nil, List.prefix_rfl, by simp, by simp⟩
  | cons c cs ih =>
    obtain ⟨v, vs, hsplit, hbegins, hv, hvs⟩ := ih
    have htail : ∀ w ∈ vs, w <:+: c :: cs ∧ ∀ c ∈ w, p c = false := fun w hw =>
      ⟨(hvs w hw).1.trans (List.suffix_cons c cs).isInfix, (hvs w hw).2⟩
    rw [List.splitOnP_cons_eq_if_modifyHead, hsplit]
    split
    · refine ⟨[], v :: vs, rfl, List.nil_prefix, by simp, ?_⟩
      refine List.forall_mem_cons.2 ⟨⟨?_, hv⟩, htail⟩
      exact hbegins.isInfix.trans (List.suffix_cons c cs).isInfix
    · rename_i hc
      refine ⟨c :: v, vs, rfl, List.cons_prefix_cons.2 ⟨rfl, hbegins⟩, ?_, htail⟩
      exact List.forall_mem_cons.2 ⟨Bool.eq_false_iff.2 hc, hv⟩

/-- A run between the characters of a kind lies in the text, and has none of them. -/
theorem infix_of_mem_splitOnP {p : Char → Bool} {s w : List Char} (h : w ∈ s.splitOnP p) :
    w <:+: s ∧ ∀ c ∈ w, p c = false := by
  obtain ⟨v, vs, hsplit, hbegins, hv, hvs⟩ := exists_splitOnP_eq_cons p s
  rw [hsplit] at h
  rcases List.mem_cons.1 h with rfl | h
  · exact ⟨hbegins.isInfix, hv⟩
  · exact hvs w h

/-- A symbol lies in its pattern and has no operators. -/
theorem infix_of_mem_symbols {pattern w : List Char} (h : w ∈ symbols pattern) :
    w <:+: pattern ∧ ∀ op ∈ operators, op ∉ w := by
  rw [symbols, mem_ascending, List.mem_filter] at h
  obtain ⟨hwithin, hother⟩ := infix_of_mem_splitOnP h.1
  refine ⟨hwithin, fun op hop hmem => ?_⟩
  have hcontains := hother op hmem
  rw [List.contains_iff_mem.2 hop] at hcontains
  cases hcontains

end Dotted

namespace Pattern

open Syntax

/-! ## Putting symbols together -/

/-- **Symbols that can be read by themselves** are read alike between bars. -/
theorem exists_parse_combinationsOf {symbols : List (List Char)}
    (hops : ∀ w ∈ symbols, ∀ op ∈ Dotted.operators, op ∉ w)
    (h : ∀ w ∈ symbols, ∃ t, Tree.parse (String.ofList w) = .ok t) :
    ∃ branches, Tree.parse (combinationsOf (symbols.map String.ofList)) =
        .ok ⟨[[.repetition 1 none (.group (.capture 1) branches)]], 1⟩ ∧
      ∀ w ∈ symbols, ∃ b ∈ branches, Tree.parse (String.ofList w) = .ok ⟨[b], 0⟩ := by
  have hfragments : ∀ w ∈ symbols, ∃ b, Fragment w b := by
    intro w hw
    obtain ⟨t, ht⟩ := h w hw
    exact exists_fragment_of_parse (hops w hw _ (by decide)) (hops w hw _ (by decide))
      (hops w hw _ (by decide)) ht
  choose! branch hbranch using hfragments
  rw [combinationsOf_eq]
  by_cases hne : symbols = []
  · -- without symbols there is one empty branch
    subst hne
    have hempty : ∀ w ∈ [[]], Fragment w ((fun _ => []) w) := by
      intro w hw
      rw [List.mem_singleton.1 hw]
      exact fragment_nil
    have hparse := parse_repeated_group (List.cons_ne_nil [] []) hempty
    exact ⟨_, hparse, by simp⟩
  · refine ⟨symbols.map branch, parse_repeated_group hne hbranch, fun w hw => ?_⟩
    exact ⟨branch w, List.mem_map_of_mem hw, (hbranch w hw).parse⟩

/-- Symbols of a pattern that can be read by themselves are read alike in the combinations. -/
theorem exists_parse_combinations {source : String}
    (hsymbols : ∀ w ∈ symbolsOf source, ∃ t, Tree.parse w = .ok t) :
    ∃ branches, Tree.parse (combinationsOf (symbolsOf source)) =
        .ok ⟨[[.repetition 1 none (.group (.capture 1) branches)]], 1⟩ ∧
      ∀ w ∈ symbolsOf source, ∃ b ∈ branches, Tree.parse w = .ok ⟨[b], 0⟩ := by
  have hops : ∀ w ∈ Dotted.symbols source.toList, ∀ op ∈ Dotted.operators, op ∉ w := fun w hw =>
    (Dotted.infix_of_mem_symbols hw).2
  have hreadable : ∀ w ∈ Dotted.symbols source.toList, ∃ t, Tree.parse (String.ofList w) = .ok t :=
    fun w hw => hsymbols _ (List.mem_map_of_mem hw)
  obtain ⟨branches, hparse, hbranches⟩ := exists_parse_combinationsOf hops hreadable
  refine ⟨branches, hparse, fun w hw => ?_⟩
  obtain ⟨v, hv, rfl⟩ := List.mem_map.1 hw
  exact hbranches v hv

/-- Once the combinations can be read, only the text of the pattern is left to be read. -/
theorem compile_of_combinations {source : String} {combinations : Tree}
    (hlook : hasLookbehind source.toList = false)
    (hparse : Tree.parse (combinationsOf (symbolsOf source)) = .ok combinations) :
    compile source = match Tree.parse (flatSource source) with
      | .error e => .error (.malformed e)
      | .ok tree => .ok ⟨source, symbolsOf source, tree, combinations⟩ := by
  have hcompile := compile_eq source
  rw [hlook, if_neg Bool.false_ne_true, hparse] at hcompile
  exact hcompile

/-- Once the combinations can be read, just those patterns compile whose text can be read. -/
theorem exists_compile_iff_of_combinations {source : String} {combinations : Tree}
    (hlook : hasLookbehind source.toList = false)
    (hparse : Tree.parse (combinationsOf (symbolsOf source)) = .ok combinations) :
    (∃ p, compile source = .ok p) ↔ ∃ t, Tree.parse (flatSource source) = .ok t := by
  rw [compile_of_combinations hlook hparse]
  cases Tree.parse (flatSource source) with
  | error err => exact ⟨nofun, nofun⟩
  | ok tree => exact ⟨fun _ => ⟨tree, rfl⟩, fun _ => ⟨_, rfl⟩⟩

/-- **A pattern compiles if its text can be read,** as long as its symbols can be read by
themselves. Every error is then one in the text of the pattern. -/
theorem compile_iff_parse {source : String} (hlook : hasLookbehind source.toList = false)
    (hsymbols : ∀ w ∈ symbolsOf source, ∃ t, Tree.parse w = .ok t) :
    ((∃ p, compile source = .ok p) ↔ ∃ t, Tree.parse (flatSource source) = .ok t) ∧
      (∀ e, compile source = .error e → ∃ kind, e = .malformed ⟨flatSource source, kind⟩) ∧
      ∃ branches, Tree.parse (combinationsOf (symbolsOf source)) =
          .ok ⟨[[.repetition 1 none (.group (.capture 1) branches)]], 1⟩ ∧
        ∀ w ∈ symbolsOf source, ∃ b ∈ branches, Tree.parse w = .ok ⟨[b], 0⟩ := by
  obtain ⟨branches, hparse, hbranches⟩ := exists_parse_combinations hsymbols
  refine ⟨exists_compile_iff_of_combinations hlook hparse, fun e he => ?_, branches, hparse,
    hbranches⟩
  rw [compile_of_combinations hlook hparse] at he
  split at he
  · rename_i err herr
    cases he
    exact ⟨err.kind, by rw [← pattern_of_parse_error herr]⟩
  · cases he

theorem compile_quantified :
    hasLookbehind "O.[R-T]?.(M|N)*".toList = false ∧
      symbolsOf "O.[R-T]?.(M|N)*" = ["M", "N", "O", "[R-T]?"] ∧
      ∃ p, compile "O.[R-T]?.(M|N)*" = .ok p := by
  have hlook : hasLookbehind "O.[R-T]?.(M|N)*".toList = false := by decide
  have hsymbols : symbolsOf "O.[R-T]?.(M|N)*" = ["M", "N", "O", "[R-T]?"] := by decide +kernel
  have hread : ∀ w ∈ symbolsOf "O.[R-T]?.(M|N)*", (Tree.parse w).toBool = true := by decide +kernel
  have hexists : ∀ w ∈ symbolsOf "O.[R-T]?.(M|N)*", ∃ t, Tree.parse w = .ok t := by
    intro w hw
    have hw := hread w hw
    cases htree : Tree.parse w with
    | error e =>
      rw [htree] at hw
      cases hw
    | ok t => exact ⟨t, rfl⟩
  refine ⟨hlook, hsymbols, (compile_iff_parse hlook hexists).1.2 ?_⟩
  exact ⟨⟨[[.char 'O', .repetition 0 (some 1) (.charClass ⟨false, [.interval 'R' 'T']⟩),
    .repetition 0 none (.group (.capture 1) [[.char 'M'], [.char 'N']])]], 1⟩, by decide +kernel⟩

/-- **Among patterns without special characters** apart from the operators, just those compile whose
text can be read. -/
theorem compile_iff_parse_of_plain {source : String}
    (h : ∀ c ∈ ['?', '{', '[', '\\'], c ∉ source.toList) :
    (∃ p, compile source = .ok p) ↔ ∃ t, Tree.parse (flatSource source) = .ok t := by
  have hsymbols : ∀ w ∈ symbolsOf source, ∃ t, Tree.parse w = .ok t := by
    intro w hw
    obtain ⟨v, hv, rfl⟩ := List.mem_map.1 hw
    obtain ⟨hwithin, hops⟩ := Dotted.infix_of_mem_symbols hv
    have hplain : ∀ c ∈ v, Plain c := fun c hc =>
      ⟨fun hop => hops c hop hc, fun hspecial => h c hspecial (hwithin.subset hc)⟩
    obtain ⟨b, hb⟩ := exists_fragment_of_plain hplain
    exact ⟨_, hb.parse⟩
  obtain ⟨branches, hparse, -⟩ := exists_parse_combinations hsymbols
  have hlook : hasLookbehind source.toList = false := hasLookbehind_eq_false (h '?' (by decide))
  exact exists_compile_iff_of_combinations hlook hparse

/-- **A pattern whose text can be read need not compile:** the symbols of `(A)?` are `A` and the
question mark that has stood behind the parenthesis. Put together again they are `(?|A)+`. -/
theorem not_forall_compile_iff_parse :
    ¬ ∀ source : String, hasLookbehind source.toList = false →
      ((∃ p, compile source = .ok p) ↔ ∃ t, Tree.parse (flatSource source) = .ok t) := by
  intro h
  have hlook : hasLookbehind "(A)?".toList = false := by decide
  have htree : Tree.parse (flatSource "(A)?") =
      .ok ⟨[[.repetition 0 (some 1) (.group (.capture 1) [[.char 'A']])]], 1⟩ := by decide +kernel
  have herror : compile "(A)?" = .error (.malformed ⟨"(?|A)+", .invalidGroup⟩) := by decide +kernel
  obtain ⟨p, hp⟩ := (h "(A)?" hlook).2 ⟨_, htree⟩
  rw [herror] at hp
  cases hp

end Pattern

end SequenceConstraint
