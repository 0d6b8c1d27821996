import SequenceConstraint.Proofs.Generation.Characters
import SequenceConstraint.Proofs.Pattern.Combinations
import SequenceConstraint.Proofs.Pattern.Window
import SequenceConstraint.Proofs.Syntax.Leaves

/-!
# Separators in listed sequences

Texts are generated flat and listed with dots, and membership leaves the dots out again. The two
spellings of a listed sequence are spellings of each other as long as no dot is generated. Dots are
left out of a pattern before it is read, yet a class can take a dot, and so can a character that is
written with its code.

## Main statements

* `validSequences_separated` — listed sequences are well separated if no node takes a dot
* `dotless_of_compile` — none does if a pattern is written without brackets and backslashes
* `not_forall_validSequences_separated` — which they need not be otherwise
-/

namespace SequenceConstraint

namespace Dotted

variable {t : List Char}

/-- The dots that are put in are left out again. -/
theorem flatten_ofFlat (t : List Char) : flatten (ofFlat t) = flatten t := by
  have htail : ∀ rest : List Char, flatten (rest.flatMap separated) = flatten rest := by
    intro rest
    induction rest with
    | nil => rfl
    | cons c cs ih =>
      have hc : flatten (separated c) = flatten [c] := by
        unfold separated
        split
        · rfl
        · rfl
      rw [List.flatMap_cons, flatten_append, hc, ih, ← flatten_append]
      rfl
  cases t with
  | nil => rfl
  | cons c rest =>
    show flatten ([c] ++ rest.flatMap separated) = flatten ([c] ++ rest)
    rw [flatten_append, flatten_append, htail]

/-- **Without dots in a flat text** the dotted spelling gives it back. -/
theorem ofFlat_flatten_ofFlat (h : separator ∉ t) : ofFlat (flatten (ofFlat t)) = ofFlat t := by
  rw [flatten_ofFlat, flatten_of_notMem h]

/-- Past the first symbol no symbol is empty. -/
theorem nil_notMem_tail_splitOn (h : separator ∉ t) :
    [] ∉ ((t.flatMap separated).splitOn separator).tail := by
  induction t with
  | nil => simp
  | cons c cs ih =>
    obtain ⟨hne, hcs⟩ := not_or.1 fun hor => h (List.mem_cons.2 hor)
    have hsep : (c == separator) = false := beq_eq_false_iff_ne.2 (Ne.symm hne)
    rw [List.flatMap_cons, separated]
    split
    · -- a capital begins a symbol
      show [] ∉ ((separator :: c :: cs.flatMap separated).splitOn separator).tail
      rw [List.splitOn_cons_eq_if_modifyHead, if_pos (beq_self_eq_true separator), List.tail_cons,
        List.splitOn_cons_eq_if_modifyHead, hsep, if_neg Bool.false_ne_true]
      cases hsplit : (cs.flatMap separated).splitOn separator with
      | nil => exact absurd hsplit (List.splitOn_ne_nil _ _)
      | cons w ws =>
        rw [hsplit] at ih
        simpa using ih hcs
    · show [] ∉ ((c :: cs.flatMap separated).splitOn separator).tail
      rw [List.splitOn_cons_eq_if_modifyHead, hsep, if_neg Bool.false_ne_true, List.tail_modifyHead]
      exact ih hcs

/-- **No symbol of a dotted spelling is empty** if there is anything to spell. -/
theorem nil_notMem_splitOn_ofFlat (h : separator ∉ t) (hne : t ≠ []) :
    [] ∉ (ofFlat t).splitOn separator := by
  cases t with
  | nil => exact absurd rfl hne
  | cons c cs =>
    obtain ⟨hc, hcs⟩ := not_or.1 fun hor => h (List.mem_cons.2 hor)
    have hsep : (c == separator) = false := beq_eq_false_iff_ne.2 (Ne.symm hc)
    have htail := nil_notMem_tail_splitOn hcs
    rw [ofFlat, List.splitOn_cons_eq_if_modifyHead, hsep, if_neg Bool.false_ne_true]
    cases hsplit : (cs.flatMap separated).splitOn separator with
    | nil => exact absurd hsplit (List.splitOn_ne_nil _ _)
    | cons w ws =>
      rw [hsplit] at htail
      simpa using htail

end Dotted

/-- Whether no node of a tree takes a dot. -/
def Tree.Dotless (tree : Tree) : Prop := ∀ n ∈ tree.nodes, ¬n.Takes Dotted.separator

instance (tree : Tree) : Decidable tree.Dotless :=
  inferInstanceAs (Decidable (∀ n ∈ tree.nodes, ¬n.Takes Dotted.separator))

namespace Pattern

open Syntax

variable {p : Pattern}

/-- **Without brackets and backslashes in a pattern** no node of its tree takes a dot. -/
theorem dotless_of_compile {source : String} (hp : compile source = .ok p)
    (hbracket : '[' ∉ source.toList) (hbackslash : '\\' ∉ source.toList) : p.tree.Dotless := by
  intro n hn htakes
  have hleaf : n.Leaf := by
    cases n with
    | group kind branches => exact htakes.elim
    | repetition min max body => exact htakes.elim
    | _ => trivial
  obtain ⟨-, -, -, htree, -⟩ := compile_eq_ok_iff.1 hp
  obtain ⟨c, more, left, hsuffix, hread⟩ := Tree.exists_readToken_of_parse htree hn hleaf
  have hmem : c ∈ Dotted.flatten source.toList := by
    rw [flatSource, String.toList_ofList] at hsuffix
    exact hsuffix.subset List.mem_cons_self
  obtain ⟨hsource, hdot⟩ := List.mem_filter.1 hmem
  have hspecial : c ∉ ['[', '\\', '.'] := by
    simp only [List.mem_cons, List.not_mem_nil, or_false]
    rintro (rfl | rfl | rfl)
    · exact hbracket hsource
    · exact hbackslash hsource
    · exact absurd hdot (by decide)
  rcases plain_readToken hread hspecial with rfl | ⟨a, rfl⟩
  · have hdot' : c = Dotted.separator := htakes
    subst hdot'
    exact absurd hdot (by decide)
  · exact htakes.elim

/-- A valid sequence is the dotted spelling of a text that is generated. -/
theorem exists_flat_of_mem_validTexts {n : Nat} {out : List (List Char)}
    (hout : p.validTexts n = .ok out) {s : List Char} (hs : s ∈ out) :
    ∃ plan, p.tree.plan = .ok plan ∧ ∃ state ∈ (plan.run n []).toList,
      Dotted.ofFlat (state []).text = s := by
  obtain ⟨plan, found, hplan, -, ⟨-, rfl⟩ | ⟨first, rest, -, hselect⟩⟩ :=
    validTexts_eq_ok_iff.1 hout
  · cases hs
  · exact ⟨plan, hplan, List.mem_map.1 ((mem_select hselect).1 hs).1⟩

/-- **Listed sequences are well separated** if no node of the tree takes a dot: the two spellings of
one are spellings of each other, no two of them have one flat spelling, and none has an empty
symbol in it. -/
theorem validSequences_separated (h : p.tree.Dotless) {n : Nat} {v : List String}
    (hv : p.validSequences n = .ok v) :
    (∀ s ∈ v, Dotted.ofFlat (Dotted.flatten s.toList) = s.toList) ∧
      (∀ s ∈ v, ∀ t ∈ v, Dotted.flatten s.toList = Dotted.flatten t.toList → s = t) ∧
      ∀ s ∈ v, s = "" ∨ [] ∉ s.toList.splitOn Dotted.separator := by
  obtain ⟨out, hout, rfl⟩ := map_eq_ok_iff.1 hv
  have hflat : ∀ s ∈ out.map String.ofList,
      ∃ t, Dotted.separator ∉ t ∧ Dotted.ofFlat t = s.toList := by
    intro s hs
    obtain ⟨_, hmem, rfl⟩ := List.mem_map.1 hs
    obtain ⟨plan, hplan, state, hstate, rfl⟩ := exists_flat_of_mem_validTexts hout hmem
    refine ⟨(state []).text, fun hdot => ?_, String.toList_ofList.symm⟩
    obtain ⟨m, hm, htakes⟩ := Tree.exists_takes hplan hstate _ hdot
    exact h m hm htakes
  have hspelling : ∀ s ∈ out.map String.ofList,
      Dotted.ofFlat (Dotted.flatten s.toList) = s.toList := by
    intro s hs
    obtain ⟨t, ht, hst⟩ := hflat s hs
    rw [← hst, Dotted.ofFlat_flatten_ofFlat ht]
  refine ⟨hspelling, fun s hs t ht heq => ?_, fun s hs => ?_⟩
  · rw [← String.toList_inj, ← hspelling s hs, ← hspelling t ht, heq]
  · obtain ⟨t, ht, hst⟩ := hflat s hs
    rw [← hst]
    by_cases hnil : t = []
    · subst hnil
      exact .inl (String.toList_inj.1 hst.symm)
    · exact .inr (Dotted.nil_notMem_splitOn_ofFlat ht hnil)

/-- The pattern `O.[R-T]?`, compiled. -/
def bracketed : Pattern where
  source := "O.[R-T]?"
  symbols := ["O", "[R-T]?"]
  tree := ⟨[[.char 'O', .repetition 0 (some 1) (.charClass ⟨false, [.interval 'R' 'T']⟩)]], 0⟩
  combinations := ⟨[[.repetition 1 none (.group (.capture 1) [[.char 'O'],
    [.repetition 0 (some 1) (.charClass ⟨false, [.interval 'R' 'T']⟩)]])]], 1⟩

theorem bracketed_separated :
    bracketed.tree.Dotless ∧ bracketed.validSequences 1 = .ok ["O", "O.R", "O.S", "O.T"] ∧
      ∀ s ∈ ["O", "O.R", "O.S", "O.T"], Dotted.ofFlat (Dotted.flatten s.toList) = s.toList := by
  have hdotless : bracketed.tree.Dotless := by decide
  have hlisted : bracketed.validSequences 1 = .ok ["O", "O.R", "O.S", "O.T"] := by decide +kernel
  exact ⟨hdotless, hlisted, (validSequences_separated hdotless hlisted).1⟩

/-- **A listed sequence may end in a dot:** the pattern `A\x2e?` is read as `A` with a dot after it,
or without. -/
theorem not_forall_validSequences_separated :
    ¬ ∀ (source : String) (p : Pattern) (n : Nat) (v : List String), compile source = .ok p →
      p.validSequences n = .ok v → ∀ s ∈ v, Dotted.ofFlat (Dotted.flatten s.toList) = s.toList := by
  intro h
  let p : Pattern := {
    source := "A\\x2e?"
    symbols := ["A\\x2e?"]
    tree := ⟨[[.char 'A', .repetition 0 (some 1) (.char '.')]], 0⟩
    combinations := ⟨[[.repetition 1 none (.group (.capture 1)
      [[.char 'A', .repetition 0 (some 1) (.char '.')]])]], 1⟩ }
  have hcompile : compile "A\\x2e?" = .ok p := by decide +kernel
  have hlisted : p.validSequences 1 = .ok ["A", "A."] := by decide +kernel
  have hspelled := h _ p 1 _ hcompile hlisted "A." (by decide)
  exact absurd hspelled (by decide)

end Pattern

end SequenceConstraint
