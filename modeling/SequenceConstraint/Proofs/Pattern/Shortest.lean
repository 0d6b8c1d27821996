import Mathlib.Order.Bounds.Basic
import SequenceConstraint.Proofs.Agreement.Trees
import SequenceConstraint.Proofs.Pattern.Coverage
import SequenceConstraint.Proofs.Pattern.Separation

/-!
# The shortest sequence

How many symbols a listed sequence may have is counted from the first sequence that is found
without further repeats. On an admissible tree (`Tree.Admissible`) no accepted sequence has fewer:
some number of repeats generates it, the same text without further repeats is a subsequence of it,
and that one is accepted too, as is all that is generated.

A lookahead or an anchor may reject the text without further repeats, and then a later sequence can
be shorter than the first.

## Main statements

* `isLeast_symbolCount` — the first sequence is a shortest one
* `not_forall_symbolCount_le` — which it need not be with a lookahead
-/

namespace SequenceConstraint

namespace Dotted

variable {s t : List Char}

/-- The dots of a part of a flat text are there in the whole. -/
theorem ofFlat_sublist (h : s.Sublist t) : (ofFlat s).Sublist (ofFlat t) := by
  have hchar : ∀ c, [c].Sublist (separated c) := by
    intro c
    unfold separated
    split
    · exact List.sublist_cons_self separator [c]
    · exact .refl [c]
  cases s with
  | nil => exact List.nil_sublist _
  | cons c cs =>
    cases h with
    | cons d hrest =>
      -- the first character of the part may get a dot in the whole
      have hfirst : (c :: cs.flatMap separated).Sublist ((c :: cs).flatMap separated) :=
        (hchar c).append (.refl _)
      exact (hfirst.trans (hrest.flatMap separated)).cons d
    | cons_cons _ hrest => exact (hrest.flatMap separated).cons_cons c

theorem symbolCount_le_of_sublist (h : s.Sublist t) : symbolCount s ≤ symbolCount t := by
  cases s with
  | nil => exact Nat.zero_le _
  | cons c cs =>
    cases t with
    | nil => cases h
    | cons d ds =>
      rw [symbolCount_cons, symbolCount_cons]
      exact Nat.succ_le_succ (h.count_le separator)

/-- **A part of a flat text has no more symbols.** -/
theorem symbolCount_ofFlat_le (h : s.Sublist t) :
    symbolCount (ofFlat s) ≤ symbolCount (ofFlat t) :=
  symbolCount_le_of_sublist (ofFlat_sublist h)

/-- Spelling a sequence anew adds no symbols. -/
theorem symbolCount_ofFlat_flatten_le (t : List Char) :
    symbolCount (ofFlat (flatten (ofFlat t))) ≤ symbolCount (ofFlat t) := by
  rw [flatten_ofFlat]
  exact symbolCount_ofFlat_le List.filter_sublist

end Dotted

/-! ## Generated texts without further repeats -/

section Admissible

open Matching

variable {tree : Tree} {plan : Plan} {cap : Nat} {w : List Char}

theorem Tree.Admissible.confined (h : tree.Admissible) : tree.Confined := h.alternatives

/-- What an admissible tree lists, it does not reject. -/
theorem Tree.Admissible.matches_of_mem_texts (h : tree.Admissible) (hplan : tree.plan = .ok plan)
    (hw : w ∈ tree.texts cap) : tree.matches? w ≠ some false := by
  rw [← h.confined.map_text_run h.distinct hplan cap] at hw
  obtain ⟨state, hstate, rfl⟩ := List.mem_map.1 hw
  obtain ⟨ps, σ, hps, rfl⟩ := Tree.plan_eq_ok_iff.1 hplan
  intro hmatch
  have hsim := simulates_tree h cap hps (state []).text.toArray
  obtain ⟨t, ht, hposition, -⟩ := hsim.sound (state []) _ ⟨state, hstate, rfl⟩
    (reads_whole_iff.2 rfl)
  exact absurd ((matches?_eq_some hmatch).2 ⟨t, ht, hposition⟩) Bool.false_ne_true

/-- What an admissible tree accepts, it lists with a large enough cap. -/
theorem Tree.Admissible.mem_texts_of_matches (h : tree.Admissible) (hplan : tree.plan = .ok plan)
    (hw : tree.matches? w = some true) : w ∈ tree.texts w.length := by
  rw [← h.confined.map_text_run h.distinct hplan]
  obtain ⟨ps, σ, hps, rfl⟩ := Tree.plan_eq_ok_iff.1 hplan
  have hsim := simulates_tree h w.length hps w.toArray
  obtain ⟨t, ht, hposition⟩ := (matches?_eq_some hw).1 rfl
  obtain ⟨r, ⟨state, hstate, hr⟩, hreads, -⟩ := hsim.complete (Nat.le_refl _) t ht
  rw [hposition] at hreads
  refine List.mem_map.2 ⟨state, hstate, ?_⟩
  rw [hr]
  exact hreads.eq_whole

/-- **Without further repeats** an admissible tree lists a part of each text that it accepts. -/
theorem Tree.Admissible.exists_sublist_texts_zero (h : tree.Admissible)
    (hplan : tree.plan = .ok plan) (hw : tree.matches? w = some true) :
    ∃ t ∈ tree.texts 0, t.Sublist w :=
  h.confined.exists_sublist h.distinct h.bodies 0 w.length w (h.mem_texts_of_matches hplan hw)

end Admissible

/-! ## The first sequence of the list -/

namespace Pattern

variable {p : Pattern} {first : List Char} {rest : List (List Char)}

/-- **No accepted sequence has fewer symbols** than the first that is found without further
repeats. -/
theorem symbolCount_first_le (h : p.tree.Admissible) {plan : Plan} (hplan : p.tree.plan = .ok plan)
    (hfound : p.select (fun _ => true) true (plan.run 0 []) = .ok (first :: rest))
    {s : List Char} (hs : p.checkText s = .ok true) :
    Dotted.symbolCount first ≤ Dotted.symbolCount (Dotted.ofFlat (Dotted.flatten s)) := by
  obtain ⟨t, ht, hsub⟩ := h.exists_sublist_texts_zero hplan (checkText_eq_ok_iff.1 hs)
  have hdots : Dotted.separator ∉ t := fun hdot => by
    simpa [Dotted.flatten] using hsub.subset hdot
  have hmem : Dotted.ofFlat t ∈ sequencesOf (plan.run 0 []) :=
    (mem_sequencesOf_iff_texts h.confined h.distinct hplan).2 ⟨t, ht, rfl⟩
  -- the part is accepted as well, so it is among what is found
  obtain ⟨b, hb⟩ := exists_checkText hfound hmem rfl
  have hverdict : b ≠ false := by
    rintro rfl
    rw [checkText_eq_ok_iff, Dotted.flatten_ofFlat, Dotted.flatten_of_notMem hdots] at hb
    exact h.matches_of_mem_texts hplan ht hb
  rw [Bool.eq_true_of_not_eq_false hverdict] at hb
  have hle := symbolCount_head_le hfound ((mem_select hfound).2 ⟨hmem, rfl, hb⟩)
  exact Nat.le_trans hle (Dotted.symbolCount_ofFlat_le hsub)

/-- A listed sequence is accepted, and spelled anew it has no more symbols. -/
theorem accepted_of_mem_validTexts {n : Nat} {out : List (List Char)}
    (hout : p.validTexts n = .ok out) {s : List Char} (hs : s ∈ out) :
    p.checkText s = .ok true ∧
      Dotted.symbolCount (Dotted.ofFlat (Dotted.flatten s)) ≤ Dotted.symbolCount s := by
  obtain ⟨-, -, state, -, hstate⟩ := exists_flat_of_mem_validTexts hout hs
  refine ⟨(validTexts_sound hout).2.1 s hs, ?_⟩
  rw [← hstate]
  exact Dotted.symbolCount_ofFlat_flatten_le _

/-- **The first sequence is a shortest one** of all that are accepted, and the listed sequences have
at most `n` symbols more than it, and none has fewer. -/
theorem isLeast_symbolCount (h : p.tree.Admissible) {first : String} {rest : List String}
    (hzero : p.validSequences 0 = .ok (first :: rest)) :
    IsLeast {k | ∃ s, p.check s = .ok true ∧
        Dotted.symbolCount (Dotted.ofFlat (Dotted.flatten s.toList)) = k}
      (Dotted.symbolCount first.toList) ∧
    ∀ n v, p.validSequences n = .ok v → ∀ s ∈ v,
      Dotted.symbolCount first.toList ≤ Dotted.symbolCount s.toList ∧
        Dotted.symbolCount s.toList ≤ Dotted.symbolCount first.toList + n := by
  obtain ⟨out, hout, hcons⟩ := map_eq_ok_iff.1 hzero
  obtain ⟨plan, found, hplan, hfound, -⟩ := validTexts_eq_ok_iff.1 hout
  obtain ⟨out', hout', hhead⟩ := exists_validTexts_zero hplan hfound
  obtain rfl : out = out' := Except.ok.inj (hout.symm.trans hout')
  cases out with
  | nil => cases hcons
  | cons head tail =>
    obtain ⟨rfl, rfl⟩ := List.cons.inj hcons
    obtain ⟨found, rfl⟩ := List.head?_eq_some_iff.1 hhead.symm
    simp only [String.toList_ofList]
    have hleast : ∀ s, p.checkText s = .ok true →
        Dotted.symbolCount head ≤ Dotted.symbolCount (Dotted.ofFlat (Dotted.flatten s)) :=
      fun s => symbolCount_first_le h hplan hfound
    refine ⟨⟨?_, ?_⟩, fun n v hv s hs => ?_⟩
    · obtain ⟨hcheck, hle⟩ := accepted_of_mem_validTexts hout List.mem_cons_self
      refine ⟨String.ofList head, ?_, ?_⟩
      · rw [check, String.toList_ofList]
        exact hcheck
      · rw [String.toList_ofList]
        exact Nat.le_antisymm hle (hleast head hcheck)
    · rintro k ⟨s, hs, rfl⟩
      exact hleast s.toList hs
    · obtain ⟨texts, htexts, rfl⟩ := map_eq_ok_iff.1 hv
      obtain ⟨t, ht, rfl⟩ := List.mem_map.1 hs
      rw [String.toList_ofList]
      obtain ⟨hcheck, hle⟩ := accepted_of_mem_validTexts htexts ht
      obtain ⟨-, -, out₀, hout₀, hwindow⟩ := validTexts_sound htexts
      obtain rfl : head :: tail = out₀ := Except.ok.inj (hout.symm.trans hout₀)
      obtain ⟨first, hfirst, hcount⟩ := hwindow t ht
      cases hfirst
      exact ⟨Nat.le_trans (hleast t hcheck) hle, hcount⟩

/-- The pattern `((A|B)C*\2)+D`, compiled. -/
def enclosed : Pattern where
  source := "((A|B)C*\\2)+D"
  symbols := ["A", "B", "C", "D", "\\2"]
  tree := ⟨[[.repetition 1 none (.group (.capture 1)
      [[.group (.capture 2) [[.char 'A'], [.char 'B']], .repetition 0 none (.char 'C'),
        .backreference 2]]), .char 'D']], 2⟩
  combinations := ⟨[[.repetition 1 none (.group (.capture 1)
    [[.char 'A'], [.char 'B'], [.char 'C'], [.char 'D'], [.backreference 2]])]], 1⟩

theorem enclosed_admissible : enclosed.tree.Admissible where
  noLookahead := by decide
  noAnchor := by simp [enclosed, Tree.nodes, branchesNodes, branchNodes, Node.nodes]
  distinct := by decide
  inRange := by decide
  unbounded min body h := by
    simp [enclosed, Tree.nodes, branchesNodes, branchNodes, Node.nodes] at h
    rcases h with ⟨rfl, -⟩ | ⟨rfl, -⟩
    · exact Nat.le_refl 1
    · exact Nat.zero_le 1
  bodies min max body h := by
    simp [enclosed, Tree.nodes, branchesNodes, branchNodes, Node.nodes] at h
    rcases h with ⟨rfl, rfl, rfl⟩ | ⟨rfl, rfl, rfl⟩
    · decide
    · decide
  alternatives branches h hmany := by
    rcases h with rfl | ⟨kind, h⟩
    · simp [enclosed] at hmany
    · simp [enclosed, Tree.nodes, branchesNodes, branchNodes, Node.nodes] at h
      rcases h with ⟨rfl, rfl⟩ | ⟨rfl, rfl⟩
      · simp at hmany
      · decide

theorem enclosed_isLeast_symbolCount :
    compile "((A|B)C*\\2)+D" = .ok enclosed ∧ enclosed.tree.Admissible ∧
      enclosed.validSequences 0 = .ok ["A.A.D", "B.B.D"] ∧
      IsLeast {k | ∃ s, enclosed.check s = .ok true ∧
        Dotted.symbolCount (Dotted.ofFlat (Dotted.flatten s.toList)) = k} 3 := by
  have hlisted : enclosed.validSequences 0 = .ok ["A.A.D", "B.B.D"] := by decide +kernel
  exact ⟨by decide +kernel, enclosed_admissible, hlisted,
    (isLeast_symbolCount enclosed_admissible hlisted).1⟩

/-- **The first sequence need not be a shortest one:** the pattern `(?=A)A*|B.C` accepts `A`, but
without repeats the lookahead has nothing to look at, and only `B.C` is found. -/
theorem not_forall_symbolCount_le :
    ¬ ∀ (source : String) (p : Pattern) (n : Nat) (first : String) (rest v : List String),
      compile source = .ok p → p.validSequences 0 = .ok (first :: rest) →
        p.validSequences n = .ok v →
          ∀ s ∈ v, Dotted.symbolCount first.toList ≤ Dotted.symbolCount s.toList := by
  intro h
  let p : Pattern := {
    source := "(?=A)A*|B.C"
    symbols := ["?=A", "A", "B", "C"]
    tree := ⟨[[.group (.lookahead false) [[.char 'A']], .repetition 0 none (.char 'A')],
      [.char 'B', .char 'C']], 0⟩
    combinations := ⟨[[.repetition 1 none (.group (.lookahead false)
      [[.char 'A'], [.char 'A'], [.char 'B'], [.char 'C']])]], 0⟩ }
  have hcompile : compile "(?=A)A*|B.C" = .ok p := by decide +kernel
  have hnarrow : p.validSequences 0 = .ok ["B.C"] := by decide +kernel
  have hwide : p.validSequences 1 = .ok ["A", "B.C"] := by decide +kernel
  have hle := h _ p 1 _ _ _ hcompile hnarrow hwide "A" List.mem_cons_self
  exact absurd hle (by decide)

end Pattern

end SequenceConstraint
