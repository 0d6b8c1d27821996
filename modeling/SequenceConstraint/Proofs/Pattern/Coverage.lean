import SequenceConstraint.Proofs.Order.Caps
import SequenceConstraint.Proofs.Pattern.Combinations
import SequenceConstraint.Proofs.Pattern.Window
import SequenceConstraint.Proofs.Syntax.Captures

/-!
# Wider windows

Asked for more symbols, a pattern should list all the valid sequences it has listed before, and
more. It does if its references are confined (`Tree.Confined`). With a reference to a group in one
of several branches it may lose sequences: an alternation shows a text once only, and a larger cap
lets an earlier branch show the text of the branch with the group.

## Main statements

* `validSequences_subset` — a wider window loses nothing
* `not_forall_validSequences_subset` — which it may if references are not confined
-/

namespace SequenceConstraint.Pattern

/-- What is generated for a tree are the texts that it lists. -/
theorem mem_sequencesOf_iff_texts {tree : Tree} (h : tree.Confined)
    (hdistinct : (captureIndices tree.nodes).Nodup) {plan : Plan} (hplan : tree.plan = .ok plan)
    {cap : Nat} {s : List Char} :
    s ∈ sequencesOf (plan.run cap []) ↔ ∃ t ∈ tree.texts cap, Dotted.ofFlat t = s := by
  rw [← h.map_text_run hdistinct hplan cap, sequencesOf]
  simp only [List.mem_map, exists_exists_and_eq_and]

/-- **A wider window loses nothing** if references are confined. -/
theorem validSequences_subset {source : String} {p : Pattern} (hp : compile source = .ok p)
    (h : p.tree.Confined) {n k : Nat} (hle : n ≤ k) {v w : List String}
    (hv : p.validSequences n = .ok v) (hw : p.validSequences k = .ok w) : ∀ s ∈ v, s ∈ w := by
  obtain ⟨-, -, -, hparse, -⟩ := compile_eq_ok_iff.1 hp
  have hdistinct := Tree.nodup_captureIndices_of_parse hparse
  obtain ⟨texts, htexts, rfl⟩ := map_eq_ok_iff.1 hv
  obtain ⟨texts', htexts', rfl⟩ := map_eq_ok_iff.1 hw
  obtain ⟨plan, found, hplan, hfound, hcases⟩ := validTexts_eq_ok_iff.1 htexts
  obtain ⟨plan', found', hplan', hfound', hcases'⟩ := validTexts_eq_ok_iff.1 htexts'
  -- both windows begin with the same sequence
  obtain rfl : plan = plan' := Except.ok.inj (hplan.symm.trans hplan')
  obtain rfl : found = found' := Except.ok.inj (hfound.symm.trans hfound')
  rcases hcases with ⟨-, rfl⟩ | ⟨first, rest, rfl, hselect⟩
  · exact fun s hs => absurd hs List.not_mem_nil
  · obtain ⟨_, _, hfirst, hselect'⟩ := hcases'.resolve_left (by simp)
    obtain ⟨rfl, rfl⟩ := List.cons.inj hfirst
    intro s hs
    obtain ⟨t, ht, rfl⟩ := List.mem_map.1 hs
    obtain ⟨hgenerated, hfits, haccepted⟩ := (mem_select hselect).1 ht
    obtain ⟨flat, hflat, rfl⟩ := (mem_sequencesOf_iff_texts h hdistinct hplan).1 hgenerated
    have hgenerated' : Dotted.ofFlat flat ∈ sequencesOf (plan.run k []) :=
      (mem_sequencesOf_iff_texts h hdistinct hplan).2
        ⟨flat, h.texts_subset hdistinct hle flat hflat, rfl⟩
    have hfits := of_decide_eq_true hfits
    have hfits' : Dotted.symbolCount (Dotted.ofFlat flat) ≤ Dotted.symbolCount first + k := by
      omega
    exact List.mem_map.2 ⟨_, (mem_select hselect').2
      ⟨hgenerated', decide_eq_true hfits', haccepted⟩, rfl⟩

/-- The pattern `(A|B)C*\1`, compiled. -/
def mirrored : Pattern where
  source := "(A|B)C*\\1"
  symbols := ["A", "B", "C", "\\1"]
  tree := ⟨[[.group (.capture 1) [[.char 'A'], [.char 'B']], .repetition 0 none (.char 'C'),
    .backreference 1]], 1⟩
  combinations := ⟨[[.repetition 1 none (.group (.capture 1)
    [[.char 'A'], [.char 'B'], [.char 'C'], [.backreference 1]])]], 1⟩

theorem mirrored_confined : mirrored.tree.Confined := by
  intro branches h hmany
  rcases h with rfl | ⟨kind, h⟩
  · simp [mirrored] at hmany
  · simp [mirrored, Tree.nodes, branchesNodes, branchNodes, Node.nodes] at h
    obtain ⟨rfl, rfl⟩ := h
    decide

theorem mirrored_validSequences :
    compile "(A|B)C*\\1" = .ok mirrored ∧ mirrored.tree.Confined ∧
      mirrored.validSequences 0 = .ok ["A.A", "B.B"] ∧
      mirrored.validSequences 1 = .ok ["A.A", "B.B", "A.C.A", "B.C.B"] ∧
      ∀ s ∈ ["A.A", "B.B"], s ∈ ["A.A", "B.B", "A.C.A", "B.C.B"] := by
  have hcompile : compile "(A|B)C*\\1" = .ok mirrored := by decide +kernel
  have hnarrow : mirrored.validSequences 0 = .ok ["A.A", "B.B"] := by decide +kernel
  have hwide : mirrored.validSequences 1 = .ok ["A.A", "B.B", "A.C.A", "B.C.B"] := by
    decide +kernel
  exact ⟨hcompile, mirrored_confined, hnarrow, hwide,
    validSequences_subset hcompile mirrored_confined (Nat.zero_le 1) hnarrow hwide⟩

/-- **A wider window may lose sequences:** the pattern `(?=AA)(A*|(A))\2` accepts `A.A` as its second
branch followed by the text of that branch. With another repeat the first branch shows `A` too, and
the second is skipped. -/
theorem not_forall_validSequences_subset :
    ¬ ∀ (source : String) (p : Pattern) (n : Nat) (v w : List String),
      compile source = .ok p → p.validSequences n = .ok v → p.validSequences (n + 1) = .ok w →
        ∀ s ∈ v, s ∈ w := by
  intro h
  let p : Pattern := {
    source := "(?=AA)(A*|(A))\\2"
    symbols := ["?=AA", "A", "\\2"]
    tree := ⟨[[.group (.lookahead false) [[.char 'A', .char 'A']],
      .group (.capture 1) [[.repetition 0 none (.char 'A')], [.group (.capture 2) [[.char 'A']]]],
      .backreference 2]], 2⟩
    combinations := ⟨[[.repetition 1 none (.group (.lookahead false)
      [[.char 'A', .char 'A'], [.char 'A'], [.backreference 2]])]], 0⟩ }
  have hcompile : compile "(?=AA)(A*|(A))\\2" = .ok p := by decide +kernel
  have hnarrow : p.validSequences 0 = .ok ["A.A"] := by decide +kernel
  have hwide : p.validSequences 1 = .ok [] := by decide +kernel
  have hlost := h _ p 0 _ _ hcompile hnarrow hwide "A.A" List.mem_cons_self
  cases hlost

end SequenceConstraint.Pattern
