import SequenceConstraint.Proofs.Agreement.Nodes

/-!
# Generator and matcher agree

## Main statement

* `Tree.Admissible.agrees` — on an admissible tree the generator produces only texts that the
  matcher does not reject, and all accepted texts up to the length of its cap
-/

namespace SequenceConstraint

open Matching

theorem simulates_tree {tree : Tree} (h : tree.Admissible) (cap : Nat) {ps : List Plan}
    {σ : Naming} (hplan : planBranches [] tree.branches (.start tree.captures) = .ok (ps, σ))
    (text : Array Char) :
    Simulates text cap [] σ [] (.start tree.captures) ((Plan.ofBranches ps).Shows cap [])
      (AnyLeads text tree.branches (.start tree.captures)) := by
  have hfits : Fits tree tree.nodes [] (.start tree.captures) :=
    ⟨fun n hn => hn, fun index => Nat.le_refl _, h.distinct, fun index _ => rfl, rfl⟩
  refine simulates_branches (fun b _ n _ => n.simulated text cap h) h
    (h.alternatives tree.branches (.inl rfl)) hfits hplan ⟨Nat.zero_le _, ?_, ?_, ?_⟩
  · exact List.length_replicate
  · exact Naming.valid_start _
  · intro index _ name hname
    cases hname

/-- **Generator and matcher agree.** A tree whose groups are referred to only from where they
certainly have been captured produces no text that is rejected, and every accepted text that is no
longer than the cap. -/
theorem Tree.Admissible.agrees {tree : Tree} (h : tree.Admissible) {cap : Nat} {stream : Stream}
    (hstream : Stream.ofTree cap tree = .ok stream) (w : List Char) :
    (w ∈ stream.toList → tree.matches? w ≠ some false) ∧
      (w.length ≤ cap → tree.matches? w = some true → w ∈ stream.toList) := by
  obtain ⟨p, hp, rfl⟩ := Stream.ofTree_eq_ok_iff.1 hstream
  obtain ⟨ps, σ, hps, rfl⟩ := Tree.plan_eq_ok_iff.1 hp
  have hsim := simulates_tree h cap hps w.toArray
  rw [Stream.mem_toList_ofPlan]
  constructor
  · rintro ⟨r, hr, rfl⟩ hmatch
    obtain ⟨t, ht, hposition, -⟩ := hsim.sound r _ hr (reads_whole_iff.2 rfl)
    exact absurd ((matches?_eq_some hmatch).2 ⟨t, ht, hposition⟩) Bool.false_ne_true
  · intro hcap hmatch
    obtain ⟨t, ht, hposition⟩ := (matches?_eq_some hmatch).1 rfl
    obtain ⟨r, hr, hreads, -⟩ := hsim.complete hcap t ht
    rw [hposition] at hreads
    exact ⟨r, hr, hreads.eq_whole⟩

/-- The tree of `((A|B)\2)+C`. -/
def doubled : Tree :=
  ⟨[[.repetition 1 none (.group (.capture 1)
      [[.group (.capture 2) [[.char 'A'], [.char 'B']], .backreference 2]]), .char 'C']], 2⟩

theorem doubled_admissible : doubled.Admissible where
  noLookahead := by decide
  noAnchor := by simp [doubled, Tree.nodes, branchesNodes, branchNodes, Node.nodes]
  distinct := by decide
  inRange := by decide
  unbounded := by simp [doubled, Tree.nodes, branchesNodes, branchNodes, Node.nodes]
  bodies min max body h := by
    simp [doubled, Tree.nodes, branchesNodes, branchNodes, Node.nodes] at h
    obtain ⟨rfl, rfl, rfl⟩ := h
    decide
  alternatives branches h hmany := by
    rcases h with rfl | ⟨kind, h⟩
    · simp [doubled] at hmany
    · simp [doubled, Tree.nodes, branchesNodes, branchNodes, Node.nodes] at h
      rcases h with ⟨rfl, rfl⟩ | ⟨rfl, rfl⟩
      · simp at hmany
      · decide

theorem doubled_agrees :
    doubled.Admissible ∧ ∃ stream, Stream.ofTree 5 doubled = .ok stream ∧
      ['A', 'A', 'B', 'B', 'C'] ∈ stream.toList :=
  ⟨doubled_admissible, _, rfl,
    (doubled_admissible.agrees rfl ['A', 'A', 'B', 'B', 'C']).2 (by decide) (by decide +kernel)⟩

end SequenceConstraint
