import SequenceConstraint.Proofs.Counting.Numbers
import SequenceConstraint.Proofs.Generation.Planning

/-!
# The number of choices

A generator chooses a character of a class, a branch of an alternation, and a number of repeats with
a choice for each of them. `Tree.choices` multiplies and adds up these choices under a cap, without
a bound on the numbers. Counting tells that number without knowing the cap: it is right wherever it
is finite, and where it is infinite if everything that has so many choices can be repeated
(`Tree.Repeatable`).

## Main statements

* `Node.tells` — what counting a node says about its choices
* `Tree.choices_eq` — a finite count is the number of choices under every cap
* `Tree.Repeatable.exists_bound_le_choices` — with an infinite count there are too many to count
* `not_forall_bound_le_choices` — which may fail if a body is repeated no times
-/

namespace SequenceConstraint

/-! ## Choices -/

mutual

/-- The choices of a node. A backreference leaves none: its text has been chosen before. -/
def Node.choices (cap : Nat) : Node → Nat
  | .char _ => 1
  | .charClass k => k.resolve.size
  | .anchor _ => 1
  | .backreference _ => 1
  | .group _ branches => branchesChoices cap [] branches
  | .repetition 0 (some 1) (.repetition min max body) =>
    ∑ k ∈ Finset.Icc min (Plan.limit cap min max), body.choices cap ^ k
  | .repetition min max body =>
    ∑ k ∈ Finset.Icc min (Plan.limit cap min max), body.choices cap ^ k

/-- The choices of the nodes of a branch that take characters. -/
def branchChoices (cap : Nat) : List Node → Nat
  | [] => 1
  | n :: ns => if n.isLookahead then branchChoices cap ns else n.choices cap * branchChoices cap ns

/-- The choices of the branches that differ from those seen before, and from each other. -/
def branchesChoices (cap : Nat) (seen : List Branch) : List (List Node) → Nat
  | [] => 0
  | b :: bs =>
    if takingNodes b ∈ seen then branchesChoices cap seen bs
    else branchChoices cap b + branchesChoices cap (takingNodes b :: seen) bs

end

/-- The choices of a tree. -/
def Tree.choices (cap : Nat) (tree : Tree) : Nat := branchesChoices cap [] tree.branches

/-- Whether every body with at least `Cardinality.bound` choices can be repeated at least once, and
as often as it must. -/
def Tree.Repeatable (tree : Tree) : Prop :=
  ∀ min max body, .repetition min (some max) body ∈ tree.nodes →
    (∃ cap, Cardinality.bound ≤ body.choices cap) → 0 < max ∧ min ≤ max

section Laws

variable {cap : Nat} {n : Node} {b : List Node} {bs : List (List Node)} {seen : List Branch}

theorem choices_marked (min : Nat) (max : Option Nat) (body : Node) :
    (Node.repetition 0 (some 1) (.repetition min max body)).choices cap =
      ∑ k ∈ Finset.Icc min (Plan.limit cap min max), body.choices cap ^ k := by
  rw [Node.choices]

theorem choices_repetition {min : Nat} {max : Option Nat} {body : Node}
    (hm : ∀ min' max' body', min = 0 → max = some 1 → body = .repetition min' max' body' → False) :
    (Node.repetition min max body).choices cap =
      ∑ k ∈ Finset.Icc min (Plan.limit cap min max), body.choices cap ^ k := by
  rw [Node.choices]
  exact hm

theorem branchChoices_skip (hn : n.isLookahead = true) :
    branchChoices cap (n :: b) = branchChoices cap b := by
  rw [branchChoices, if_pos hn]

theorem branchChoices_cons (hn : n.isLookahead = false) :
    branchChoices cap (n :: b) = n.choices cap * branchChoices cap b := by
  rw [branchChoices, if_neg (by simp [hn])]

theorem branchesChoices_skip (hb : takingNodes b ∈ seen) :
    branchesChoices cap seen (b :: bs) = branchesChoices cap seen bs := by
  rw [branchesChoices, if_pos hb]

theorem branchesChoices_cons (hb : takingNodes b ∉ seen) :
    branchesChoices cap seen (b :: bs) =
      branchChoices cap b + branchesChoices cap (takingNodes b :: seen) bs := by
  rw [branchesChoices, if_neg hb]

end Laws

/-! ## Counting them -/

namespace Cardinality

/-- Whether counting a node tells its choices. -/
def TellsChoices (spread : Prop) (n : Node) : Prop :=
  ∀ done c done', n.count done = .ok (c, done') → c.Tells spread fun cap => n.choices cap

section Counting

variable {spread : Prop} {done done' : Completed} {c : Cardinality}

theorem tells_branch {branch : List Node} (hnodes : ∀ n ∈ branch, TellsChoices spread n)
    {product : Cardinality} {f : Nat → Nat} (hproduct : product.Tells spread f)
    (hcount : countBranch product branch done = .ok (c, done')) :
    c.Tells spread fun cap => f cap * branchChoices cap branch := by
  induction branch generalizing product f done with
  | nil =>
    rw [countBranch] at hcount
    obtain ⟨rfl, -⟩ := run_pure_eq_ok.1 hcount
    simpa only [branchChoices, Nat.mul_one] using hproduct
  | cons n ns ih =>
    obtain ⟨hn, hns⟩ := List.forall_mem_cons.1 hnodes
    rw [countBranch] at hcount
    by_cases hlook : n.isLookahead = true
    · rw [if_pos hlook] at hcount
      simpa only [branchChoices_skip hlook] using ih hns hproduct hcount
    · rw [if_neg hlook, run_bind_eq_ok] at hcount
      obtain ⟨a, done₁, ha, hcount⟩ := hcount
      have hrest := ih hns (hproduct.mul (hn done a done₁ ha)) hcount
      simpa only [branchChoices_cons (Bool.eq_false_iff.2 hlook), Nat.mul_assoc] using hrest

theorem tells_branches {branches : List (List Node)}
    (hnodes : ∀ b ∈ branches, ∀ n ∈ b, TellsChoices spread n) {seen : List Branch}
    {total : Cardinality} {f : Nat → Nat} (htotal : total.Tells spread f)
    (hcount : countBranches seen total branches done = .ok (c, done')) :
    c.Tells spread fun cap => f cap + branchesChoices cap seen branches := by
  induction branches generalizing seen total f done with
  | nil =>
    rw [countBranches] at hcount
    obtain ⟨rfl, -⟩ := run_pure_eq_ok.1 hcount
    simpa only [branchesChoices, Nat.add_zero] using htotal
  | cons b bs ih =>
    obtain ⟨hb, hbs⟩ := List.forall_mem_cons.1 hnodes
    rw [countBranches] at hcount
    by_cases hseen : takingNodes b ∈ seen
    · rw [if_pos hseen] at hcount
      simpa only [branchesChoices_skip hseen] using ih hbs htotal hcount
    · rw [if_neg hseen, run_bind_eq_ok] at hcount
      obtain ⟨product, done₁, hproduct, hcount⟩ := hcount
      have hone : (finite 1).Tells spread fun _ => 1 := fun _ => rfl
      have hbranch := tells_branch hb hone hproduct
      simp only [Nat.one_mul] at hbranch
      have hrest := ih hbs (htotal.add hbranch) hcount
      simpa only [branchesChoices_cons hseen, Nat.add_assoc] using hrest

/-- A repetition whose body is counted first. -/
theorem tells_repetition {body : Node} {min : Nat} {max : Option Nat}
    (hbody : TellsChoices spread body)
    (hrepeats : spread → ∀ m, max = some m → (∃ cap, bound ≤ body.choices cap) → 0 < m ∧ min ≤ m)
    (hcount : (do return (← body.count).repeated min max : Counting Cardinality) done =
      .ok (c, done')) :
    c.Tells spread fun cap =>
      ∑ k ∈ Finset.Icc min (Plan.limit cap min max), body.choices cap ^ k := by
  obtain ⟨a, done₁, ha, hcount⟩ := run_bind_eq_ok.1 hcount
  obtain ⟨rfl, -⟩ := run_pure_eq_ok.1 hcount
  have ha := hbody done a done₁ ha
  refine ha.repeated min max fun hspread hinfinite m hm => hrepeats hspread m hm ?_
  subst hinfinite
  obtain ⟨start, hstart⟩ := ha hspread
  exact ⟨start, hstart start (Nat.le_refl _)⟩

end Counting

end Cardinality

open Cardinality in
/-- **Counting a node tells its choices,** wherever it stands in a tree. -/
theorem Node.tells {tree : Tree} (n : Node) (htree : ∀ m ∈ n.nodes, m ∈ tree.nodes) :
    TellsChoices tree.Repeatable n := by
  induction n with
  | char c =>
    intro done k done' hcount
    rw [Node.count] at hcount
    obtain ⟨rfl, -⟩ := run_pure_eq_ok.1 hcount
    exact fun cap => by simp only [Node.choices]
  | charClass k =>
    intro done c done' hcount
    rw [Node.count] at hcount
    obtain ⟨rfl, -⟩ := run_pure_eq_ok.1 hcount
    exact fun cap => by simp only [Node.choices]
  | anchor a =>
    intro done c done' hcount
    rw [Node.count] at hcount
    obtain ⟨rfl, -⟩ := run_pure_eq_ok.1 hcount
    exact fun cap => by simp only [Node.choices]
  | backreference index =>
    intro done c done' hcount
    rw [Node.count] at hcount
    obtain ⟨found, done₁, -, hcount⟩ := run_bind_eq_ok.1 hcount
    split at hcount
    · obtain ⟨rfl, -⟩ := run_pure_eq_ok.1 hcount
      exact fun cap => by simp only [Node.choices]
    · cases hcount
  | group kind branches ih =>
    intro done c done' hcount
    rw [Node.count] at hcount
    obtain ⟨total, done₁, htotal, hcount⟩ := run_bind_eq_ok.1 hcount
    obtain ⟨-, done₂, -, hcount⟩ := run_bind_eq_ok.1 hcount
    obtain ⟨rfl, -⟩ := run_pure_eq_ok.1 hcount
    have hnone : (finite 0).Tells tree.Repeatable fun _ => 0 := fun _ => rfl
    have hbranches := tells_branches (fun b hb n hn => ih b hb n hn fun m hm =>
      htree m (List.mem_cons_of_mem _ (mem_branchesNodes_of_mem hb hn hm))) hnone htotal
    simpa only [Node.choices, Nat.zero_add] using hbranches
  | marked min max body ih =>
    intro done c done' hcount
    rw [Node.count] at hcount
    have hself : Node.repetition min max body ∈ tree.nodes :=
      htree _ (List.mem_cons_of_mem _ (Node.self_mem_nodes _))
    have hbody := ih fun m hm => htree m (List.mem_cons_of_mem _ (List.mem_cons_of_mem _ hm))
    simp only [choices_marked]
    exact tells_repetition hbody (fun hspread m hm => hspread min m body (hm ▸ hself)) hcount
  | repetition min max body hm ih =>
    intro done c done' hcount
    rw [Node.count] at hcount
    · have hself : Node.repetition min max body ∈ tree.nodes := htree _ (Node.self_mem_nodes _)
      have hbody := ih fun m hm => htree m (List.mem_cons_of_mem _ hm)
      simp only [choices_repetition hm]
      exact tells_repetition hbody (fun hspread m hm => hspread min m body (hm ▸ hself)) hcount
    · exact hm

section Trees

variable {tree : Tree}

/-- **Counting a tree tells its choices.** -/
theorem Tree.tells {c : Cardinality} (h : tree.languageSize = .ok c) :
    c.Tells tree.Repeatable fun cap => tree.choices cap := by
  unfold Tree.languageSize StateT.run at h
  split at h
  · rename_i total done hcount
    cases h
    have hnone : (Cardinality.finite 0).Tells tree.Repeatable fun _ => 0 := fun _ => rfl
    have htotal := Cardinality.tells_branches (fun b hb n hn => n.tells fun m hm =>
      mem_branchesNodes_of_mem hb hn hm) hnone hcount
    simpa only [Tree.choices, Nat.zero_add] using htotal
  · cases h

/-- **A finite count is the number of choices,** whatever the cap. -/
theorem Tree.choices_eq {k : Nat} (h : tree.languageSize = .ok (.finite k)) (cap : Nat) :
    tree.choices cap = k :=
  Tree.tells h cap

/-- **With an infinite count** there are at least `Cardinality.bound` choices from some cap on, if
everything with so many choices can be repeated. -/
theorem Tree.Repeatable.exists_bound_le_choices (htree : tree.Repeatable)
    (h : tree.languageSize = .ok .infinite) :
    ∃ start, ∀ cap, start ≤ cap → Cardinality.bound ≤ tree.choices cap :=
  Tree.tells h htree

end Trees

/-- The tree of `(?:A*){1,2}B{0}`. -/
def oneOrTwo : Tree :=
  ⟨[[.repetition 1 (some 2) (.group .plain [[.repetition 0 none (.char 'A')]]),
    .repetition 0 (some 0) (.char 'B')]], 0⟩

theorem oneOrTwo_repeatable : oneOrTwo.Repeatable := by
  intro min max body h hlarge
  simp [oneOrTwo, Tree.nodes, branchesNodes, branchNodes, Node.nodes] at h
  rcases h with ⟨rfl, rfl, rfl⟩ | ⟨rfl, rfl, rfl⟩
  · decide
  · -- one letter has one choice only
    obtain ⟨cap, hcap⟩ := hlarge
    rw [Node.choices] at hcap
    exact absurd hcap (by decide)

theorem oneOrTwo_exists_bound_le_choices :
    oneOrTwo.Repeatable ∧ oneOrTwo.languageSize = .ok .infinite ∧
      ∃ start, ∀ cap, start ≤ cap → Cardinality.bound ≤ oneOrTwo.choices cap := by
  have hsize : oneOrTwo.languageSize = .ok .infinite := by decide +kernel
  exact ⟨oneOrTwo_repeatable, hsize, oneOrTwo_repeatable.exists_bound_le_choices hsize⟩

/-- **An infinite count may be wrong:** the tree of `(?:[AB]{128}){0}` has one choice whatever the
cap, since its body is repeated no times. -/
theorem not_forall_bound_le_choices : ¬∀ tree : Tree, tree.languageSize = .ok .infinite →
    (∀ n, ∃ cap, n < tree.choices cap) ∨ ∃ cap, Cardinality.bound ≤ tree.choices cap := by
  intro h
  let tree : Tree := ⟨[[.repetition 0 (some 0) (.group .plain
    [[.repetition 128 (some 128) (.charClass ⟨false, [.interval 'A' 'B']⟩)]])]], 0⟩
  have hsize : tree.languageSize = .ok .infinite := by decide +kernel
  have hone : ∀ cap, tree.choices cap = 1 := by
    intro cap
    simp [tree, Tree.choices, branchesChoices, branchChoices, Node.isLookahead, Node.choices,
      Plan.limit]
  rcases h tree hsize with h | ⟨cap, hcap⟩
  · obtain ⟨cap, hcap⟩ := h 1
    rw [hone cap] at hcap
    exact Nat.lt_irrefl 1 hcap
  · rw [hone cap] at hcap
    exact absurd hcap (by decide)

end SequenceConstraint
