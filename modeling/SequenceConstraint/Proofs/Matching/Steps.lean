import SequenceConstraint.Proofs.Matching.Backtracking

/-!
# Steps of a search

Without a limit the search would come to an end on every text, after some number of node evaluations
(`Tree.search`). The search with a limit is the same search: it gives that result as long as its
steps last, and nothing once it needs one step more.

Each function of the search has a counterpart here that counts up where the search counts down. What
ties the two is what a limit makes of the counterpart (`Counts`), one function at a time.

## Main statements

* `counts_repeats`, `counts_branches` — the loops of the search
* `counts_ends` — the evaluation of a node
* `Tree.matches?_eq` — a text is decided just if its steps are within the limit, and then as
  backtracking decides it
-/

namespace SequenceConstraint

namespace Matching

/-! ## Searches without a limit -/

/-- The result of a search together with the number of nodes it has evaluated. -/
structure Counted (α : Type) where
  result : α
  steps : Nat

/-- The ends of a search from each of some states, after those in `found`, latest first. -/
def gatherSteps (search : MatchState → Counted (List MatchState)) :
    (found starts : List MatchState) → Counted (List MatchState)
  | found, [] => ⟨found.reverse, 0⟩
  | found, s :: rest =>
    let ends := search s
    let more := gatherSteps search (ends.result.reverseAux found) rest
    ⟨more.result, ends.steps + more.steps⟩

def oneMoreSteps (search : MatchState → Counted (List MatchState)) (min count : Nat)
    (s : MatchState) : Counted (List MatchState) :=
  let ends := search s
  ⟨ends.result.filter fun t => t.position != s.position || decide (count < min), ends.steps⟩

def repeatsSteps (search : MatchState → Counted (List MatchState)) (min : Nat) :
    (more count : Nat) → (found frontier : List MatchState) → Counted (List MatchState)
  | 0, count, found, frontier =>
    let found := if min ≤ count then frontier.reverseAux found else found
    ⟨distinct found.reverse, 0⟩
  | more + 1, count, found, frontier =>
    let found := if min ≤ count then frontier.reverseAux found else found
    if frontier.isEmpty then ⟨distinct found.reverse, 0⟩
    else
      let next := gatherSteps (oneMoreSteps search min count) [] frontier
      let rest := repeatsSteps search min more (count + 1) found (distinct next.result)
      ⟨rest.result, next.steps + rest.steps⟩

mutual

/-- The states that a node leads to, and the number of nodes evaluated to find them. -/
def endsSteps (text : Array Char) : Node → MatchState → Counted (List MatchState)
  | .char c, s => ⟨consume text (· == c) s, 1⟩
  | .charClass k, s => ⟨consume text k.accepts s, 1⟩
  | .anchor a, s => ⟨if holdsAt text s.position a then [s] else [], 1⟩
  | .backreference index, s => ⟨repeatCaptured text index s, 1⟩
  | .group kind branches, s =>
    let body := branchesSteps text branches s []
    ⟨match kind with
      | .capture index => distinct (body.result.map (s.capture index))
      | .plain => body.result
      | .lookahead negative => if body.result.isEmpty == negative then [s] else [],
      body.steps + 1⟩
  | .repetition 0 (some 1) (.repetition min max body), s =>
    let found := repeatsSteps (fun s => endsSteps text body s) min (max.getD (text.size + 1)) 0 []
      [s]
    ⟨found.result, found.steps + 1⟩
  | .repetition min max body, s =>
    let found := repeatsSteps (fun s => endsSteps text body s) min (max.getD (text.size + 1)) 0 []
      [s]
    ⟨found.result, found.steps + 1⟩

def branchSteps (text : Array Char) : List Node → List MatchState → Counted (List MatchState)
  | [], frontier => ⟨frontier, 0⟩
  | node :: nodes, frontier =>
    if frontier.isEmpty then ⟨[], 0⟩
    else
      let next := gatherSteps (fun s => endsSteps text node s) [] frontier
      let rest := branchSteps text nodes (distinct next.result)
      ⟨rest.result, next.steps + rest.steps⟩

def branchesSteps (text : Array Char) :
    List (List Node) → MatchState → List MatchState → Counted (List MatchState)
  | [], _, found => ⟨distinct found.reverse, 0⟩
  | branch :: branches, s, found =>
    let next := branchSteps text branch [s]
    let rest := branchesSteps text branches s (next.result.reverseAux found)
    ⟨rest.result, next.steps + rest.steps⟩

end

/-! ## What a limit makes of a search -/

/-- Whether a search with a limit is one without: it needs as many steps as the other makes. -/
def Counts {α : Type} (search : Metered α) (run : Counted α) : Prop :=
  ∀ left, search left = if run.steps ≤ left then some (run.result, left - run.steps) else none

section Counts

variable {α β : Type} {search : Metered α} {run : Counted α} {search' next : Metered β}
  {rest : Counted β}

theorem counts_pure (a : α) : Counts (fun left => some (a, left)) ⟨a, 0⟩ := fun left => by
  simp

/-- **A search that goes on with the result of another** makes the steps of both. -/
theorem Counts.bind (h : Counts search run) (hnext : Counts next rest)
    (hnone : ∀ left, search left = none → search' left = none)
    (hsome : ∀ left left', search left = some (run.result, left') → search' left = next left') :
    Counts search' ⟨rest.result, run.steps + rest.steps⟩ := by
  intro left
  by_cases hrun : run.steps ≤ left
  · have hs := h left
    rw [if_pos hrun] at hs
    rw [hsome left _ hs, hnext]
    simp only [Nat.sub_sub, Nat.le_sub_iff_add_le' hrun]
  · have hs := h left
    rw [if_neg hrun] at hs
    rw [hnone left hs, if_neg (show ¬run.steps + rest.steps ≤ left by omega)]

/-- A search that only does something to the result of another. -/
theorem Counts.map {f : α → β} (h : Counts search run)
    (hnone : ∀ left, search left = none → search' left = none)
    (hsome : ∀ left left', search left = some (run.result, left') →
      search' left = some (f run.result, left')) :
    Counts search' ⟨f run.result, run.steps⟩ :=
  h.bind (counts_pure (f run.result)) hnone hsome

/-- A search that spends a step first. -/
theorem Counts.step {search' : Metered α} (h : Counts search run) (hzero : search' 0 = none)
    (hsucc : ∀ left, search' (left + 1) = search left) :
    Counts search' ⟨run.result, run.steps + 1⟩ := by
  intro left
  cases left with
  | zero => simp [hzero]
  | succ left => simp [hsucc, h left]

/-- A search that spends a step on the result of another. -/
theorem Counts.stepMap {f : α → β} (h : Counts search run) (hzero : search' 0 = none)
    (hnone : ∀ left, search left = none → search' (left + 1) = none)
    (hsome : ∀ left left', search left = some (run.result, left') →
      search' (left + 1) = some (f run.result, left')) :
    Counts search' ⟨f run.result, run.steps + 1⟩ := by
  have hmap : Counts (fun left => search' (left + 1)) ⟨f run.result, run.steps⟩ :=
    h.map hnone hsome
  exact hmap.step hzero fun left => rfl

end Counts

/-! ## The loops -/

section Loops

variable {search : MatchState → Metered (List MatchState)}
  {run : MatchState → Counted (List MatchState)}

theorem counts_gather (h : ∀ s, Counts (search s) (run s)) (found starts : List MatchState) :
    Counts (gather search found starts) (gatherSteps run found starts) := by
  induction starts generalizing found with
  | nil => exact counts_pure found.reverse
  | cons s rest ih =>
    refine (h s).bind (ih ((run s).result.reverseAux found)) ?_ ?_
    · intro left hs
      rw [gather, hs]
    · intro left left' hs
      rw [gather, hs]

theorem counts_oneMore (h : ∀ s, Counts (search s) (run s)) (min count : Nat) (s : MatchState) :
    Counts (oneMore search min count s) (oneMoreSteps run min count s) := by
  refine (h s).map ?_ ?_
  · intro left hs
    rw [oneMore, hs]
  · intro left left' hs
    rw [oneMore, hs]

/-- **The rounds of a repetition.** -/
theorem counts_repeats (h : ∀ s, Counts (search s) (run s)) (min more count : Nat)
    (found frontier : List MatchState) :
    Counts (repeats search min more count found frontier)
      (repeatsSteps run min more count found frontier) := by
  induction more generalizing count found frontier with
  | zero => exact counts_pure _
  | succ more ih =>
    by_cases hempty : frontier.isEmpty = true
    · intro left
      simp [repeats, repeatsSteps, hempty]
    · have hnext := counts_gather (counts_oneMore h min count) [] frontier
      simp only [repeatsSteps, if_neg hempty]
      refine hnext.bind (ih _ _ _) ?_ ?_
      · intro left hs
        rw [repeats, if_neg hempty, hs]
      · intro left left' hs
        rw [repeats, if_neg hempty, hs]

end Loops

/-! ## Nodes -/

section Nodes

variable {text : Array Char}

/-- **The nodes of a branch.** -/
theorem counts_branch_of {branch : List Node}
    (h : ∀ n ∈ branch, ∀ s, Counts (fun left => ends text n s left) (endsSteps text n s))
    (frontier : List MatchState) :
    Counts (branchEnds text branch frontier) (branchSteps text branch frontier) := by
  induction branch generalizing frontier with
  | nil => exact counts_pure frontier
  | cons n ns ih =>
    obtain ⟨hn, hns⟩ := List.forall_mem_cons.1 h
    by_cases hempty : frontier.isEmpty = true
    · intro left
      simp [branchEnds, branchSteps, hempty]
    · simp only [branchSteps, if_neg hempty]
      refine (counts_gather hn [] frontier).bind (ih hns _) ?_ ?_
      · intro left hs
        rw [branchEnds, if_neg hempty, hs]
      · intro left left' hs
        rw [branchEnds, if_neg hempty, hs]

theorem counts_branches_of {branches : List (List Node)}
    (h : ∀ b ∈ branches, ∀ n ∈ b, ∀ s,
      Counts (fun left => ends text n s left) (endsSteps text n s)) (s : MatchState)
    (found : List MatchState) :
    Counts (branchesEnds text branches s found) (branchesSteps text branches s found) := by
  induction branches generalizing found with
  | nil => exact counts_pure _
  | cons b bs ih =>
    obtain ⟨hb, hbs⟩ := List.forall_mem_cons.1 h
    refine (counts_branch_of hb [s]).bind (ih hbs _) ?_ ?_
    · intro left hs
      rw [branchesEnds, hs]
    · intro left left' hs
      rw [branchesEnds, hs]

/-- **The evaluation of a node.** -/
theorem counts_ends (n : Node) (s : MatchState) :
    Counts (fun left => ends text n s left) (endsSteps text n s) := by
  induction n generalizing s with
  | char c => exact (counts_pure (consume text (· == c) s)).step rfl fun left => rfl
  | charClass k => exact (counts_pure (consume text k.accepts s)).step rfl fun left => rfl
  | anchor a =>
    exact (counts_pure (if holdsAt text s.position a then [s] else [])).step rfl fun left => rfl
  | backreference index =>
    exact (counts_pure (repeatCaptured text index s)).step rfl fun left => rfl
  | group kind branches ih =>
    have hbranches := counts_branches_of ih s []
    cases kind with
    | capture index =>
      refine hbranches.stepMap (f := fun found => distinct (found.map (s.capture index))) ?_ ?_ ?_
      · rw [ends]
      · intro left hs
        rw [ends, hs]
      · intro left left' hs
        rw [ends, hs]
    | plain =>
      refine hbranches.stepMap (f := id) ?_ ?_ ?_
      · rw [ends]
      · intro left hs
        rw [ends, hs]
      · intro left left' hs
        rw [ends, hs]
        rfl
    | lookahead negative =>
      refine hbranches.stepMap (f := fun found => if found.isEmpty == negative then [s] else [])
        ?_ ?_ ?_
      · rw [ends]
      · intro left hs
        rw [ends, hs]
      · intro left left' hs
        rw [ends, hs]
  | marked min max body ih =>
    exact (counts_repeats ih min _ 0 [] [s]).step (by simp only [ends]) fun left => by
      simp only [ends]
  | repetition min max body hm ih =>
    rw [endsSteps]
    · exact (counts_repeats ih min _ 0 [] [s]).step (by simp only [ends]) fun left => by
        simp only [ends]
    · exact hm

theorem counts_branches (branches : List (List Node)) (s : MatchState)
    (found : List MatchState) :
    Counts (branchesEnds text branches s found) (branchesSteps text branches s found) :=
  counts_branches_of (fun _ _ n _ => counts_ends n) s found

end Nodes

end Matching

open Matching

/-! ## Whole texts -/

/-- The whole search of a tree on a text, with as many steps as it takes. -/
def Tree.search (tree : Tree) (word : List Char) : Counted (List MatchState) :=
  branchesSteps word.toArray tree.branches (.start tree.captures) []

theorem Tree.branchesEnds_eq (tree : Tree) (word : List Char) (left : Nat) :
    branchesEnds word.toArray tree.branches (.start tree.captures) [] left =
      if (tree.search word).steps ≤ left then
        some ((tree.search word).result, left - (tree.search word).steps)
      else none :=
  counts_branches tree.branches (.start tree.captures) [] left

/-- The whole search reaches the end of the text just if some way through the tree does. -/
theorem Tree.search_any (tree : Tree) (word : List Char) :
    (tree.search word).result.any (·.position == word.length) = tree.backtracks word := by
  have hends := tree.branchesEnds_eq word (tree.search word).steps
  rw [if_pos (Nat.le_refl _)] at hends
  rw [Bool.eq_iff_iff, Tree.backtracks_iff]
  simp [List.any_eq_true, mem_branchesEnds hends]

/-- **The limit is all that keeps a text from being decided.** It is decided just if the steps of
the whole search are within the limit, and then as backtracking decides it. -/
theorem Tree.matches?_eq (tree : Tree) (word : List Char) :
    tree.matches? word =
      if (tree.search word).steps ≤ stepLimit then some (tree.backtracks word) else none := by
  unfold Tree.matches?
  simp only [tree.branchesEnds_eq word stepLimit, ← Tree.search_any, List.size_toArray]
  by_cases hsteps : (tree.search word).steps ≤ stepLimit
  · simp only [if_pos hsteps]
  · simp only [if_neg hsteps]

end SequenceConstraint
