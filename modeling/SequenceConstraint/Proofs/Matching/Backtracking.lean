import SequenceConstraint.Proofs.Matching.Leads

/-!
# Backtracking

The plainest way to match a tree tries one way through it after the other: at each node it goes on
from every state the node leads to, and nothing is remembered of the ways tried before. It has one
end for each way, so an end that several ways come to is there several times, and it never gives up.

The search answers what backtracking answers. Dropping a state that has been met before, with the
same captures, loses no end; and a group that looks ahead only asks whether there is one.

## Main statements

* `mem_roundsWays` — backtracking over the rounds of a repetition
* `mem_ways`, `mem_branchesWays` — the ways through a node end in the states it leads to
* `Tree.backtracks_iff` — what backtracking answers on a whole text
-/

namespace SequenceConstraint

namespace Matching

/-! ## Ways through a tree -/

/-- The ends of up to `more` rounds after `count` others, each round tried from where the one before
has ended. Past the smallest number of rounds, each has to move on. -/
def roundsWays (step : MatchState → List MatchState) (min : Nat) :
    (more count : Nat) → MatchState → List MatchState
  | 0, count, s => if min ≤ count then [s] else []
  | more + 1, count, s =>
    (if min ≤ count then [s] else []) ++
      ((step s).filter fun t => t.position != s.position || decide (count < min)).flatMap
        (roundsWays step min more (count + 1))

mutual

/-- The ends of all ways through a node. -/
def ways (text : Array Char) : Node → MatchState → List MatchState
  | .char c, s => consume text (· == c) s
  | .charClass k, s => consume text k.accepts s
  | .anchor a, s => if holdsAt text s.position a then [s] else []
  | .backreference index, s => repeatCaptured text index s
  | .group (.capture index) branches, s => (branchesWays text branches s).map (s.capture index)
  | .group .plain branches, s => branchesWays text branches s
  | .group (.lookahead negative) branches, s =>
    if (branchesWays text branches s).isEmpty == negative then [s] else []
  | .repetition 0 (some 1) (.repetition min max body), s =>
    roundsWays (fun s => ways text body s) min (max.getD (text.size + 1)) 0 s
  | .repetition min max body, s =>
    roundsWays (fun s => ways text body s) min (max.getD (text.size + 1)) 0 s

/-- The ends of all ways through the nodes of a branch. -/
def branchWays (text : Array Char) : List Node → MatchState → List MatchState
  | [], s => [s]
  | n :: ns, s => (ways text n s).flatMap fun t => branchWays text ns t

/-- The ends of all ways through any of some branches. -/
def branchesWays (text : Array Char) : List (List Node) → MatchState → List MatchState
  | [], _ => []
  | b :: bs, s => branchWays text b s ++ branchesWays text bs s

end

/-! ## Where the ways end -/

/-- **Backtracking over the rounds of a repetition** ends where the rounds lead. -/
theorem mem_roundsWays {step : MatchState → List MatchState} {R : MatchState → MatchState → Prop}
    (h : ∀ s t, t ∈ step s ↔ R s t) {min more count : Nat} {s t : MatchState} :
    t ∈ roundsWays step min more count s ↔
      ∃ k, k ≤ more ∧ min ≤ count + k ∧ Rounds R min count k s t := by
  induction more generalizing count s with
  | zero =>
    rw [roundsWays, List.mem_ite_nil_right, List.mem_singleton]
    constructor
    · rintro ⟨hm, ht⟩
      exact ⟨0, Nat.le_refl 0, hm, ht⟩
    · rintro ⟨k, hk, hm, hrounds⟩
      obtain rfl := Nat.le_zero.1 hk
      exact ⟨hm, hrounds⟩
  | succ more ih =>
    rw [roundsWays, List.mem_append, List.mem_ite_nil_right, List.mem_singleton, List.mem_flatMap]
    simp only [List.mem_filter, h, ih, Bool.or_eq_true, bne_iff_ne, decide_eq_true_eq]
    -- a way either ends here or makes one more round first
    constructor
    · rintro (⟨hm, ht⟩ | ⟨u, ⟨hsu, hmove⟩, k, hk, hm, hrounds⟩)
      · exact ⟨0, Nat.zero_le _, hm, ht⟩
      · exact ⟨k + 1, by omega, by omega, u, hsu, hmove, hrounds⟩
    · rintro ⟨k, hk, hm, hrounds⟩
      cases k with
      | zero => exact .inl ⟨hm, hrounds⟩
      | succ k =>
        obtain ⟨u, hsu, hmove, hrounds⟩ := hrounds
        exact .inr ⟨u, ⟨hsu, hmove⟩, k, by omega, by omega, hrounds⟩

theorem mem_roundsWays_zero {step : MatchState → List MatchState}
    {R : MatchState → MatchState → Prop} (h : ∀ s t, t ∈ step s ↔ R s t) {min most : Nat}
    {s t : MatchState} : t ∈ roundsWays step min most 0 s ↔ Repeated R min most s t := by
  rw [mem_roundsWays h]
  simp [Repeated, and_left_comm]

section Nodes

variable {text : Array Char}

theorem mem_branchWays_of {branch : List Node}
    (h : ∀ n ∈ branch, ∀ s t, t ∈ ways text n s ↔ Leads text n s t) {s t : MatchState} :
    t ∈ branchWays text branch s ↔ BranchLeads text branch s t := by
  induction branch generalizing s with
  | nil => simp [branchWays, BranchLeads]
  | cons n ns ih =>
    obtain ⟨hn, hns⟩ := List.forall_mem_cons.1 h
    simp only [branchWays, List.mem_flatMap, hn, ih hns, BranchLeads]

theorem mem_branchesWays_of {branches : List (List Node)}
    (h : ∀ b ∈ branches, ∀ n ∈ b, ∀ s t, t ∈ ways text n s ↔ Leads text n s t)
    {s t : MatchState} : t ∈ branchesWays text branches s ↔ AnyLeads text branches s t := by
  induction branches with
  | nil => simp [branchesWays, AnyLeads]
  | cons b bs ih =>
    obtain ⟨hb, hbs⟩ := List.forall_mem_cons.1 h
    rw [branchesWays, List.mem_append, mem_branchWays_of hb, ih hbs, AnyLeads]

/-- **The ways through a node end in the states it leads to.** -/
theorem mem_ways (n : Node) (s t : MatchState) : t ∈ ways text n s ↔ Leads text n s t := by
  induction n generalizing s t with
  | char c => rw [ways, Leads]
  | charClass k => rw [ways, Leads]
  | anchor a => rw [ways, Leads, List.mem_ite_nil_right, List.mem_singleton]
  | backreference index => rw [ways, Leads]
  | group kind branches ih =>
    have hmem : ∀ u, u ∈ branchesWays text branches s ↔ AnyLeads text branches s u := fun u =>
      mem_branchesWays_of ih
    cases kind with
    | capture index => simp only [ways, List.mem_map, hmem, Leads, eq_comm]
    | plain => rw [ways, hmem, Leads]
    | lookahead negative =>
      have hany : (branchesWays text branches s).isEmpty = false ↔
          ∃ u, AnyLeads text branches s u := by
        simp only [List.isEmpty_eq_false_iff_exists_mem, hmem]
      rw [ways, List.mem_ite_nil_right, List.mem_singleton, Leads, ← hany]
      cases (branchesWays text branches s).isEmpty <;> cases negative <;> simp
  | marked min max body ih =>
    rw [ways, leads_marked]
    exact mem_roundsWays_zero ih
  | repetition min max body hm ih =>
    rw [leads_repetition hm, ways]
    · exact mem_roundsWays_zero ih
    · exact hm

theorem mem_branchesWays {branches : List (List Node)} {s t : MatchState} :
    t ∈ branchesWays text branches s ↔ AnyLeads text branches s t :=
  mem_branchesWays_of fun _ _ n _ => mem_ways n

end Nodes

end Matching

open Matching

/-- Whether some way through a tree takes a text from its first to its last character. -/
def Tree.backtracks (tree : Tree) (word : List Char) : Bool :=
  (branchesWays word.toArray tree.branches (.start tree.captures)).any
    (·.position == word.length)

theorem Tree.backtracks_iff {tree : Tree} {word : List Char} :
    tree.backtracks word = true ↔
      ∃ t, AnyLeads word.toArray tree.branches (.start tree.captures) t ∧
        t.position = word.length := by
  simp [Tree.backtracks, mem_branchesWays]

end SequenceConstraint
