import Mathlib.Logic.Relation
import SequenceConstraint.Proofs.Matching.Unrolling

/-!
# The order of alternatives

The branches of an alternation are tried in turn, and the states they lead to are listed in that
order. Which text is accepted does not hang on it: branches may change places, and a branch may be
written twice, in the tree and in any group at any depth. A group that is written twice is written
with the same index, so it records under that index whichever copy is followed.

A rearrangement is a chain of single moves (`Rearranges`), each in one alternation. A move changes
the list of states that a search finds, and the number of its steps, but not the set of states
(`Leads`). That is shown for one move, along the way to the alternation it is made in, and then for
chains of moves.

## Main statements

* `Rearranges.anyLeads_iff`, `Node.Rearranges.leads_eq` — a move leaves the relation on states as it
  is
* `Tree.Rearranged.anyLeads_iff` — so do moves in a row, made or undone
* `Tree.Rearranged.verdict_eq` — a text that is decided with both trees is decided alike
-/

namespace SequenceConstraint

open Matching

/-! ## Moves -/

mutual

/-- One move in an alternation, or in a group somewhere in it: branches change places, or a branch
is written once more. -/
inductive Rearranges : List (List Node) → List (List Node) → Prop where
  | permute {bs cs : List (List Node)} : bs.Perm cs → Rearranges bs cs
  | duplicate (before : List (List Node)) (b : List Node) (after : List (List Node)) :
    Rearranges (before ++ b :: after) (before ++ b :: b :: after)
  | inside (before : List (List Node)) (left : List Node) {n m : Node} (right : List Node)
      (after : List (List Node)) : n.Rearranges m →
    Rearranges (before ++ (left ++ n :: right) :: after) (before ++ (left ++ m :: right) :: after)

/-- One move in the group that a node is or repeats. -/
inductive Node.Rearranges : Node → Node → Prop where
  | group (kind : GroupKind) {bs cs : List (List Node)} : SequenceConstraint.Rearranges bs cs →
    Node.Rearranges (.group kind bs) (.group kind cs)
  | repetition (min : Nat) (max : Option Nat) {n m : Node} : Node.Rearranges n m →
    Node.Rearranges (.repetition min max n) (.repetition min max m)

end

/-- Whether a tree becomes another one by moves, made or undone. -/
structure Tree.Rearranged (t u : Tree) : Prop where
  captures : t.captures = u.captures
  branches : Relation.EqvGen Rearranges t.branches u.branches

/-! ## What leads alike -/

namespace Matching

variable {text : Array Char}

theorem anyLeads_append {bs cs : List (List Node)} {s t : MatchState} :
    AnyLeads text (bs ++ cs) s t ↔ AnyLeads text bs s t ∨ AnyLeads text cs s t := by
  simp only [anyLeads_iff, List.mem_append, or_and_right, exists_or]

theorem leads_group_congr {bs cs : List (List Node)} (kind : GroupKind)
    (h : ∀ s t, AnyLeads text bs s t ↔ AnyLeads text cs s t) :
    Leads text (.group kind bs) = Leads text (.group kind cs) := by
  funext s t
  cases kind with
  | capture index => simp only [Leads, h]
  | plain => simp only [Leads, h]
  | lookahead negative => simp only [Leads, h]

/-- Around groups no repetition is a lazy mark. -/
theorem leads_repetition_group_congr {kind : GroupKind} {bs cs : List (List Node)} (min : Nat)
    (max : Option Nat) (h : Leads text (.group kind bs) = Leads text (.group kind cs)) :
    Leads text (.repetition min max (.group kind bs)) =
      Leads text (.repetition min max (.group kind cs)) := by
  have hplain : ∀ branches a b y, min = 0 → max = some 1 →
      Node.group kind branches = .repetition a b y → False := fun _ _ _ _ _ _ => nofun
  funext s
  rw [leads_repetition (hplain _), leads_repetition (hplain _), h]

/-- A lazy mark leads where the rounds of the body of its repetition lead, any other repetition
where its own rounds do. -/
theorem leads_repetition_repetition_congr {min' : Nat} {max' : Option Nat} {n m : Node} (min : Nat)
    (max : Option Nat) (hbody : Leads text n = Leads text m)
    (h : Leads text (.repetition min' max' n) = Leads text (.repetition min' max' m)) :
    Leads text (.repetition min max (.repetition min' max' n)) =
      Leads text (.repetition min max (.repetition min' max' m)) := by
  funext s
  by_cases hmark : min = 0 ∧ max = some 1
  · obtain ⟨rfl, rfl⟩ := hmark
    rw [leads_marked, leads_marked, hbody]
  · have hplain : ∀ (x : Node) a b y, min = 0 → max = some 1 → x = .repetition a b y → False :=
      fun _ _ _ _ hmin hmax _ => hmark ⟨hmin, hmax⟩
    rw [leads_repetition (hplain _), leads_repetition (hplain _), h]

end Matching

/-! ## One move -/

section Moves

variable {text : Array Char}

mutual

/-- **A move leaves the states that an alternation leads to as they are.** -/
theorem Rearranges.anyLeads_iff {bs cs : List (List Node)} :
    Rearranges bs cs → ∀ s t, AnyLeads text bs s t ↔ AnyLeads text cs s t
  | .permute h, s, t => by
    simp only [Matching.anyLeads_iff, h.mem_iff]
  | .duplicate before b after, s, t => by
    simp only [anyLeads_append, AnyLeads, or_self_left]
  | .inside before left right after h, s, t => by
    have hnode := h.leads_eq
    simp only [anyLeads_append, AnyLeads, branchLeads_append, BranchLeads, hnode]

/-- **A move leaves the states that a node leads to as they are.** -/
theorem Node.Rearranges.leads_eq {n m : Node} :
    n.Rearranges m → Leads text n = Leads text m
  | .group kind h => leads_group_congr kind h.anyLeads_iff
  | .repetition min max (.group kind h) =>
    leads_repetition_group_congr min max (leads_group_congr kind h.anyLeads_iff)
  | .repetition min max hbody@(.repetition _ _ h) =>
    leads_repetition_repetition_congr min max h.leads_eq hbody.leads_eq

end

end Moves

/-! ## Moves in a row -/

namespace Tree

/-- **Rearranged trees lead alike.** -/
theorem Rearranged.anyLeads_iff {t u : Tree} (h : t.Rearranged u) (text : Array Char)
    (s e : MatchState) : AnyLeads text t.branches s e ↔ AnyLeads text u.branches s e := by
  have hchain := h.branches
  generalize t.branches = bs, u.branches = cs at hchain
  induction hchain with
  | rel bs cs hmove => exact hmove.anyLeads_iff s e
  | refl bs => exact Iff.rfl
  | symm bs cs _ ih => exact ih.symm
  | trans bs cs ds _ _ ihfirst ihsecond => exact ihfirst.trans ihsecond

/-- **The order of alternatives does not matter,** nor does how often each is written: if a text is
decided with a tree and with one that is rearranged from it, it is accepted with both or with
neither. -/
theorem Rearranged.verdict_eq {t u : Tree} (h : t.Rearranged u) {w : List Char} {b b' : Bool}
    (ht : t.matches? w = some b) (hu : u.matches? w = some b') : b = b' := by
  have hiff : b = true ↔ b' = true := by
    rw [matches?_eq_some ht, matches?_eq_some hu, h.captures]
    simp only [h.anyLeads_iff]
  exact Bool.eq_iff_iff.2 hiff

/-- `(A|AB)(?=C|B)(?:B|C)*?\1`, where the shorter text is captured first. -/
def shorterFirst : Tree :=
  ⟨[[.group (.capture 1) [[.char 'A'], [.char 'A', .char 'B']],
    .group (.lookahead false) [[.char 'C'], [.char 'B']],
    .repetition 0 (some 1) (.repetition 0 none (.group .plain [[.char 'B'], [.char 'C']])),
    .backreference 1]], 1⟩

/-- `(AB|A)(?=C|B)(?:B|C|C)*?\1`, where the longer text is captured first. -/
def longerFirst : Tree :=
  ⟨[[.group (.capture 1) [[.char 'A', .char 'B'], [.char 'A']],
    .group (.lookahead false) [[.char 'C'], [.char 'B']],
    .repetition 0 (some 1)
      (.repetition 0 none (.group .plain [[.char 'B'], [.char 'C'], [.char 'C']])),
    .backreference 1]], 1⟩

theorem rearranged_longerFirst : shorterFirst.Rearranged longerFirst where
  captures := rfl
  branches := by
    refine .trans _ _ _ (.rel _ _ (.inside [] [] _ [] (.group _ (.permute (.swap _ _ _))))) ?_
    refine .rel _ _ (.inside [] [_, _] [_] [] (.repetition _ _ (.repetition _ _ (.group _ ?_))))
    exact .duplicate [[.char 'B']] [.char 'C'] []

/-- The text `ABCA` repeats what only the shorter alternative captures. -/
theorem verdict_eq_shorterFirst : shorterFirst.Rearranged longerFirst ∧ ∃ b b',
    shorterFirst.matches? ['A', 'B', 'C', 'A'] = some b ∧
      longerFirst.matches? ['A', 'B', 'C', 'A'] = some b' ∧ b = b' ∧ b = true := by
  have ht : shorterFirst.matches? ['A', 'B', 'C', 'A'] = some true := by decide +kernel
  have hu : longerFirst.matches? ['A', 'B', 'C', 'A'] = some true := by decide +kernel
  exact ⟨rearranged_longerFirst, true, true, ht, hu, rearranged_longerFirst.verdict_eq ht hu, rfl⟩

end Tree

end SequenceConstraint
