import SequenceConstraint.Syntax.CharClass

/-!
# Syntax trees of patterns

A pattern is an alternation of branches, a branch a list of nodes. Trees are compared by structure,
so equality of nodes is decidable.

A repetition `{0,1}` written directly around another repetition is the mark of a lazy quantifier
(`A*?`). It changes which match would be found first, not which texts match, and every reader of
trees looks through it (`Node.withoutLazyMark`).
-/

namespace SequenceConstraint

/-- Conditions on a position. -/
inductive Anchor where
  | start
  | finish
  | wordBoundary
  | insideWord
deriving DecidableEq, Repr

inductive GroupKind where
  /-- Records its text under an index. -/
  | capture (index : Nat)
  | plain
  /-- Looks at what follows without taking it; a negative one asks for it not to follow. -/
  | lookahead (negative : Bool)
deriving DecidableEq, Repr

inductive Node where
  | char (c : Char)
  | charClass (k : CharClass)
  | anchor (a : Anchor)
  /-- The text last recorded under an index. -/
  | backreference (index : Nat)
  | group (kind : GroupKind) (branches : List (List Node))
  /-- From `min` to `max` times the body; no `max` means no bound. -/
  | repetition (min : Nat) (max : Option Nat) (body : Node)

abbrev Branch := List Node

/-- A whole pattern; `captures` is the number of capturing groups it claims to have. -/
structure Tree where
  branches : List Branch
  captures : Nat

/-! ## Equality -/

mutual

/-- Whether two nodes are built alike. -/
def Node.same : Node → Node → Bool
  | .char c, .char d => c == d
  | .charClass k, .charClass l => k == l
  | .anchor a, .anchor b => a == b
  | .backreference i, .backreference j => i == j
  | .group k bs, .group l cs => k == l && sameBranches bs cs
  | .repetition a b n, .repetition c d m => a == c && b == d && n.same m
  | _, _ => false

def sameBranch : List Node → List Node → Bool
  | [], [] => true
  | n :: ns, m :: ms => n.same m && sameBranch ns ms
  | _, _ => false

def sameBranches : List (List Node) → List (List Node) → Bool
  | [], [] => true
  | b :: bs, c :: cs => sameBranch b c && sameBranches bs cs
  | _, _ => false

end

mutual

theorem Node.same_iff (n m : Node) : n.same m = true ↔ n = m := by
  cases n <;> cases m <;>
    simp [Node.same, Node.same_iff, sameBranches_iff, and_assoc]

theorem sameBranch_iff (ns ms : List Node) : sameBranch ns ms = true ↔ ns = ms := by
  cases ns <;> cases ms <;> simp [sameBranch, Node.same_iff, sameBranch_iff]

theorem sameBranches_iff (bs cs : List (List Node)) : sameBranches bs cs = true ↔ bs = cs := by
  cases bs <;> cases cs <;> simp [sameBranches, sameBranch_iff, sameBranches_iff]

end

instance : DecidableEq Node := fun n m => decidable_of_iff _ (Node.same_iff n m)

instance : LawfulBEq Branch := inferInstanceAs (LawfulBEq (List Node))

deriving instance DecidableEq for Tree

/-! ## Reading a tree -/

def GroupKind.isLookahead : GroupKind → Bool
  | .lookahead _ => true
  | _ => false

def Node.isLookahead : Node → Bool
  | .group kind _ => kind.isLookahead
  | _ => false

/-- A repetition without the mark of a lazy quantifier around it. -/
def Node.withoutLazyMark : Node → Node
  | .repetition 0 (some 1) (.repetition min max body) => .repetition min max body
  | n => n

/-- The nodes of a branch that take characters: all but the lookahead groups directly in it. -/
def takingNodes (branch : Branch) : Branch := branch.filter (!·.isLookahead)

end SequenceConstraint
