import SequenceConstraint.Syntax.Token

/-!
# From tokens to a tree

The tokens are arranged from left to right. At each moment one alternation is being read, inside
some that are waiting for it to be closed. A quantifier applies to the last node of the branch
being read: not to an anchor, and to a repetition only as the question mark that makes it lazy.
-/

namespace SequenceConstraint

namespace Syntax

/-- The deepest nesting of groups that is accepted. -/
def maxDepth : Nat := 128

/-- An alternation being read. -/
structure Level where
  /-- The finished branches, latest first. -/
  branches : List Branch
  /-- The nodes of the branch being read, latest first. -/
  nodes : List Node

namespace Level

def empty : Level := ⟨[], []⟩

def push (level : Level) (node : Node) : Level := { level with nodes := node :: level.nodes }

/-- Ends the branch being read. -/
def endBranch (level : Level) : Level := ⟨level.nodes.reverse :: level.branches, []⟩

/-- The alternation, when no more of it comes. -/
def finish (level : Level) : List Branch := level.endBranch.branches.reverse

end Level

/-- How far the arrangement has come. -/
structure Arrangement where
  captures : Nat
  level : Level
  /-- The groups that are open, innermost first, each with the alternation it stands in. -/
  outer : List (GroupKind × Level)

namespace Arrangement

def start : Arrangement := ⟨0, .empty, []⟩

/-- Whether a quantifier may follow a node. -/
def quantifiable (questionMark : Bool) : Node → Bool
  | .anchor _ => false
  | .repetition _ _ (.repetition ..) => false
  | .repetition .. => questionMark
  | _ => true

/-- Wraps the last node of the branch being read. -/
def quantify (questionMark : Bool) (min : Nat) (max : Option Nat) (a : Arrangement) :
    Except ParseErrorKind Arrangement :=
  match a.level.nodes with
  | [] => .error .nothingToRepeat
  | node :: nodes =>
    if quantifiable questionMark node then
      .ok { a with level := { a.level with nodes := .repetition min max node :: nodes } }
    else .error .nothingToRepeat

/-- Opens a group; a capturing one is numbered now, before the groups in it. -/
def openGroup (kind : Option Opening) (a : Arrangement) : Except ParseErrorKind Arrangement :=
  if maxDepth ≤ a.outer.length then .error .tooDeep
  else
    match kind with
    | none => .error .invalidGroup
    | some .capture =>
      .ok ⟨a.captures + 1, .empty, (.capture (a.captures + 1), a.level) :: a.outer⟩
    | some .plain => .ok { a with level := .empty, outer := (.plain, a.level) :: a.outer }
    | some (.lookahead negative) =>
      .ok { a with level := .empty, outer := (.lookahead negative, a.level) :: a.outer }

def closeGroup (a : Arrangement) : Except ParseErrorKind Arrangement :=
  match a.outer with
  | [] => .error .unmatchedParen
  | (kind, level) :: outer =>
    .ok { a with level := level.push (.group kind a.level.finish), outer := outer }

/-- Takes in one token. -/
def step (a : Arrangement) : Token → Except ParseErrorKind Arrangement
  | .atom node => .ok { a with level := a.level.push node }
  | .quantifier min max => a.quantify false min max
  | .questionMark => a.quantify true 0 (some 1)
  | .opening kind => a.openGroup kind
  | .closing => a.closeGroup
  | .bar => .ok { a with level := a.level.endBranch }

/-- The tree, when no more tokens come. -/
def finish (a : Arrangement) : Except ParseErrorKind Tree :=
  if a.outer.isEmpty then .ok ⟨a.level.finish, a.captures⟩ else .error .unterminatedGroup

end Arrangement

/-- Arranges tokens to a tree. An error of their arrangement comes before the fault that ended
them, and that before a group left open. -/
def TokenList.arrange (list : TokenList) : Except ParseErrorKind Tree :=
  match list.tokens.foldlM Arrangement.step Arrangement.start with
  | .error e => .error e
  | .ok a =>
    match list.fault with
    | some e => .error e
    | none => a.finish

end Syntax

/-- Reads the text of a pattern. -/
def Tree.parse (pattern : String) : Except ParseError Tree :=
  match (Syntax.readTokens [] pattern.toList).arrange with
  | .ok tree => .ok tree
  | .error kind => .error ⟨pattern, kind⟩

end SequenceConstraint
