import SequenceConstraint.Syntax.Tree

/-!
# Plans

A plan is a tree reduced to what matters for the texts it produces: lists of texts, put beside each
other, chosen from, repeated. Capturing groups get names of their own, and a backreference becomes
an *echo* of the name that its index stands for where it is written: the group that was completed
last under that index. A backreference before the end of such a group has nothing to echo.

An alternation keeps the first of the branches that take characters alike
(`takingNodes`); lookahead groups directly in a branch are left out.
-/

namespace SequenceConstraint

inductive Plan where
  /-- One of these texts, in order. -/
  | texts (values : List (List Char))
  /-- One part after the other. -/
  | concat (parts : List Plan)
  /-- One of the branches. -/
  | choice (branches : List Plan)
  /-- From `min` to `max` times the body. -/
  | times (min : Nat) (max : Option Nat) (body : Plan)
  /-- The text of a named part. -/
  | echo (name : Nat)
  | named (name : Nat) (body : Plan)

/-- A backreference whose group is not complete where it is written. -/
structure Dangling where
  index : Nat
deriving DecidableEq, Repr

def Dangling.message (e : Dangling) : String :=
  "Reference to non-existent capture group \\" ++ toString e.index ++ "."

/-! ## Names of groups -/

/-- The names given to groups so far. -/
structure Naming where
  /-- The largest index that is recorded. -/
  limit : Nat
  /-- The next name. -/
  fresh : Nat
  /-- Names with their indices, latest first. -/
  recorded : List (Nat × Nat)

namespace Naming

def start (limit : Nat) : Naming := ⟨limit, 0, []⟩

/-- The name an index stands for. -/
def name? (naming : Naming) (index : Nat) : Option Nat := naming.recorded.lookup index

/-- Gives a completed group the next name, if its index is one that is recorded. -/
def record (index : Nat) (body : Plan) (naming : Naming) : Plan × Naming :=
  if index ≤ naming.limit then
    (.named naming.fresh body,
      { naming with fresh := naming.fresh + 1, recorded := (index, naming.fresh) :: naming.recorded })
  else (body, naming)

end Naming

/-! ## From trees to plans -/

/-- A lone branch needs no choice. -/
def Plan.ofBranches : List Plan → Plan
  | [branch] => branch
  | branches => .choice branches

/-- Building a plan names groups and may come upon a dangling backreference. -/
abbrev Planning := StateT Naming (Except Dangling)

mutual

def Node.plan : Node → Planning Plan
  | .char c => pure (.texts [[c]])
  | .charClass k => pure (.texts (k.resolve.toList.map fun c => [c]))
  | .anchor _ => pure (.texts [[]])
  | .backreference index => do
    match (← get).name? index with
    | some name => pure (.echo name)
    | none => throw ⟨index⟩
  | .group kind branches => do
    let body := Plan.ofBranches (← planBranches [] branches)
    match kind with
    | .capture index => modifyGet (Naming.record index body)
    | _ => pure body
  | .repetition 0 (some 1) (.repetition min max body) => do
    return .times min max (← body.plan)
  | .repetition min max body => do
    return .times min max (← body.plan)

/-- The nodes of a branch that take characters. -/
def planBranch : List Node → Planning (List Plan)
  | [] => pure []
  | node :: nodes => do
    if node.isLookahead then planBranch nodes
    else return (← node.plan) :: (← planBranch nodes)

/-- The branches that differ from those seen before, and from each other. -/
def planBranches (seen : List Branch) : List (List Node) → Planning (List Plan)
  | [] => pure []
  | branch :: branches => do
    if takingNodes branch ∈ seen then planBranches seen branches
    else
      return .concat (← planBranch branch) :: (← planBranches (takingNodes branch :: seen) branches)

end

/-- The plan of a tree. -/
def Tree.plan (tree : Tree) : Except Dangling Plan :=
  match (planBranches [] tree.branches).run (.start tree.captures) with
  | .ok (branches, _) => .ok (.ofBranches branches)
  | .error e => .error e

end SequenceConstraint
