import SequenceConstraint.Generation.Plan

/-!
# How many texts a tree denotes

The number of texts that are generated when no bound is put on unbounded repetitions, told from the
tree alone and without generating any. Numbers from `2 ^ 128` on count as infinite. A text that is
generated in several ways is counted once for each.

A tree is gone through from left to right, with a record of the groups that are complete. A
backreference takes one text, whichever it is, but only to a group that is complete; the nodes and
branches that are left out are those that planning leaves out (`takingNodes`).

## Termination

A sum of powers has as many terms as a repetition has numbers of repeats. It is broken off at the
first power that is too large, so with a base of at least two it is never long.
-/

namespace SequenceConstraint

inductive Cardinality where
  | finite (n : Nat)
  | infinite
deriving DecidableEq, Repr

namespace Cardinality

/-- Numbers from here on count as infinite. -/
def bound : Nat := Nat.pow 2 128

def ofNat (n : Nat) : Cardinality := if n < bound then .finite n else .infinite

def add : Cardinality → Cardinality → Cardinality
  | .finite a, .finite b => ofNat (a + b)
  | _, _ => .infinite

/-- Nothing times anything is nothing. -/
def mul : Cardinality → Cardinality → Cardinality
  | .finite 0, _ => .finite 0
  | _, .finite 0 => .finite 0
  | .finite a, .finite b => ofNat (a * b)
  | _, _ => .infinite

/-- Adds the next `more` powers of `c`, beginning with the `k`th, to `total`; the powers below the
`min`th are not added. -/
def addPowers (c min : Nat) : (more k : Nat) → (power total : Cardinality) → Cardinality
  | 0, _, _, total => total
  | more + 1, k, power, total =>
    match power with
    | .infinite => .infinite
    | .finite p =>
      addPowers c min more (k + 1) (mul (.finite p) (.finite c))
        (if min ≤ k then total.add (.finite p) else total)

/-- `c ^ min + … + c ^ max`. -/
def powerSum (c min max : Nat) : Cardinality :=
  if max < min then .finite 0
  else
    match c with
    | 0 => .finite (if min = 0 then 1 else 0)
    | 1 => ofNat (max - min + 1)
    | c => addPowers c min (max + 1) 0 (.finite 1) (.finite 0)

/-- The number of words of a repetition over `body` texts. A body without texts can only be
repeated no times. -/
def repeated (min : Nat) (max : Option Nat) : Cardinality → Cardinality
  | .finite 0 => .finite (if min = 0 then 1 else 0)
  | .infinite => .infinite
  | .finite c =>
    match max with
    | none => .infinite
    | some max => powerSum c min max

def toText : Cardinality → String
  | .finite n => toString n
  | .infinite => "infinite"

end Cardinality

/-! ## Trees -/

/-- For each index, whether a group with that index is complete. -/
abbrev Completed := List Bool

namespace Completed

/-- No group is complete; indices up to `limit` can be. -/
def start (limit : Nat) : Completed := List.replicate (limit + 1) false

def contains (done : Completed) (index : Nat) : Bool := done[index]?.getD false

/-- Notes the end of a group; other indices are not noted. -/
def close (kind : GroupKind) (done : Completed) : Completed :=
  match kind with
  | .capture index => done.set index true
  | _ => done

end Completed

/-- Counting notes the groups that are complete and may come upon a dangling backreference. -/
abbrev Counting := StateT Completed (Except Dangling)

mutual

def Node.count : Node → Counting Cardinality
  | .char _ => pure (.finite 1)
  | .charClass k => pure (.finite k.resolve.size)
  | .anchor _ => pure (.finite 1)
  | .backreference index => do
    if (← get).contains index then pure (.finite 1) else throw ⟨index⟩
  | .group kind branches => do
    let total ← countBranches [] (.finite 0) branches
    modify (Completed.close kind)
    return total
  | .repetition 0 (some 1) (.repetition min max body) => do
    return (← body.count).repeated min max
  | .repetition min max body => do
    return (← body.count).repeated min max

/-- `product` times the numbers of the nodes of a branch that take characters. -/
def countBranch (product : Cardinality) : List Node → Counting Cardinality
  | [] => pure product
  | node :: nodes => do
    if node.isLookahead then countBranch product nodes
    else countBranch (product.mul (← node.count)) nodes

/-- Adds to `total` the numbers of the branches that differ from those seen before, and from each
other. -/
def countBranches (seen : List Branch) (total : Cardinality) :
    List (List Node) → Counting Cardinality
  | [] => pure total
  | branch :: branches => do
    if takingNodes branch ∈ seen then countBranches seen total branches
    else
      let product ← countBranch (.finite 1) branch
      countBranches (takingNodes branch :: seen) (total.add product) branches

end

/-- The number of texts that a tree denotes. -/
def Tree.languageSize (tree : Tree) : Except Dangling Cardinality :=
  match (countBranches [] (.finite 0) tree.branches).run (.start tree.captures) with
  | .ok (total, _) => .ok total
  | .error e => .error e

end SequenceConstraint
