import SequenceConstraint.Generation.Plan
import SequenceConstraint.Generation.Run
import SequenceConstraint.Generation.Snapshot

/-!
# Enumerating the states of a plan

`Plan.run` goes through the states of a plan in order.

* Of parts beside each other the rightmost moves fastest; each part runs anew for every state of
  the parts to its left, whose groups it sees.
* A choice goes through its branches in order and skips a text that one of its states has shown.
* A repetition goes through the numbers of repeats and, for each, through all words over the texts
  of its body. Its groups are those of the last repeat.

A part that has no states at all, or no more of them, still shows something, to echoes in later
branches of a choice around it: exhausted texts are empty, a branch shows what its parts show, and
a choice shows its last branch.

## Termination

Runs are computed by recursion on the plan; the words of a repetition are counted.
-/

namespace SequenceConstraint

open Snapshot

namespace Plan

/-! ## Parts that have not started -/

mutual

/-- What a part shows before it is started. -/
def initial : Plan → Snapshot
  | .texts values => const (values.headD [])
  | .concat parts => initials parts
  | .choice [] => empty
  | .choice (branch :: _) => branch.initial
  | .times .. => empty
  | .echo name => Snapshot.echo name
  | .named name body => Snapshot.named name body.initial

def initials : List Plan → Snapshot
  | [] => empty
  | part :: parts => part.initial.beside (initials parts)

end

/-! ## Repetitions -/

/-- The largest number of repeats; without a bound, `cap` more than the smallest. -/
def limit (cap min : Nat) (max : Option Nat) : Nat := max.getD (min + cap)

/-- The `count` digits of `i` to the base `b`, in front of the digits `right`. -/
def digits (b : Nat) : (count i : Nat) → (right : List Nat) → List Nat
  | 0, _, right => right
  | count + 1, i, right => digits b count (i / b) (i % b :: right)

/-- The states of a repeated body. -/
structure Repeats where
  states : Array Snapshot
  texts : Array (List Char)
  /-- What the body is left with. -/
  last : Snapshot

namespace Repeats

/-- The states of a body as they are where it stands. The texts are settled now. -/
def ofRun (body : Run Snapshot) (env : Bindings) : Repeats :=
  let (states, last) := body.collect
  ⟨states.toArray, (states.map fun s => (s env).text).toArray, last⟩

def text (r : Repeats) (i : Nat) : List Char := r.texts[i]?.getD []

/-- The groups of one state of the body. -/
def groupsOf (s : Option Snapshot) (env : Bindings) : Bindings :=
  match s with
  | some s => (s env).groups
  | none => []

/-- The word with number `i` among those of `count` repeats. -/
def word (r : Repeats) (count i : Nat) : Snapshot :=
  let places := digits r.texts.size count i []
  let text := places.flatMap r.text
  let last := places.getLast?.bind (r.states[·]?)
  fun env => ⟨text, groupsOf last env⟩

/-- What is shown after the last word of `limit` repeats. -/
def exhausted (r : Repeats) (limit : Nat) : Snapshot :=
  if limit = 0 then empty
  else fun env => ⟨(List.replicate limit (r.text 0)).flatten, groupsOf r.states.back? env⟩

/-- What is shown if there are no words: the bounds are in the wrong order, or at least one repeat
is asked for and the body has no states. -/
def stalled (r : Repeats) (min : Nat) : Snapshot := fun env =>
  ⟨(List.replicate min (r.text 0)).flatten, (r.last env).groups⟩

/-- The words of `count` repeats, and of up to `more` repeats more. A body without states has only
the word of no repeats. -/
def words (r : Repeats) (limit : Nat) : (more count : Nat) → Run Snapshot
  | 0, count =>
    .counting (r.word count) (fun _ => .done (r.exhausted limit)) (r.texts.size.pow count) 0
  | more + 1, count =>
    .counting (r.word count)
      (fun _ => if r.texts.isEmpty then .done empty else words r limit more (count + 1))
      (r.texts.size.pow count) 0

/-- All words from `min` to `limit` repeats. -/
def run (r : Repeats) (min limit : Nat) : Run Snapshot :=
  if limit < min ∨ (r.texts.isEmpty ∧ 0 < min) then .done (r.stalled min)
  else r.words limit (limit - min) min

end Repeats

/-! ## All plans -/

mutual

/-- Whether a plan has states. -/
def produces (cap : Nat) : Plan → Bool
  | .texts values => !values.isEmpty
  | .concat parts => allProduce cap parts
  | .choice branches => anyProduces cap branches
  | .times min max body => decide (min ≤ limit cap min max) && (min == 0 || body.produces cap)
  | .echo _ => true
  | .named _ body => body.produces cap

def allProduce (cap : Nat) : List Plan → Bool
  | [] => true
  | part :: parts => part.produces cap && allProduce cap parts

def anyProduces (cap : Nat) : List Plan → Bool
  | [] => false
  | branch :: branches => branch.produces cap || anyProduces cap branches

end

mutual

/-- The states of a plan among the groups `env`. -/
def run (cap : Nat) : Plan → Bindings → Run Snapshot
  | .texts values, _ => .ofList empty (values.map const)
  | .concat parts, env =>
    if allProduce cap parts then runParts cap parts env else .done (stalledParts cap parts env)
  | .choice branches, env => runBranches cap branches env id ∅ empty
  | .times min max body, env =>
    (Repeats.ofRun (body.run cap env) env).run min (limit cap min max)
  | .echo name, _ => .ofList (Snapshot.echo name) [Snapshot.echo name]
  | .named name body, env => (body.run cap env).map (Snapshot.named name)

/-- The states of parts beside each other. -/
def runParts (cap : Nat) : List Plan → Bindings → Run Snapshot
  | [], _ => .ofList empty [empty]
  | part :: parts, env =>
    (part.run cap env).cross beside (fun s => runParts cap parts ((s env).groups ++ env)) empty

/-- What parts beside each other show if one of them has no states: those before it have started,
those after it have not. -/
def stalledParts (cap : Nat) : List Plan → Bindings → Snapshot
  | [], _ => empty
  | part :: parts, env =>
    match part.run cap env with
    | .done s => s.beside (initials parts)
    | .yield s _ => s.beside (stalledParts cap parts ((s env).groups ++ env))

/-- The states of the branches of a choice. The branches before have shown the texts `seen` and
left behind what `scope` adds; the one just before is left with `last`. -/
def runBranches (cap : Nat) : List Plan → Bindings → Scope → Std.TreeSet (List Char) compare →
    Snapshot → Run Snapshot
  | [], _, _, _, last => .done last
  | branch :: branches, env, scope, seen, _ =>
    let inner := scope env
    (branch.run cap inner).unseenThen (fun s => (s inner).text) (within scope)
      (fun seen s => runBranches cap branches env (extend scope s) seen (within scope s)) seen

end

end Plan

end SequenceConstraint
