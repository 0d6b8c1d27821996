import SequenceConstraint.Distinct
import SequenceConstraint.Syntax.Tree

/-!
# Matching

Whether a whole text matches a tree. A node leads from a state, which is a position together with
the spans captured so far, to a list of states, and of states that agree only one is followed.

The text is decided or the search gives up: evaluating a node costs one step, and there are a
million of them (`stepLimit`). No answer is ever guessed.

## Termination

The search recurses on the tree. The repeats of a repetition are counted: without a bound there are
at most one more than the text has characters, since a repeat past the smallest number that takes
no characters is dropped.
-/

namespace SequenceConstraint

/-! ## States -/

/-- A part of the text, from `start` up to but without `stop`. -/
structure Span where
  start : Nat
  stop : Nat
deriving DecidableEq, Repr

namespace Span

instance : Ord Span := ⟨compareLex (compareOn Span.start) (compareOn Span.stop)⟩

instance : Std.TransOrd Span := inferInstanceAs (Std.TransCmp (compareLex _ _))

instance : Std.LawfulEqOrd Span where
  compare_self := Std.ReflCmp.compare_self
  eq_of_compare {s t} h := by
    cases s
    cases t
    have h := compareLex_eq_eq.1 h
    exact congr (congrArg _ (Std.LawfulEqCmp.eq_of_compare h.1))
      (Std.LawfulEqCmp.eq_of_compare h.2)

end Span

/-- How far a search has come, and what each group has captured last. -/
structure MatchState where
  position : Nat
  captures : List (Option Span)
deriving DecidableEq, Repr

namespace MatchState

instance : Ord MatchState :=
  ⟨compareLex (compareOn MatchState.position) (compareOn MatchState.captures)⟩

instance : Std.TransOrd MatchState := inferInstanceAs (Std.TransCmp (compareLex _ _))

instance : Std.LawfulEqOrd MatchState where
  compare_self := Std.ReflCmp.compare_self
  eq_of_compare {s t} h := by
    cases s
    cases t
    have h := compareLex_eq_eq.1 h
    exact congr (congrArg _ (Std.LawfulEqCmp.eq_of_compare h.1))
      (Std.LawfulEqCmp.eq_of_compare h.2)

def start (captures : Nat) : MatchState := ⟨0, List.replicate (captures + 1) none⟩

def advance (s : MatchState) (count : Nat) : MatchState :=
  { s with position := s.position + count }

/-- What a group has captured, if there is such a group and it has taken part. -/
def captured? (s : MatchState) (index : Nat) : Option Span := (s.captures[index]?).join

/-- Records what a group has captured since `s`; an index without a place is ignored. -/
def capture (index : Nat) (s finish : MatchState) : MatchState :=
  { finish with captures := finish.captures.set index (some ⟨s.position, finish.position⟩) }

end MatchState

/-! ## Single nodes -/

namespace Matching

/-- Takes one character that passes a test. -/
def consume (text : Array Char) (test : Char → Bool) (s : MatchState) : List MatchState :=
  match text[s.position]? with
  | some c => if test c then [s.advance 1] else []
  | none => []

def isWordChar (c : Char) : Bool := c.isAlphanum || c == '_'

/-- Whether exactly one of the two neighbours of a position is a word character. -/
def atWordBoundary (text : Array Char) (position : Nat) : Bool :=
  let before := 0 < position && (text[position - 1]?).any isWordChar
  let after := (text[position]?).any isWordChar
  before != after

def holdsAt (text : Array Char) (position : Nat) : Anchor → Bool
  | .start => position == 0
  | .finish => position == text.size
  | .wordBoundary => atWordBoundary text position
  | .insideWord => !atWordBoundary text position

/-- Takes the text that a group has captured once more. A group that has captured nothing leaves
nothing to take. -/
def repeatCaptured (text : Array Char) (index : Nat) (s : MatchState) : List MatchState :=
  match s.captured? index with
  | none => [s]
  | some span =>
    let length := span.stop - span.start
    if s.position + length ≤ text.size ∧
        text.extract s.position (s.position + length) = text.extract span.start span.stop then
      [s.advance length]
    else []

/-! ## Searches with a limit -/

/-- A search that spends steps: it takes the number of steps left, and gives its result with the
number left then, or nothing if it would need more. -/
abbrev Metered (α : Type) := Nat → Option (α × Nat)

/-- The ends of a search from each of some states, after those in `found`, latest first. -/
def gather (search : MatchState → Metered (List MatchState)) :
    (found starts : List MatchState) → Metered (List MatchState)
  | found, [], left => some (found.reverse, left)
  | found, s :: rest, left =>
    match search s left with
    | none => none
    | some (ends, left) => gather search (ends.reverseAux found) rest left

/-- The ends of one more repeat from `s`. Once the smallest number of repeats is reached, a repeat
has to take characters. -/
def oneMore (search : MatchState → Metered (List MatchState)) (min count : Nat) (s : MatchState) :
    Metered (List MatchState) := fun left =>
  match search s left with
  | none => none
  | some (ends, left) =>
    some (ends.filter fun finish => finish.position != s.position || decide (count < min), left)

/-- The ends of `count` repeats and of up to `more` more. The states after `count` repeats are
`frontier`, the ends found before are in `found`, latest first. -/
def repeats (search : MatchState → Metered (List MatchState)) (min : Nat) :
    (more count : Nat) → (found frontier : List MatchState) → Metered (List MatchState)
  | 0, count, found, frontier, left =>
    let found := if min ≤ count then frontier.reverseAux found else found
    some (distinct found.reverse, left)
  | more + 1, count, found, frontier, left =>
    let found := if min ≤ count then frontier.reverseAux found else found
    if frontier.isEmpty then some (distinct found.reverse, left)
    else
      match gather (oneMore search min count) [] frontier left with
      | none => none
      | some (next, left) => repeats search min more (count + 1) found (distinct next) left

/-! ## All nodes -/

mutual

/-- The states that a node leads to. -/
def ends (text : Array Char) : Node → MatchState → Metered (List MatchState)
  | _, _, 0 => none
  | .char c, s, left + 1 => some (consume text (· == c) s, left)
  | .charClass k, s, left + 1 => some (consume text k.accepts s, left)
  | .anchor a, s, left + 1 => some (if holdsAt text s.position a then [s] else [], left)
  | .backreference index, s, left + 1 => some (repeatCaptured text index s, left)
  | .group kind branches, s, left + 1 =>
    match branchesEnds text branches s [] left with
    | none => none
    | some (found, left) =>
      match kind with
      | .capture index => some (distinct (found.map (s.capture index)), left)
      | .plain => some (found, left)
      | .lookahead negative => some (if found.isEmpty == negative then [s] else [], left)
  | .repetition 0 (some 1) (.repetition min max body), s, left + 1 =>
    repeats (fun s left => ends text body s left) min (max.getD (text.size + 1)) 0 [] [s] left
  | .repetition min max body, s, left + 1 =>
    repeats (fun s left => ends text body s left) min (max.getD (text.size + 1)) 0 [] [s] left

/-- The states that the nodes of a branch lead to, one after the other. -/
def branchEnds (text : Array Char) : List Node → List MatchState → Metered (List MatchState)
  | [], frontier, left => some (frontier, left)
  | node :: nodes, frontier, left =>
    if frontier.isEmpty then some ([], left)
    else
      match gather (fun s left => ends text node s left) [] frontier left with
      | none => none
      | some (next, left) => branchEnds text nodes (distinct next) left

/-- The states that any of some branches leads to, and those in `found`, latest first. -/
def branchesEnds (text : Array Char) : List (List Node) → MatchState → List MatchState →
    Metered (List MatchState)
  | [], _, found, left => some (distinct found.reverse, left)
  | branch :: branches, s, found, left =>
    match branchEnds text branch [s] left with
    | none => none
    | some (next, left) => branchesEnds text branches s (next.reverseAux found) left

end

/-- The number of steps of a search. -/
def stepLimit : Nat := 1000000

end Matching

/-- Whether a tree matches a text from its first to its last character; nothing if the search
gives up. -/
def Tree.matches? (tree : Tree) (word : List Char) : Option Bool :=
  let text := word.toArray
  match Matching.branchesEnds text tree.branches (.start tree.captures) []
      Matching.stepLimit with
  | none => none
  | some (found, _) => some (found.any (·.position == text.size))

end SequenceConstraint
