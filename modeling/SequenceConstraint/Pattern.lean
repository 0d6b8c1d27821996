import SequenceConstraint.Cardinality
import SequenceConstraint.Dotted
import SequenceConstraint.Generation.Stream
import SequenceConstraint.Matching
import SequenceConstraint.Syntax.Parse

/-!
# Sequence constraints

A pattern constrains sequences of interactions. It is written with dots between symbols
(`O.(S|M).C`) and read without them, as a regular expression over flat texts. Beside its tree a
pattern keeps the tree of the combinations of its symbols, `(C|M|O|S)+`.

* `validSequences n` — the accepted sequences that have at most `n` symbols more than the shortest
* `invalidSequences n` — the combinations of at most `n` symbols that are rejected
* `check` — whether one sequence is accepted
* `languageSize` — how many sequences the pattern produces

Sequences are listed in canonical order, each once.
-/

namespace SequenceConstraint

/-! ## Errors -/

inductive PatternError where
  | unsupportedSyntax
  | malformed (e : ParseError)
  | dangling (e : Dangling)
  | matchBudgetExhausted
deriving DecidableEq, Repr

def PatternError.message : PatternError → String
  | .unsupportedSyntax => "Unsupported lookbehind assertion."
  | .malformed e => e.message
  | .dangling e => e.message
  | .matchBudgetExhausted => "Match step budget exhausted."

/-! ## Compiling -/

/-- A compiled pattern. -/
structure Pattern where
  source : String
  /-- The symbols that the pattern names, each once, in canonical order. -/
  symbols : List String
  /-- The tree of the flat pattern. -/
  tree : Tree
  /-- The tree of all combinations of the symbols. -/
  combinations : Tree
deriving DecidableEq

namespace Pattern

/-- How many symbols more than the shortest valid sequences have, unless said otherwise. -/
def defaultValidCoverage : Nat := 0

/-- How many symbols invalid sequences have at most, unless said otherwise. -/
def defaultInvalidCoverage : Nat := 1

/-- Whether a lookbehind is written anywhere. -/
def hasLookbehind : List Char → Bool
  | [] => false
  | '(' :: '?' :: '<' :: _ => true
  | _ :: rest => hasLookbehind rest

/-- The text of a pattern without its dots. -/
def flatSource (source : String) : String := String.ofList (Dotted.flatten source.toList)

/-- A pattern for all combinations of some symbols. -/
def combinationsOf (symbols : List String) : String :=
  "(" ++ String.intercalate "|" symbols ++ ")+"

def symbolsOf (source : String) : List String :=
  (Dotted.symbols source.toList).map String.ofList

/-- Compiles a pattern with a given reader of pattern texts. -/
def compileWith {m : Type → Type} [Monad m] (parse : String → m (Except ParseError Tree))
    (source : String) : m (Except PatternError Pattern) := do
  if hasLookbehind source.toList then return .error .unsupportedSyntax
  let symbols := symbolsOf source
  match ← parse (flatSource source) with
  | .error e => return .error (.malformed e)
  | .ok tree =>
    match ← parse (combinationsOf symbols) with
    | .error e => return .error (.malformed e)
    | .ok combinations => return .ok ⟨source, symbols, tree, combinations⟩

def compile (source : String) : Except PatternError Pattern :=
  Id.run (compileWith (fun text => pure (Tree.parse text)) source)

/-- Why a text is no pattern, if it is none. -/
def compileError? (source : String) : Option PatternError :=
  match compile source with
  | .ok _ => none
  | .error e => some e

/-! ## Membership -/

/-- Whether a sequence is accepted, with or without dots. -/
def checkText (p : Pattern) (sequence : List Char) : Except PatternError Bool :=
  match p.tree.matches? (Dotted.flatten sequence) with
  | some accepted => .ok accepted
  | none => .error .matchBudgetExhausted

def check (p : Pattern) (sequence : String) : Except PatternError Bool :=
  p.checkText sequence.toList

/-- Whether a sequence is known to be accepted. -/
def accepts (p : Pattern) (sequence : String) : Bool :=
  match p.check sequence with
  | .ok accepted => accepted
  | .error _ => false

/-! ## Enumerations -/

/-- The plan of one of the trees of a pattern. -/
def planOf (tree : Tree) : Except PatternError Plan :=
  match tree.plan with
  | .ok plan => .ok plan
  | .error e => .error (.dangling e)

/-- The first `count` sequences that the pattern produces, in the order in which they come and with
repeats. Unbounded repetitions repeat at most `cap` times more than they must. -/
def sequences (p : Pattern) (cap count : Nat) : Except PatternError (List String) :=
  (planOf p.tree).map fun plan =>
    ((Stream.ofPlan cap plan).take count).1.map fun text => String.ofList (Dotted.ofFlat text)

/-- Goes through the texts of a run. Of those that fit it keeps the ones the pattern accepts, or
the ones it does not; the texts looked at before are `seen`, the ones kept `kept`, latest first. -/
def selectFrom (p : Pattern) (fits : List Char → Bool) (accepted : Bool)
    (seen : Std.TreeSet (List Char) compare) (kept : List (List Char)) :
    Run Snapshot → Except PatternError (List (List Char))
  | .done _ => .ok kept.reverse
  | .yield state rest =>
    let sequence := Dotted.ofFlat (state []).text
    if !fits sequence || seen.contains sequence then
      selectFrom p fits accepted seen kept (rest ())
    else
      match p.checkText sequence with
      | .error e => .error e
      | .ok answer =>
        selectFrom p fits accepted (seen.insert sequence)
          (if answer == accepted then sequence :: kept else kept) (rest ())

/-- The texts of a run that fit and are accepted, or rejected, in canonical order. -/
def select (p : Pattern) (fits : List Char → Bool) (accepted : Bool) (run : Run Snapshot) :
    Except PatternError (List (List Char)) :=
  (p.selectFrom fits accepted ∅ [] run).map Dotted.ascending

/-- The accepted sequences with at most `n` symbols more than the shortest. -/
def validTexts (p : Pattern) (n : Nat) : Except PatternError (List (List Char)) := do
  let plan ← planOf p.tree
  match ← p.select (fun _ => true) true (plan.run 0 []) with
  | [] => return []
  | shortest :: _ =>
    let longest := Dotted.symbolCount shortest + n
    p.select (fun s => Dotted.symbolCount s ≤ longest) true (plan.run n [])

def validSequences (p : Pattern) (n : Nat) : Except PatternError (List String) :=
  (p.validTexts n).map (·.map String.ofList)

/-- The rejected combinations of at most `n` symbols. The combinations have one repeat at least, so
`n - 1` more make `n` symbols. -/
def invalidTexts (p : Pattern) (n : Nat) : Except PatternError (List (List Char)) := do
  let plan ← planOf p.combinations
  p.select (fun s => Dotted.symbolCount s ≤ n) false (plan.run (n - 1) [])

def invalidSequences (p : Pattern) (n : Nat) : Except PatternError (List String) :=
  (p.invalidTexts n).map (·.map String.ofList)

/-- How many sequences the pattern produces. -/
def languageSize (p : Pattern) : Except PatternError Cardinality :=
  match p.tree.languageSize with
  | .ok size => .ok size
  | .error e => .error (.dangling e)

end Pattern

end SequenceConstraint
