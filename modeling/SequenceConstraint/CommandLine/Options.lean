import SequenceConstraint.Pattern
import SequenceConstraint.Syntax.Escape

/-!
# Command line options

The arguments are read from left to right. What is asked for by `--help` and `--version` is given
as soon as it is met; the first error before that ends the reading.

* `--valid` and `--invalid` have a number if it is attached (`--valid=2`) or if the next argument
  does not begin with a dash.
* `--check` and `-c` need a sequence, attached (`--check=AB`, `-cAB`) or as the next argument.
* Short flags combine, and the last of them may be `-c`.
* After `--` no argument is an option.
* A dash alone is no option.
-/

namespace SequenceConstraint.CommandLine

/-- What the program is asked to do with a pattern. -/
structure Options where
  pattern : String
  /-- The coverage of the valid sequences to print. -/
  valid : Option Nat
  /-- The coverage of the invalid sequences to print. -/
  invalid : Option Nat
  symbols : Bool
  count : Bool
  /-- The sequences to check, in order. -/
  checks : List String
deriving DecidableEq, Repr

/-- What a command line asks for. -/
inductive Request where
  | run (options : Options)
  | version
  | help
  | usageError
deriving DecidableEq, Repr

/-! ## Reading -/

/-- An option whose value may be the next argument. -/
inductive Awaited where
  | validCoverage
  | invalidCoverage
  | check
deriving DecidableEq, Repr

/-- What has been read; the checks are latest first. -/
structure Reading where
  pattern : Option String
  valid : Option Nat
  invalid : Option Nat
  symbols : Bool
  count : Bool
  checks : List String
  awaited : Option Awaited
  /-- Whether `--` has been read. -/
  ended : Bool

namespace Reading

def start : Reading := ⟨none, none, none, false, false, [], none, false⟩

/-- The number that a text spells, with or without a plus sign before it. -/
def coverage? (text : List Char) : Option Nat :=
  let digits := match text with
    | '+' :: rest => rest
    | rest => rest
  if digits.all Char.isDigit then Syntax.number? digits else none

def addCheck (r : Reading) (sequence : List Char) : Reading :=
  { r with checks := String.ofList sequence :: r.checks, awaited := none }

def withValid (r : Reading) (text : List Char) : Except Request Reading :=
  match coverage? text with
  | some n => .ok { r with valid := some n, awaited := none }
  | none => .error .usageError

def withInvalid (r : Reading) (text : List Char) : Except Request Reading :=
  match coverage? text with
  | some n => .ok { r with invalid := some n, awaited := none }
  | none => .error .usageError

/-- Gives up waiting for a value, which only a check cannot do without. -/
def settle (r : Reading) : Except Request Reading :=
  if r.awaited = some .check then .error .usageError else .ok { r with awaited := none }

def setSymbols (r : Reading) : Except Request Reading :=
  if r.symbols then .error .usageError else .ok { r with symbols := true }

def setCount (r : Reading) : Except Request Reading :=
  if r.count then .error .usageError else .ok { r with count := true }

/-- Reads an option that is written out, with the value attached to it. -/
def longOption (r : Reading) (name : String) (value : Option (List Char)) :
    Except Request Reading :=
  match name, value with
  | "valid", value =>
    if r.valid.isSome then .error .usageError
    else
      match value with
      | some text => r.withValid text
      | none =>
        .ok { r with valid := some Pattern.defaultValidCoverage, awaited := some .validCoverage }
  | "invalid", value =>
    if r.invalid.isSome then .error .usageError
    else
      match value with
      | some text => r.withInvalid text
      | none =>
        .ok { r with
          invalid := some Pattern.defaultInvalidCoverage, awaited := some .invalidCoverage }
  | "check", some text => .ok (r.addCheck text)
  | "check", none => .ok { r with awaited := some .check }
  | "symbols", none => r.setSymbols
  | "count", none => r.setCount
  | "verbose", none => .ok r
  | "version", none => .error .version
  | "help", none => .error .help
  | _, _ => .error .usageError

/-- Reads combined short flags. -/
def shortFlags (r : Reading) : List Char → Except Request Reading
  | [] => .ok r
  | 's' :: flags =>
    match r.setSymbols with
    | .ok r => r.shortFlags flags
    | .error e => .error e
  | 'v' :: flags => r.shortFlags flags
  | 'V' :: _ => .error .version
  | 'h' :: _ => .error .help
  | ['c'] => .ok { r with awaited := some .check }
  | 'c' :: '=' :: value => .ok (r.addCheck value)
  | 'c' :: value => .ok (r.addCheck value)
  | _ :: _ => .error .usageError

/-- Reads an argument that is no option. -/
def plain (r : Reading) (text : List Char) : Except Request Reading :=
  match r.awaited with
  | some .validCoverage => r.withValid text
  | some .invalidCoverage => r.withInvalid text
  | some .check => .ok (r.addCheck text)
  | none =>
    if r.pattern.isSome then .error .usageError
    else .ok { r with pattern := some (String.ofList text) }

/-- The name of a long option, and the value after the first equals sign. -/
def splitValue (text : List Char) : String × Option (List Char) :=
  (String.ofList (text.takeWhile (· != '=')), (text.dropWhile (· != '=')).tail?)

/-- Reads one argument. -/
def step (r : Reading) (argument : String) : Except Request Reading := do
  if r.ended then r.plain argument.toList
  else
    match argument.toList with
    | ['-', '-'] => return { ← r.settle with ended := true }
    | '-' :: '-' :: text => (← r.settle).longOption (splitValue text).1 (splitValue text).2
    | '-' :: flag :: flags => (← r.settle).shortFlags (flag :: flags)
    | text => r.plain text

/-- What is asked for, when no more arguments come. -/
def finish (r : Reading) : Except Request Options := do
  let r ← r.settle
  match r.pattern with
  | none => throw .usageError
  | some pattern => return ⟨pattern, r.valid, r.invalid, r.symbols, r.count, r.checks.reverse⟩

end Reading

/-- Reads a command line. -/
def Request.ofArguments (arguments : List String) : Request :=
  match arguments.foldlM Reading.step Reading.start >>= Reading.finish with
  | .ok options => .run options
  | .error request => request

end SequenceConstraint.CommandLine
