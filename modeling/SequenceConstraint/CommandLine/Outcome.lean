import SequenceConstraint.CommandLine.Options
import SequenceConstraint.Text.Quoted

/-!
# Running a command line

What the program prints and how it ends, as a value. The parts of the output come in a fixed order:
symbols, count, valid sequences, invalid sequences, checks. A part that fails ends the program;
what has been printed before stays.
-/

namespace SequenceConstraint.CommandLine

/-- What is written to the two outputs, and the exit code. -/
structure Outcome where
  code : Nat
  output : String
  errors : String
deriving DecidableEq, Repr

/-! ## Parts of the output -/

/-- A part of the output, worked out when the parts before it have been printed. -/
abbrev Part := Unit → Except PatternError (List String)

def checkLine (p : Pattern) (sequence : String) : Except PatternError (List String) :=
  (p.check sequence).map fun accepted =>
    [sequence ++ ": " ++ (if accepted then "valid" else "invalid")]

namespace Options

/-- Whether anything is asked for beside the pattern itself. -/
def asksForMore (o : Options) : Bool :=
  o.valid.isSome || o.invalid.isSome || o.symbols || o.count || !o.checks.isEmpty

/-- The coverage of the valid sequences to print; they are printed if nothing is asked for. -/
def validCoverage? (o : Options) : Option Nat :=
  if o.asksForMore then o.valid else some Pattern.defaultValidCoverage

/-- The parts of the output for a compiled pattern, in order. -/
def parts (o : Options) (p : Pattern) : List Part :=
  let symbols : Part := fun _ => .ok [String.intercalate " " p.symbols]
  let count : Part := fun _ => p.languageSize.map fun n => [n.toText]
  let valid (n : Nat) : Part := fun _ => p.validSequences n
  let invalid (n : Nat) : Part := fun _ => p.invalidSequences n
  let check (sequence : String) : Part := fun _ => checkLine p sequence
  (if o.symbols then [symbols] else []) ++ (if o.count then [count] else []) ++
    o.validCoverage?.toList.map valid ++ o.invalid.toList.map invalid ++ o.checks.map check

end Options

/-- Each line with the end of the line. -/
def unlines (lines : List String) : String := String.join (lines.map (· ++ "\n"))

/-- Works out parts up to the first that fails; `printed` is what was printed before. -/
def Outcome.ofParts (printed : String) : List Part → Outcome
  | [] => ⟨0, printed, ""⟩
  | part :: parts =>
    match part () with
    | .ok lines => ofParts (printed ++ unlines lines) parts
    | .error e => ⟨1, printed, "Error: " ++ e.message ++ "\n"⟩

/-! ## The program -/

/-- The lines of a text, each indented. -/
def indent (text : String) : String :=
  String.intercalate "\n" ((text.toList.splitOnP (· == '\n')).map fun line =>
    "    " ++ String.ofList line)

/-- A pattern that cannot be compiled. -/
def compileFailure (pattern : String) (e : PatternError) : String :=
  "Error: Failed to compile " ++ Text.quote pattern ++ "\n\nCaused by:\n" ++ indent e.message ++
    "\n"

def versionText : String := "sci 0.1.0\n"

def usageText : String := "Usage: sci [OPTIONS] <PATTERN>\n"

def helpText : String :=
  unlines [
      "Compiler and sequence generator for SCI (Sequence Constraint on the Interactions) patterns.",
      ""] ++
    usageText ++
    unlines [
      "",
      "Arguments:",
      "  <PATTERN>  SCI pattern, e.g. \"O.(S|M).C\"",
      "",
      "Options:",
      "      --valid [<N>]    Print accepted sequences up to N symbols beyond the shortest",
      "      --invalid [<N>]  Print rejected symbol combinations of at most N symbols",
      "  -s, --symbols        Print the interaction symbols",
      "      --count          Print the number of sequences the pattern denotes",
      "  -c, --check <SEQ>    Test a sequence for membership (repeatable)",
      "  -v, --verbose...     Increase log verbosity (-v, -vv, -vvv)",
      "  -h, --help           Print help",
      "  -V, --version        Print version"]

def Options.run (o : Options) : Outcome :=
  match Pattern.compile o.pattern with
  | .error e => ⟨1, "", compileFailure o.pattern e⟩
  | .ok p => .ofParts "" (o.parts p)

def Request.outcome : Request → Outcome
  | .run options => options.run
  | .version => ⟨0, versionText, ""⟩
  | .help => ⟨0, helpText, ""⟩
  | .usageError => ⟨2, "", "error: invalid arguments\n\n" ++ usageText⟩

/-- What the program does with its arguments. -/
def run (arguments : List String) : Outcome := (Request.ofArguments arguments).outcome

end SequenceConstraint.CommandLine
