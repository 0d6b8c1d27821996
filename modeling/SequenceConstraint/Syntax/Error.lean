/-!
# Errors in the text of a pattern
-/

namespace SequenceConstraint

/-- What is wrong with the text of a pattern. -/
inductive ParseErrorKind where
  | unterminatedGroup
  | unmatchedParen
  | nothingToRepeat
  | unterminatedClass
  | trailingBackslash
  | invalidGroup
  | quantifierOutOfOrder
  | rangeOutOfOrder
  | tooDeep
  /-- For readers of patterns other than the one of this library. -/
  | other (message : String)
deriving DecidableEq, Repr

def ParseErrorKind.message : ParseErrorKind → String
  | .unterminatedGroup => "Unterminated group"
  | .unmatchedParen => "Unmatched ')'"
  | .nothingToRepeat => "Nothing to repeat"
  | .unterminatedClass => "Unterminated character class"
  | .trailingBackslash => "\\ at end of pattern"
  | .invalidGroup => "Invalid group"
  | .quantifierOutOfOrder => "numbers out of order in \x7b\x7d quantifier"
  | .rangeOutOfOrder => "Range out of order in character class"
  | .tooDeep => "Groups nested too deeply"
  | .other message => message

/-- A text that is no pattern, and why. -/
structure ParseError where
  pattern : String
  kind : ParseErrorKind
deriving DecidableEq, Repr

def ParseError.message (e : ParseError) : String :=
  "Invalid regular expression: /" ++ e.pattern ++ "/: " ++ e.kind.message

end SequenceConstraint
