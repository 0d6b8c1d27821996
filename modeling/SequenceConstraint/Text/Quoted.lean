import SequenceConstraint.Text.Unprintable

/-!
# Quoted texts

A text between double quotes, in which quotes and backslashes are escaped, and characters that
cannot be seen are given by an escape of their own or by their code point.
-/

namespace SequenceConstraint.Text

/-- An escape by code point, `\u` and the hexadecimal digits in braces. -/
def codePointEscape (c : Char) : List Char :=
  ['\\', 'u', '{'] ++ Nat.toDigits 16 c.toNat ++ ['}']

def escape (c : Char) : List Char :=
  match c with
  | '\x00' => ['\\', '0']
  | '\t' => ['\\', 't']
  | '\r' => ['\\', 'r']
  | '\n' => ['\\', 'n']
  | '\\' => ['\\', '\\']
  | '"' => ['\\', '"']
  | c => if isUnprintable c then codePointEscape c else [c]

def quote (s : String) : String := String.ofList (['"'] ++ s.toList.flatMap escape ++ ['"'])

end SequenceConstraint.Text
