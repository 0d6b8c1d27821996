import SequenceConstraint.Syntax.CharClass

/-!
# Numbers and escapes in the text of a pattern

Each reader takes the characters that follow and gives back what it read together with the rest.
A number that does not fit 64 bits, and a hexadecimal escape that is cut short or names no
character, are not errors: they are read as the plain characters they are made of.
-/

namespace SequenceConstraint.Syntax

/-! ## Numbers -/

/-- Numbers from here on are too large to be read. -/
def numberLimit : Nat := Nat.pow 2 64

def decimalValue (digits : List Char) : Nat :=
  digits.foldl (fun n d => 10 * n + (d.toNat - '0'.toNat)) 0

/-- The number that a run of digits spells, if there are digits and it is below the limit. -/
def number? (digits : List Char) : Option Nat :=
  if digits.isEmpty then none
  else if decimalValue digits < numberLimit then some (decimalValue digits)
  else none

/-! ## Hexadecimal escapes -/

def hexDigit? (c : Char) : Option Nat :=
  if c.isDigit then some (c.toNat - '0'.toNat)
  else if 'a' ≤ c ∧ c ≤ 'f' then some (c.toNat - 'a'.toNat + 10)
  else if 'A' ≤ c ∧ c ≤ 'F' then some (c.toNat - 'A'.toNat + 10)
  else none

def hexValue? (digits : List Char) : Option Nat :=
  digits.foldlM (fun n d => (hexDigit? d).map (16 * n + ·)) 0

/-- Reads a character given by exactly `count` hexadecimal digits. -/
def readHex (count : Nat) (cs : List Char) : Option (Char × List Char) :=
  if (cs.take count).length = count then
    ((hexValue? (cs.take count)).bind Charset.ofCodePoint?).map fun c => (c, cs.drop count)
  else none

theorem length_readHex {count : Nat} {cs rest : List Char} {c : Char}
    (h : readHex count cs = some (c, rest)) : rest.length ≤ cs.length := by
  unfold readHex at h
  split at h
  · obtain ⟨d, -, hd⟩ := Option.map_eq_some_iff.1 h
    cases hd
    simp
  · exact absurd h (by simp)

/-! ## Escapes -/

/-- What a backslash and the characters after it stand for, within brackets or without. -/
inductive Escaped where
  | char (c : Char)
  | shorthand (k : CharClass)

/-- Reads a hexadecimal escape, or the letter itself if no such escape follows. -/
def readHexOr (letter : Char) (count : Nat) (cs : List Char) : Escaped × List Char :=
  match readHex count cs with
  | some (c, rest) => (.char c, rest)
  | none => (.char letter, cs)

/-- Reads an escape that begins with the character `c`. -/
def readEscaped (c : Char) (rest : List Char) : Escaped × List Char :=
  match CharClass.shorthand? c with
  | some k => (.shorthand k, rest)
  | none =>
    match c with
    | 'n' => (.char '\n', rest)
    | 't' => (.char '\t', rest)
    | 'r' => (.char '\r', rest)
    | 'f' => (.char '\x0c', rest)
    | 'v' => (.char '\x0b', rest)
    | '0' => (.char '\x00', rest)
    | 'x' => readHexOr 'x' 2 rest
    | 'u' => readHexOr 'u' 4 rest
    | other => (.char other, rest)

theorem length_readHexOr (letter : Char) (count : Nat) (cs : List Char) :
    (readHexOr letter count cs).2.length ≤ cs.length := by
  unfold readHexOr
  split
  · rename_i h
    exact length_readHex h
  · exact Nat.le_refl _

theorem length_readEscaped (c : Char) (rest : List Char) :
    (readEscaped c rest).2.length ≤ rest.length := by
  unfold readEscaped
  split
  · exact Nat.le_refl _
  · split <;> first | exact Nat.le_refl _ | exact length_readHexOr _ _ _

end SequenceConstraint.Syntax
