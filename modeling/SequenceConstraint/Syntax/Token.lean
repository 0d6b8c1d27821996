import SequenceConstraint.Syntax.Bracket
import SequenceConstraint.Syntax.Tree

/-!
# Tokens of a pattern

A token is the smallest part of a pattern whose reading does not depend on what stands before it:
a node without parts, a quantifier, a parenthesis with its mark, a bar. Reading goes on until the
text ends or a token cannot be read; that fault is kept beside the tokens before it, because an
error in their arrangement comes first.

## Termination

Each token takes a character itself and leaves no more than followed it (`length_readToken`).
-/

namespace SequenceConstraint.Syntax

/-- What kind of group an opening parenthesis begins. Capturing groups are numbered later. -/
inductive Opening where
  | capture
  | plain
  | lookahead (negative : Bool)
deriving DecidableEq, Repr

inductive Token where
  | atom (node : Node)
  /-- Any quantifier but the question mark, which may follow another quantifier. -/
  | quantifier (min : Nat) (max : Option Nat)
  | questionMark
  /-- An opening parenthesis; none if the mark after its question mark is unknown. -/
  | opening (kind : Option Opening)
  | closing
  | bar

/-! ## Parts of tokens -/

/-- Reads the bounds of a quantifier in braces, `{n}`, `{n,}` or `{n,m}`, after the brace. -/
def readBounds (cs : List Char) : Option (Nat × Option Nat × List Char) :=
  match number? (cs.takeWhile Char.isDigit) with
  | none => none
  | some min =>
    match cs.dropWhile Char.isDigit with
    | '}' :: rest => some (min, some min, rest)
    | ',' :: '}' :: rest => some (min, none, rest)
    | ',' :: more =>
      match number? (more.takeWhile Char.isDigit), more.dropWhile Char.isDigit with
      | some max, '}' :: rest => some (min, some max, rest)
      | _, _ => none
    | _ => none

theorem length_readBounds {cs rest : List Char} {min : Nat} {max : Option Nat}
    (h : readBounds cs = some (min, max, rest)) : rest.length ≤ cs.length := by
  have hdrop : ∀ l : List Char, (l.dropWhile Char.isDigit).length ≤ l.length := fun l =>
    (List.dropWhile_sublist _).length_le
  have hcs := hdrop cs
  unfold readBounds at h
  split at h
  · cases h
  · split at h
    · rename_i heq
      cases h
      rw [heq] at hcs
      simp only [List.length_cons] at hcs
      omega
    · rename_i heq
      cases h
      rw [heq] at hcs
      simp only [List.length_cons] at hcs
      omega
    · rename_i more _ heq
      have hmore := hdrop more
      split at h
      · rename_i heq'
        cases h
        rw [heq] at hcs
        rw [heq'] at hmore
        simp only [List.length_cons] at hcs hmore
        omega
      · cases h
    · cases h

/-- Reads the mark of a group after its parenthesis. -/
def readOpening : List Char → Option Opening × List Char
  | '?' :: ':' :: rest => (some .plain, rest)
  | '?' :: '=' :: rest => (some (.lookahead false), rest)
  | '?' :: '!' :: rest => (some (.lookahead true), rest)
  | '?' :: rest => (none, rest)
  | rest => (some .capture, rest)

theorem length_readOpening (cs : List Char) : (readOpening cs).2.length ≤ cs.length := by
  unfold readOpening
  split <;> simp only [List.length_cons] <;> omega

def Escaped.toNode : Escaped → Node
  | .char c => .char c
  | .shorthand k => .charClass k

/-- The index of a backreference; an index too large to be read is the largest there is. -/
def referenceIndex (digits : List Char) : Nat := (number? digits).getD (numberLimit - 1)

/-- Reads what a backslash begins, outside brackets. -/
def readEscape : List Char → Except ParseErrorKind (Node × List Char)
  | [] => .error .trailingBackslash
  | c :: rest =>
    if c = 'b' then .ok (.anchor .wordBoundary, rest)
    else if c = 'B' then .ok (.anchor .insideWord, rest)
    else if c.isDigit ∧ c ≠ '0' then
      .ok (.backreference (referenceIndex (c :: rest.takeWhile Char.isDigit)),
        rest.dropWhile Char.isDigit)
    else .ok ((readEscaped c rest).1.toNode, (readEscaped c rest).2)

theorem length_readEscape {cs rest : List Char} {node : Node}
    (h : readEscape cs = .ok (node, rest)) : rest.length < cs.length := by
  unfold readEscape at h
  split at h
  · cases h
  · rename_i c cs
    simp only [List.length_cons, Nat.lt_succ_iff]
    split at h
    · cases h
      exact Nat.le_refl _
    · split at h
      · cases h
        exact Nat.le_refl _
      · split at h
        · cases h
          exact (List.dropWhile_sublist _).length_le
        · cases h
          exact length_readEscaped _ _

/-! ## One token -/

/-- Reads the token that begins with the character `c`. -/
def readToken (c : Char) (rest : List Char) : Except ParseErrorKind (Token × List Char) :=
  match c with
  | '|' => .ok (.bar, rest)
  | ')' => .ok (.closing, rest)
  | '(' => .ok (.opening (readOpening rest).1, (readOpening rest).2)
  | '?' => .ok (.questionMark, rest)
  | '*' => .ok (.quantifier 0 none, rest)
  | '+' => .ok (.quantifier 1 none, rest)
  | '{' =>
    match readBounds rest with
    | none => .ok (.atom (.char '{'), rest)
    | some (min, max, left) =>
      if max.any (· < min) then .error .quantifierOutOfOrder
      else .ok (.quantifier min max, left)
  | '[' => (readClass rest).map fun (k, left) => (.atom (.charClass k), left)
  | '\\' => (readEscape rest).map fun (node, left) => (.atom node, left)
  | '.' => .ok (.atom (.charClass .notLineEnd), rest)
  | '^' => .ok (.atom (.anchor .start), rest)
  | '$' => .ok (.atom (.anchor .finish), rest)
  | other => .ok (.atom (.char other), rest)

theorem length_readToken {c : Char} {cs rest : List Char} {token : Token}
    (h : readToken c cs = .ok (token, rest)) : rest.length ≤ cs.length := by
  unfold readToken at h
  split at h
  case h_3 =>
    cases h
    exact length_readOpening _
  case h_7 =>
    split at h
    · cases h
      exact Nat.le_refl _
    · rename_i heq
      split at h
      · cases h
      · cases h
        exact length_readBounds heq
  case h_8 =>
    cases hk : readClass cs with
    | error e =>
      rw [hk] at h
      cases h
    | ok found =>
      rw [hk] at h
      cases h
      exact Nat.le_of_lt (length_readClass hk)
  case h_9 =>
    cases hk : readEscape cs with
    | error e =>
      rw [hk] at h
      cases h
    | ok found =>
      rw [hk] at h
      cases h
      exact Nat.le_of_lt (length_readEscape hk)
  all_goals
    cases h
    exact Nat.le_refl _

/-! ## All tokens -/

/-- The tokens of a text up to its end or its first fault. -/
structure TokenList where
  tokens : List Token
  fault : Option ParseErrorKind

/-- Reads the tokens of a text; `found` are those read before, latest first. -/
def readTokens (found : List Token) : List Char → TokenList
  | [] => ⟨found.reverse, none⟩
  | c :: rest =>
    match _h : readToken c rest with
    | .error e => ⟨found.reverse, some e⟩
    | .ok (token, left) => readTokens (token :: found) left
termination_by cs => cs.length
decreasing_by
  have := length_readToken _h
  simp only [List.length_cons]
  omega

end SequenceConstraint.Syntax
