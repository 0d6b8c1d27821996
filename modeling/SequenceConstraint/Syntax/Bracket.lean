import SequenceConstraint.Syntax.Error
import SequenceConstraint.Syntax.Escape

/-!
# Reading a bracketed class

The opening bracket has been read. A caret right after it negates the class; the first closing
bracket that is not escaped ends it, so `[]` is the empty class. A dash between two characters
makes an interval, unless it stands right before the closing bracket.

## Termination

`readMembers` goes on with what its readers leave over, which is never longer than what they were
given (`length_readClassChar`), and it has taken a character itself.
-/

namespace SequenceConstraint.Syntax

def Escaped.toMember : Escaped → ClassMember
  | .char c => .char c
  | .shorthand k => .nested k.negated k.members

/-- Reads a character of a class, or an escape. Within brackets `\b` is the backspace. -/
def readClassChar (c : Char) (rest : List Char) : Except ParseErrorKind (Escaped × List Char) :=
  if c = '\\' then
    match rest with
    | [] => .error .trailingBackslash
    | 'b' :: rest => .ok (.char '\x08', rest)
    | d :: rest => .ok (readEscaped d rest)
  else .ok (.char c, rest)

theorem length_readClassChar {c : Char} {rest left : List Char} {e : Escaped}
    (h : readClassChar c rest = .ok (e, left)) : left.length ≤ rest.length := by
  unfold readClassChar at h
  split at h
  · split at h
    · cases h
    · cases h
      simp
    · rename_i d rest _
      injection h with h
      have hle : (readEscaped d rest).2.length ≤ rest.length := length_readEscaped d rest
      rw [h] at hle
      exact Nat.le_succ_of_le hle
  · cases h
    exact Nat.le_refl _

/-- The upper end that a dash introduces: its first character, and what follows that. There is none
where the dash ends the class or the text. -/
def intervalEnd? : List Char → Option (Char × List Char)
  | '-' :: d :: rest => if d = ']' then none else some (d, rest)
  | _ => none

theorem length_intervalEnd? {cs rest : List Char} {d : Char}
    (h : intervalEnd? cs = some (d, rest)) : rest.length < cs.length := by
  unfold intervalEnd? at h
  split at h
  · split at h
    · cases h
    · cases h
      simp only [List.length_cons]
      omega
  · cases h

/-- Reads the members of a class up to the closing bracket; `members` are those read before,
latest first. -/
def readMembers (members : List ClassMember) :
    List Char → Except ParseErrorKind (List ClassMember × List Char)
  | [] => .error .unterminatedClass
  | c :: rest =>
    if c = ']' then .ok (members.reverse, rest)
    else
      match _h : readClassChar c rest with
      | .error e => .error e
      | .ok (.shorthand k, left) => readMembers (Escaped.toMember (.shorthand k) :: members) left
      | .ok (.char lo, left) =>
        match _hd : intervalEnd? left with
        | none => readMembers (.char lo :: members) left
        | some (d, after) =>
          match _he : readClassChar d after with
          | .error e => .error e
          | .ok (.char hi, left) =>
            if hi < lo then .error .rangeOutOfOrder
            else readMembers (.interval lo hi :: members) left
          | .ok (.shorthand k, left) =>
            readMembers (Escaped.toMember (.shorthand k) :: .char '-' :: .char lo :: members) left
termination_by cs => cs.length
decreasing_by
  all_goals
    have := length_readClassChar _h
    simp only [List.length_cons]
  · omega
  · omega
  · have := length_intervalEnd? _hd
    have := length_readClassChar _he
    omega
  · have := length_intervalEnd? _hd
    have := length_readClassChar _he
    omega

theorem length_readMembers {members found : List ClassMember} {cs rest : List Char}
    (h : readMembers members cs = .ok (found, rest)) : rest.length < cs.length := by
  fun_induction readMembers members cs generalizing found rest
  all_goals first | contradiction | skip
  · cases h
    simp
  · rename_i ih
    have := length_readClassChar (by assumption)
    have := ih h
    simp only [List.length_cons]
    omega
  · rename_i ih
    have := length_readClassChar (by assumption)
    have := ih h
    simp only [List.length_cons]
    omega
  · rename_i h₁ _ _ h₂ _ _ h₃ _ ih
    have := length_readClassChar h₁
    have := length_intervalEnd? h₂
    have := length_readClassChar h₃
    have := ih h
    simp only [List.length_cons]
    omega
  · rename_i h₁ _ _ h₂ _ _ h₃ ih
    have := length_readClassChar h₁
    have := length_intervalEnd? h₂
    have := length_readClassChar h₃
    have := ih h
    simp only [List.length_cons]
    omega

/-- Reads a class: the caret that negates it, if there is one, and the members. -/
def readClass (cs : List Char) : Except ParseErrorKind (CharClass × List Char) :=
  let negated := cs.head? == some '^'
  (readMembers [] (if negated then cs.tail else cs)).map fun (members, left) =>
    (⟨negated, members⟩, left)

theorem length_readClass {cs rest : List Char} {k : CharClass}
    (h : readClass cs = .ok (k, rest)) : rest.length < cs.length := by
  unfold readClass at h
  cases hm : readMembers [] (if cs.head? == some '^' then cs.tail else cs) with
  | error e =>
    simp only [hm, Except.map] at h
    cases h
  | ok found =>
    have hlt := length_readMembers hm
    have hle : (if cs.head? == some '^' then cs.tail else cs).length ≤ cs.length := by
      split <;> simp
    simp only [hm, Except.map, Except.ok.injEq, Prod.mk.injEq] at h
    rw [← h.2]
    omega

end SequenceConstraint.Syntax
