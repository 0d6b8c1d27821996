import Mathlib.Data.List.TakeWhile
import SequenceConstraint.Proofs.Syntax.Delimiters

/-!
# The parentheses of a text

A scan from left to right tells the parentheses of a text without reading it: a backslash takes the
character after it away, and a bracket takes everything away up to the bracket that closes the
class. What is left are the parentheses that are read as tokens, whatever the escapes, intervals
and quantifiers between them take: none of these goes on over a parenthesis that the scan sees, and
a class ends for the reader where it ends for the scan.

## Main statements

* `parensFrom_readToken` — a token takes the parentheses that it is made of
* `Reads.parens_eq` — the parentheses of a text are those of its tokens
-/

namespace SequenceConstraint.Syntax

/-- A parenthesis in a text. -/
inductive Paren where
  /-- `marked` if a question mark follows. -/
  | opening (marked : Bool)
  | closing
deriving DecidableEq, Repr

/-- The parentheses of a text that are not escaped and do not stand in a class. The scan begins
behind a backslash, and in a class, or not. -/
def parensFrom (escaped inClass : Bool) : List Char → List Paren
  | [] => []
  | c :: cs =>
    if escaped then parensFrom false inClass cs
    else if c = '\\' then parensFrom true inClass cs
    else if inClass then parensFrom false (c != ']') cs
    else if c = '[' then parensFrom false true cs
    else if c = '(' then .opening (cs.head? == some '?') :: parensFrom false false cs
    else if c = ')' then .closing :: parensFrom false false cs
    else parensFrom false false cs

/-- The parentheses of a text. -/
def parens (cs : List Char) : List Paren := parensFrom false false cs

section Scan

variable {cs rest left front : List Char} {c d : Char} {inClass : Bool}

theorem parensFrom_backslash (inClass : Bool) (c : Char) (cs : List Char) :
    parensFrom false inClass ('\\' :: c :: cs) = parensFrom false inClass cs := by
  simp [parensFrom]

/-! ## Characters that a scan goes over -/

/-- Whether a scan goes over a character wherever it stands. -/
def Quiet (c : Char) : Prop := c ∉ ['\\', '[', ']', '(', ')']

instance (c : Char) : Decidable (Quiet c) := inferInstanceAs (Decidable (¬_))

theorem parensFrom_quiet (hc : Quiet c) (inClass : Bool) (cs : List Char) :
    parensFrom false inClass (c :: cs) = parensFrom false inClass cs := by
  simp only [Quiet, List.mem_cons, List.not_mem_nil, or_false, not_or] at hc
  have hend : (c != ']') = true := bne_iff_ne.2 hc.2.2.1
  cases inClass with
  | false => simp [parensFrom, hc]
  | true => simp [parensFrom, hc, hend]

theorem parensFrom_quiets (h : ∀ c ∈ front, Quiet c) (inClass : Bool) (cs : List Char) :
    parensFrom false inClass (front ++ cs) = parensFrom false inClass cs := by
  induction front with
  | nil => rfl
  | cons c front ih =>
    obtain ⟨hc, hfront⟩ := List.forall_mem_cons.1 h
    rw [List.cons_append, parensFrom_quiet hc, ih hfront]

theorem quiet_of_isDigit (h : d.isDigit = true) : Quiet d := by
  intro hmem
  have hnone : (['\\', '[', ']', '(', ')'].all fun c => !c.isDigit) = true := rfl
  have hd := List.all_eq_true.1 hnone d hmem
  rw [h] at hd
  cases hd

theorem quiet_of_hexDigit? (h : hexDigit? d ≠ none) : Quiet d := by
  intro hmem
  have hnone : (['\\', '[', ']', '(', ')'].all fun c => (hexDigit? c).isNone) = true := rfl
  exact h (Option.isNone_iff_eq_none.1 (List.all_eq_true.1 hnone d hmem))

theorem parensFrom_dropWhile_isDigit (inClass : Bool) (cs : List Char) :
    parensFrom false inClass (cs.dropWhile Char.isDigit) = parensFrom false inClass cs := by
  have hdigits : ∀ c ∈ cs.takeWhile Char.isDigit, Quiet c := fun c hc =>
    quiet_of_isDigit (List.mem_takeWhile_imp hc)
  rw [← parensFrom_quiets hdigits, List.takeWhile_append_dropWhile]

/-! ## Parts of tokens -/

theorem parensFrom_readHexOr (inClass : Bool) (letter : Char) (count : Nat) (cs : List Char) :
    parensFrom false inClass (readHexOr letter count cs).2 = parensFrom false inClass cs := by
  unfold readHexOr
  split
  · rename_i found rest h
    unfold readHex at h
    split at h
    · obtain ⟨c, hc, hrest⟩ := Option.map_eq_some_iff.1 h
      cases hrest
      -- all that is taken are digits of the number
      have hdigits : ∀ d ∈ cs.take count, Quiet d := by
        intro d hd
        refine quiet_of_hexDigit? fun hnone => ?_
        rw [hexValue?_eq_none hd hnone] at hc
        cases hc
      rw [← parensFrom_quiets hdigits, List.take_append_drop]
    · cases h
  · rfl

theorem parensFrom_readEscaped (inClass : Bool) (c : Char) (cs : List Char) :
    parensFrom false inClass (readEscaped c cs).2 = parensFrom false inClass cs := by
  unfold readEscaped
  split
  · rfl
  · split
    case h_7 => exact parensFrom_readHexOr _ _ _ _
    case h_8 => exact parensFrom_readHexOr _ _ _ _
    all_goals rfl

theorem parensFrom_readBounds {min : Nat} {max : Option Nat}
    (h : readBounds cs = some (min, max, left)) (inClass : Bool) :
    parensFrom false inClass left = parensFrom false inClass cs := by
  have hbrace : Quiet '}' := by decide
  have hcomma : Quiet ',' := by decide
  rw [← parensFrom_dropWhile_isDigit inClass cs]
  obtain ⟨-, ⟨hdrop, -⟩ | ⟨hdrop, -⟩ | ⟨more, m, hdrop, -, hmore, -⟩⟩ := readBounds_eq_some_iff.1 h
  · rw [hdrop, parensFrom_quiet hbrace]
  · rw [hdrop, parensFrom_quiet hcomma, parensFrom_quiet hbrace]
  · rw [hdrop, parensFrom_quiet hcomma, ← parensFrom_dropWhile_isDigit inClass more, hmore,
      parensFrom_quiet hbrace]

/-! ### Classes -/

/-- A character of a class, or an escape in it, does not end the class. -/
theorem parensFrom_readClassChar {e : Escaped} (hc : c ≠ ']')
    (h : readClassChar c rest = .ok (e, left)) :
    parensFrom false true (c :: rest) = parensFrom false true left := by
  unfold readClassChar at h
  split at h
  · rename_i hbackslash
    subst hbackslash
    split at h
    · cases h
    · cases h
      exact parensFrom_backslash _ _ _
    · rename_i d rest _
      have hescaped := parensFrom_readEscaped true d rest
      rw [Except.ok.inj h] at hescaped
      rw [hescaped, parensFrom_backslash]
  · rename_i hbackslash
    cases h
    have hend : (c != ']') = true := bne_iff_ne.2 hc
    simp [parensFrom, hbackslash, hend]

theorem intervalEnd?_eq_some_iff :
    intervalEnd? cs = some (d, rest) ↔ cs = '-' :: d :: rest ∧ d ≠ ']' := by
  unfold intervalEnd?
  split
  · split
    · simp only [reduceCtorEq, List.cons.injEq, true_and, false_iff]
      grind
    · simp only [Option.some.injEq, Prod.mk.injEq, List.cons.injEq, true_and]
      grind
  · grind

/-- **A class ends where the scan leaves it.** -/
theorem parensFrom_readMembers {members found : List ClassMember}
    (h : readMembers members cs = .ok (found, rest)) :
    parensFrom false true cs = parensFrom false false rest := by
  fun_induction readMembers members cs generalizing found rest
  all_goals first | contradiction | skip
  · cases h
    simp [parensFrom]
  · rename_i hc _ _ hlo ih
    rw [parensFrom_readClassChar hc hlo, ih h]
  · rename_i hc _ _ hlo _ ih
    rw [parensFrom_readClassChar hc hlo, ih h]
  · rename_i hc _ _ hlo _ _ hdash _ _ hhi _ ih
    obtain ⟨hleft, hd⟩ := intervalEnd?_eq_some_iff.1 hdash
    rw [parensFrom_readClassChar hc hlo, hleft, parensFrom_quiet (by decide),
      parensFrom_readClassChar hd hhi, ih h]
  · rename_i hc _ _ hlo _ _ hdash _ _ hhi ih
    obtain ⟨hleft, hd⟩ := intervalEnd?_eq_some_iff.1 hdash
    rw [parensFrom_readClassChar hc hlo, hleft, parensFrom_quiet (by decide),
      parensFrom_readClassChar hd hhi, ih h]

theorem parensFrom_readClass {k : CharClass} (h : readClass cs = .ok (k, rest)) :
    parensFrom false true cs = parensFrom false false rest := by
  unfold readClass at h
  cases hm : readMembers [] (if cs.head? == some '^' then cs.tail else cs) with
  | error e =>
    simp only [hm, Except.map] at h
    cases h
  | ok found =>
    simp only [hm, Except.map, Except.ok.injEq, Prod.mk.injEq] at h
    rw [← h.2, ← parensFrom_readMembers hm]
    split
    · rename_i hcaret
      obtain ⟨rest, rfl⟩ := List.head?_eq_some_iff.1 (beq_iff_eq.1 hcaret)
      exact parensFrom_quiet (by decide) _ _
    · rfl

/-! ## Tokens -/

/-- The parentheses that a token is made of. -/
def Token.parens : Token → List Paren
  | .opening kind => [.opening (kind != some .capture)]
  | .closing => [.closing]
  | _ => []

theorem parensFrom_readOpening (cs : List Char) :
    parensFrom false false ('(' :: cs) = .opening ((readOpening cs).1 != some .capture) ::
      parensFrom false false (readOpening cs).2 := by
  have hparen : parensFrom false false ('(' :: cs) =
      .opening (cs.head? == some '?') :: parensFrom false false cs := by simp [parensFrom]
  rw [hparen]
  unfold readOpening
  split
  case h_5 hmark =>
    have hhead : cs.head? ≠ some '?' := fun h => by
      obtain ⟨rest, rfl⟩ := List.head?_eq_some_iff.1 h
      exact hmark rest rfl
    simp [hhead]
  case h_4 => rw [parensFrom_quiet (by decide)]; rfl
  all_goals
    rw [parensFrom_quiet (by decide), parensFrom_quiet (by decide)]
    rfl

theorem ReadsEscape.parensFrom_eq {node : Node} (h : ReadsEscape cs node left) :
    parensFrom false false ('\\' :: cs) = parensFrom false false left := by
  cases h with
  | boundary => exact parensFrom_backslash _ _ _
  | inside => exact parensFrom_backslash _ _ _
  | backreference => rw [parensFrom_backslash, parensFrom_dropWhile_isDigit]
  | escaped => rw [parensFrom_backslash, parensFrom_readEscaped]

/-- **A token takes the parentheses that it is made of.** -/
theorem parensFrom_readToken {t : Token} (h : readToken c cs = .ok (t, left)) :
    parensFrom false false (c :: cs) = t.parens ++ parensFrom false false left := by
  cases readToken_eq_ok_iff.1 h with
  | opening => exact parensFrom_readOpening cs
  | closing => simp [parensFrom, Token.parens]
  | bounds h =>
    rw [parensFrom_quiet (by decide), ← parensFrom_readBounds h]
    rfl
  | charClass h =>
    show parensFrom false false ('[' :: cs) = parensFrom false false left
    rw [← parensFrom_readClass h]
    simp [parensFrom]
  | escape h => exact h.parensFrom_eq
  | char cs hspecial =>
    have hc : c ≠ '\\' ∧ c ≠ '[' ∧ c ≠ '(' ∧ c ≠ ')' := by
      refine ⟨?_, ?_, ?_, ?_⟩
      all_goals
        rintro rfl
        exact hspecial (by decide)
    simp [parensFrom, Token.parens, hc]
  | _ => exact parensFrom_quiet (by decide) _ _

end Scan

/-- **The parentheses of a text are those of its tokens.** -/
theorem Reads.parens_eq {cs : List Char} {ts : List Token} (h : Reads cs ts []) :
    parens cs = ts.flatMap Token.parens := by
  generalize hrest : ([] : List Char) = rest at h
  induction h with
  | done => subst hrest; rfl
  | token head _ ih => rw [List.flatMap_cons, ← ih hrest]; exact parensFrom_readToken head

end SequenceConstraint.Syntax
