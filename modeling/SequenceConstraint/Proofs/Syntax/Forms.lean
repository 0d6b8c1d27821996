import SequenceConstraint.Syntax.Parse

/-!
# Forms of tokens

Each token has its form: the character it begins with, and what has to follow. `ReadsToken` and
`ReadsEscape` list the forms, so what holds of all tokens is proved form by form, and how the reader
looks for them does not matter.

## Main statements

* `readToken_eq_ok_iff` — what is read as a token has one of the forms
* `suffix_readToken` — a token leaves a suffix of what follows it
-/

namespace SequenceConstraint.Syntax

/-! ## Forms -/

/-- What a backslash begins, outside brackets. -/
inductive ReadsEscape : List Char → Node → List Char → Prop where
  | boundary (rest : List Char) : ReadsEscape ('b' :: rest) (.anchor .wordBoundary) rest
  | inside (rest : List Char) : ReadsEscape ('B' :: rest) (.anchor .insideWord) rest
  | backreference {d : Char} (rest : List Char) (hdigit : d.isDigit = true) (hzero : d ≠ '0') :
      ReadsEscape (d :: rest)
        (.backreference (referenceIndex (d :: rest.takeWhile Char.isDigit)))
        (rest.dropWhile Char.isDigit)
  | escaped {c : Char} (rest : List Char) (hb : c ≠ 'b') (hB : c ≠ 'B')
      (hdigit : ¬(c.isDigit = true ∧ c ≠ '0')) :
      ReadsEscape (c :: rest) (readEscaped c rest).1.toNode (readEscaped c rest).2

/-- The characters that do not stand for themselves. -/
def special : List Char := ['|', ')', '(', '?', '*', '+', '{', '[', '\\', '.', '^', '$']

/-- What a character begins. -/
inductive ReadsToken : Char → List Char → Token → List Char → Prop where
  | bar (cs : List Char) : ReadsToken '|' cs .bar cs
  | closing (cs : List Char) : ReadsToken ')' cs .closing cs
  | opening (cs : List Char) : ReadsToken '(' cs (.opening (readOpening cs).1) (readOpening cs).2
  | questionMark (cs : List Char) : ReadsToken '?' cs .questionMark cs
  | star (cs : List Char) : ReadsToken '*' cs (.quantifier 0 none) cs
  | plus (cs : List Char) : ReadsToken '+' cs (.quantifier 1 none) cs
  | bounds {cs left : List Char} {min : Nat} {max : Option Nat}
      (h : readBounds cs = some (min, max, left)) (horder : ¬max.any (· < min)) :
      ReadsToken '{' cs (.quantifier min max) left
  | brace {cs : List Char} (h : readBounds cs = none) : ReadsToken '{' cs (.atom (.char '{')) cs
  | charClass {cs left : List Char} {k : CharClass} (h : readClass cs = .ok (k, left)) :
      ReadsToken '[' cs (.atom (.charClass k)) left
  | escape {cs left : List Char} {node : Node} (h : ReadsEscape cs node left) :
      ReadsToken '\\' cs (.atom node) left
  | anyChar (cs : List Char) : ReadsToken '.' cs (.atom (.charClass .notLineEnd)) cs
  | start (cs : List Char) : ReadsToken '^' cs (.atom (.anchor .start)) cs
  | finish (cs : List Char) : ReadsToken '$' cs (.atom (.anchor .finish)) cs
  | char {c : Char} (cs : List Char) (h : c ∉ special) : ReadsToken c cs (.atom (.char c)) cs

section Forms

variable {cs rest left : List Char} {c d : Char}

theorem readEscape_eq_ok_iff {node : Node} :
    readEscape cs = .ok (node, rest) ↔ ReadsEscape cs node rest := by
  constructor
  · intro h
    unfold readEscape at h
    split at h
    · cases h
    · rename_i c cs
      split at h
      · rename_i hb
        cases h
        subst hb
        exact .boundary _
      · rename_i hb
        split at h
        · rename_i hB
          cases h
          subst hB
          exact .inside _
        · rename_i hB
          split at h
          · rename_i hdigit
            cases h
            exact .backreference _ hdigit.1 hdigit.2
          · rename_i hdigit
            cases h
            exact .escaped _ hb hB hdigit
  · intro h
    cases h with
    | boundary => rfl
    | inside => rfl
    | @backreference d rest hdigit hzero =>
      have hb : d ≠ 'b' := by
        rintro rfl
        cases hdigit
      have hB : d ≠ 'B' := by
        rintro rfl
        cases hdigit
      rw [readEscape, if_neg hb, if_neg hB, if_pos ⟨hdigit, hzero⟩]
    | escaped _ hb hB hdigit => rw [readEscape, if_neg hb, if_neg hB, if_neg hdigit]

/-- **What is read as a token** has one of the forms. -/
theorem readToken_eq_ok_iff {t : Token} :
    readToken c cs = .ok (t, left) ↔ ReadsToken c cs t left := by
  constructor
  · intro h
    unfold readToken at h
    split at h
    case h_7 =>
      split at h
      · rename_i hb
        cases h
        exact .brace hb
      · rename_i hb
        split at h
        · cases h
        · rename_i horder
          cases h
          exact .bounds hb horder
    case h_8 =>
      cases hk : readClass cs with
      | error e =>
        rw [hk] at h
        cases h
      | ok found =>
        rw [hk] at h
        cases h
        exact .charClass hk
    case h_9 =>
      cases hk : readEscape cs with
      | error e =>
        rw [hk] at h
        cases h
      | ok found =>
        rw [hk] at h
        cases h
        exact .escape (readEscape_eq_ok_iff.1 hk)
    case h_13 =>
      cases h
      refine .char _ ?_
      simp only [special, List.mem_cons, List.not_mem_nil, or_false, not_or]
      simp_all
    all_goals
      cases h
      constructor
  · intro h
    cases h with
    | bounds h horder =>
      unfold readToken
      simp only [h, if_neg horder]
    | brace h =>
      unfold readToken
      simp only [h]
    | charClass h =>
      unfold readToken
      rw [h]
      rfl
    | escape h =>
      unfold readToken
      rw [readEscape_eq_ok_iff.2 h]
      rfl
    | char cs h =>
      unfold readToken
      split
      case h_13 => rfl
      all_goals exact absurd (by decide) h
    | _ => rfl

end Forms

/-! ## What readers leave -/

section Suffixes

variable {cs rest left : List Char} {c d : Char}

theorem suffix_readHexOr (letter : Char) (count : Nat) (cs : List Char) :
    (readHexOr letter count cs).2 <:+ cs := by
  unfold readHexOr
  split
  · rename_i found rest h
    unfold readHex at h
    split at h
    · obtain ⟨_, -, hrest⟩ := Option.map_eq_some_iff.1 h
      cases hrest
      exact List.drop_suffix _ _
    · cases h
  · exact List.suffix_rfl

theorem suffix_readEscaped (c : Char) (rest : List Char) : (readEscaped c rest).2 <:+ rest := by
  unfold readEscaped
  split
  · exact List.suffix_rfl
  · split
    case h_7 => exact suffix_readHexOr _ _ _
    case h_8 => exact suffix_readHexOr _ _ _
    all_goals exact List.suffix_rfl

theorem suffix_readClassChar {e : Escaped} (h : readClassChar c rest = .ok (e, left)) :
    left <:+ rest := by
  unfold readClassChar at h
  split at h
  · split at h
    · cases h
    · cases h
      exact List.suffix_cons _ _
    · rename_i d rest _
      have hsuffix := suffix_readEscaped d rest
      rw [Except.ok.inj h] at hsuffix
      exact hsuffix.trans (List.suffix_cons d rest)
  · cases h
    exact List.suffix_rfl

theorem suffix_intervalEnd? (h : intervalEnd? cs = some (d, rest)) : rest <:+ cs := by
  unfold intervalEnd? at h
  split at h
  · split at h
    · cases h
    · cases h
      exact (List.suffix_cons _ _).trans (List.suffix_cons _ _)
  · cases h

theorem suffix_readMembers {members found : List ClassMember}
    (h : readMembers members cs = .ok (found, rest)) : rest <:+ cs := by
  fun_induction readMembers members cs generalizing found rest
  all_goals first | contradiction | skip
  · cases h
    exact List.suffix_cons _ _
  · rename_i hchar ih
    exact (ih h).trans ((suffix_readClassChar hchar).trans (List.suffix_cons _ _))
  · rename_i hchar _ ih
    exact (ih h).trans ((suffix_readClassChar hchar).trans (List.suffix_cons _ _))
  · rename_i hlo _ _ hdash _ _ hhi _ ih
    have hleft := (suffix_readClassChar hhi).trans (suffix_intervalEnd? hdash)
    exact (ih h).trans (hleft.trans ((suffix_readClassChar hlo).trans (List.suffix_cons _ _)))
  · rename_i hlo _ _ hdash _ _ hhi ih
    have hleft := (suffix_readClassChar hhi).trans (suffix_intervalEnd? hdash)
    exact (ih h).trans (hleft.trans ((suffix_readClassChar hlo).trans (List.suffix_cons _ _)))

theorem suffix_readClass {k : CharClass} (h : readClass cs = .ok (k, rest)) : rest <:+ cs := by
  unfold readClass at h
  cases hm : readMembers [] (if cs.head? == some '^' then cs.tail else cs) with
  | error e =>
    simp only [hm, Except.map] at h
    cases h
  | ok found =>
    have hsuffix := suffix_readMembers hm
    simp only [hm, Except.map, Except.ok.injEq, Prod.mk.injEq] at h
    rw [← h.2]
    refine hsuffix.trans ?_
    split
    · exact List.tail_suffix cs
    · exact List.suffix_rfl

theorem suffix_readBounds {min : Nat} {max : Option Nat}
    (h : readBounds cs = some (min, max, rest)) : rest <:+ cs := by
  have hdrop : ∀ l : List Char, l.dropWhile Char.isDigit <:+ l :=
    fun _ => List.dropWhile_suffix _
  have hcs := hdrop cs
  unfold readBounds at h
  split at h
  · cases h
  · split at h
    · rename_i heq
      cases h
      rw [heq] at hcs
      exact (List.suffix_cons _ _).trans hcs
    · rename_i heq
      cases h
      rw [heq] at hcs
      exact (List.suffix_cons _ _).trans ((List.suffix_cons _ _).trans hcs)
    · rename_i more _ heq
      have hmore := hdrop more
      split at h
      · rename_i heq'
        cases h
        rw [heq] at hcs
        rw [heq'] at hmore
        exact (List.suffix_cons _ _).trans (hmore.trans ((List.suffix_cons _ _).trans hcs))
      · cases h
    · cases h

theorem suffix_readOpening (cs : List Char) : (readOpening cs).2 <:+ cs := by
  unfold readOpening
  split
  case h_4 => exact List.suffix_cons _ _
  case h_5 => exact List.suffix_rfl
  all_goals exact (List.suffix_cons _ _).trans (List.suffix_cons _ _)

theorem ReadsEscape.suffix {node : Node} (h : ReadsEscape cs node rest) : rest <:+ cs := by
  cases h with
  | boundary => exact List.suffix_cons _ _
  | inside => exact List.suffix_cons _ _
  | backreference => exact (List.dropWhile_suffix _).trans (List.suffix_cons _ _)
  | escaped => exact (suffix_readEscaped _ _).trans (List.suffix_cons _ _)

/-- **A token leaves a suffix of what follows it.** -/
theorem suffix_readToken {t : Token} (h : readToken c cs = .ok (t, left)) : left <:+ cs := by
  cases readToken_eq_ok_iff.1 h with
  | opening => exact suffix_readOpening _
  | bounds h => exact suffix_readBounds h
  | charClass h => exact suffix_readClass h
  | escape h => exact h.suffix
  | _ => exact List.suffix_rfl

end Suffixes

end SequenceConstraint.Syntax
