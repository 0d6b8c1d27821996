import SequenceConstraint.Proofs.Syntax.Forms

/-!
# Reading token by token

Some tokens are read from a text and leave the rest of it (`Reads`). Readings can be put one after
the other, and each token is read from a suffix of the text, so a character that the text lacks
begins no token. The tokens of a whole text are a reading that goes on until nothing is left, or up
to a fault (`exists_reads`).

## Main statements

* `exists_reads` — the tokens of a text, and why there are no more
* `parse_eq_ok_iff` — the tokens that a tree is arranged from
-/

namespace SequenceConstraint.Syntax

/-! ## Readings -/

/-- Some tokens are read from a text and leave the rest of it. -/
inductive Reads : List Char → List Token → List Char → Prop where
  | done (rest : List Char) : Reads rest [] rest
  | token {c : Char} {cs left rest : List Char} {t : Token} {ts : List Token}
    (head : readToken c cs = .ok (t, left)) (tail : Reads left ts rest) :
    Reads (c :: cs) (t :: ts) rest

namespace Reads

variable {cs mid rest : List Char} {ts us : List Token}

theorem append (h : Reads cs ts mid) (h' : Reads mid us rest) : Reads cs (ts ++ us) rest := by
  induction h with
  | done => exact h'
  | token head _ ih => exact .token head (ih h')

/-- Each token is read somewhere in the text. -/
theorem exists_readToken (h : Reads cs ts rest) {t : Token} (ht : t ∈ ts) :
    ∃ c more left, c :: more <:+ cs ∧ readToken c more = .ok (t, left) := by
  induction h with
  | done => cases ht
  | @token c cs left rest t' ts head tail ih =>
    rcases List.mem_cons.1 ht with rfl | ht
    · exact ⟨c, cs, left, List.suffix_rfl, head⟩
    · obtain ⟨d, more, left', hsuffix, hread⟩ := ih ht
      exact ⟨d, more, left', hsuffix.trans ((suffix_readToken head).trans (List.suffix_cons c cs)),
        hread⟩

end Reads

/-! ## Steps that may fail -/

section Steps

variable {α β ε : Type} {f : α → β → Except ε α} {b : β} {bs cs : List β} {a a' : α}

theorem foldlM_cons_eq_ok_iff :
    (b :: bs).foldlM f a = .ok a' ↔ ∃ a₁, f a b = .ok a₁ ∧ bs.foldlM f a₁ = .ok a' := by
  rw [List.foldlM_cons]
  cases f a b with
  | error e => simp [bind, Except.bind]
  | ok a₁ => simp [bind, Except.bind]

theorem foldlM_append_eq_ok_iff :
    (bs ++ cs).foldlM f a = .ok a' ↔ ∃ a₁, bs.foldlM f a = .ok a₁ ∧ cs.foldlM f a₁ = .ok a' := by
  rw [List.foldlM_append]
  cases bs.foldlM f a with
  | error e => simp [bind, Except.bind]
  | ok a₁ => simp [bind, Except.bind]

/-- What every step keeps, all steps keep. -/
theorem foldlM_keeps {P : α → Prop} (hstep : ∀ b ∈ bs, ∀ a a', P a → f a b = .ok a' → P a')
    (ha : P a) (h : bs.foldlM f a = .ok a') : P a' := by
  induction bs generalizing a with
  | nil =>
    cases h
    exact ha
  | cons b bs ih =>
    obtain ⟨hb, hbs⟩ := List.forall_mem_cons.1 hstep
    obtain ⟨a₁, hfirst, hrest⟩ := foldlM_cons_eq_ok_iff.1 h
    exact ih hbs (hb a a₁ ha hfirst) hrest

end Steps

/-! ## All tokens of a text -/

theorem readTokens_cons {c : Char} {rest left : List Char} {token : Token} (found : List Token)
    (h : readToken c rest = .ok (token, left)) :
    readTokens found (c :: rest) = readTokens (token :: found) left := by
  rw [readTokens]
  split
  · rename_i e he
    rw [h] at he
    cases he
  · rename_i token' left' he
    rw [h] at he
    cases he
    rfl

/-- **The tokens of a text** are read until nothing is left, or until a token cannot be read. They
are the same whatever has been read before. -/
theorem exists_reads (cs : List Char) :
    ∃ ts rest fault, (∀ found, readTokens found cs = ⟨found.reverse ++ ts, fault⟩) ∧
      Reads cs ts rest ∧ (fault = none → rest = []) := by
  induction ([] : List Token), cs using readTokens.induct with
  | case1 found =>
    refine ⟨[], [], none, fun found => ?_, .done [], fun _ => rfl⟩
    rw [readTokens, List.append_nil]
  | case2 found c rest e he =>
    refine ⟨[], c :: rest, some e, fun found => ?_, .done _, nofun⟩
    rw [readTokens, List.append_nil]
    split
    · rename_i e' he'
      rw [he] at he'
      cases he'
      rfl
    · rename_i htoken
      rw [he] at htoken
      cases htoken
  | case3 found c rest token left htoken ih =>
    obtain ⟨ts, rest', fault, heq, hreads, hfault⟩ := ih
    refine ⟨token :: ts, rest', fault, fun found => ?_, .token htoken hreads, hfault⟩
    rw [readTokens_cons found htoken, heq, List.reverse_cons, List.append_assoc]
    rfl

/-- **A reading that leaves nothing** gives the tokens of the text. -/
theorem Reads.readTokens {cs : List Char} {ts : List Token} (h : Reads cs ts [])
    (found : List Token) : readTokens found cs = ⟨found.reverse ++ ts, none⟩ := by
  generalize hrest : ([] : List Char) = rest at h
  induction h generalizing found with
  | done =>
    subst hrest
    rw [Syntax.readTokens, List.append_nil]
  | @token c cs left rest t ts head tail ih =>
    rw [readTokens_cons found head, ih (t :: found) hrest, List.reverse_cons, List.append_assoc]
    rfl

/-- **What a tree is arranged from:** tokens that leave nothing, and no group is left open. -/
theorem parse_eq_ok_iff {pattern : String} {t : Tree} :
    Tree.parse pattern = .ok t ↔
      ∃ ts a, Reads pattern.toList ts [] ∧ ts.foldlM Arrangement.step .start = .ok a ∧
        a.outer = [] ∧ t = ⟨a.level.finish, a.captures⟩ := by
  unfold Tree.parse TokenList.arrange
  constructor
  · intro h
    obtain ⟨ts, rest, fault, htokens, hreads, hrest⟩ := exists_reads pattern.toList
    rw [htokens []] at h
    simp only [List.reverse_nil, List.nil_append] at h
    cases hfold : ts.foldlM Arrangement.step .start with
    | error e =>
      rw [hfold] at h
      cases h
    | ok a =>
      rw [hfold] at h
      cases fault with
      | some e => cases h
      | none =>
        obtain rfl := hrest rfl
        refine ⟨ts, a, hreads, hfold, ?_⟩
        unfold Arrangement.finish at h
        cases houter : a.outer with
        | nil =>
          simp only [houter, List.isEmpty_nil, if_true, Except.ok.injEq] at h
          exact ⟨rfl, h.symm⟩
        | cons group outer => simp [houter] at h
  · rintro ⟨ts, a, hreads, hfold, houter, rfl⟩
    rw [hreads.readTokens]
    simp [hfold, Arrangement.finish, houter]

/-- An error names the text that could not be read. -/
theorem pattern_of_parse_error {pattern : String} {e : ParseError}
    (h : Tree.parse pattern = .error e) : e.pattern = pattern := by
  unfold Tree.parse at h
  split at h
  · cases h
  · cases h
    rfl

end SequenceConstraint.Syntax
