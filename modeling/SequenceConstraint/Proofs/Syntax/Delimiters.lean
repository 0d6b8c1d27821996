import SequenceConstraint.Proofs.Syntax.Reads

/-!
# Texts before a bar or a closing parenthesis

What follows a text can change how it is read: digits go on, a bracket that was missing comes. A
bar or a closing parenthesis does not, as long as the text can be read by itself. None of the
readers that look ahead goes on with one of them, and a class that has been closed stays closed.

## Main statements

* `readToken_append` — a token that is read stays as it is before a delimiter
* `Reads.before` — so do all tokens of a text
-/

namespace SequenceConstraint.Syntax

/-- Whether a character ends a branch. -/
def Delimiter (d : Char) : Prop := d = '|' ∨ d = ')'

namespace Delimiter

variable {d : Char}

theorem not_isDigit (h : Delimiter d) : d.isDigit = false := by
  rcases h with rfl | rfl <;> rfl

theorem hexDigit?_eq_none (h : Delimiter d) : hexDigit? d = none := by
  rcases h with rfl | rfl <;> rfl

theorem ne (h : Delimiter d) {c : Char} (hbar : '|' ≠ c) (hclosing : ')' ≠ c) : d ≠ c := by
  rcases h with rfl | rfl
  · exact hbar
  · exact hclosing

end Delimiter

section Append

variable {cs rest left u : List Char} {c d : Char}

/-! ## Numbers -/

theorem takeWhile_isDigit_append (hd : Delimiter d) (cs u : List Char) :
    (cs ++ d :: u).takeWhile Char.isDigit = cs.takeWhile Char.isDigit := by
  induction cs with
  | nil => simp [hd.not_isDigit]
  | cons c cs ih => simp only [List.cons_append, List.takeWhile_cons, ih]

theorem dropWhile_isDigit_append (hd : Delimiter d) (cs u : List Char) :
    (cs ++ d :: u).dropWhile Char.isDigit = cs.dropWhile Char.isDigit ++ d :: u := by
  induction cs with
  | nil => simp [hd.not_isDigit]
  | cons c cs ih =>
    simp only [List.cons_append, List.dropWhile_cons, ih]
    split
    · rfl
    · rfl

/-- The bounds of a quantifier in braces, one form after the other. -/
theorem readBounds_eq_some_iff {min : Nat} {max : Option Nat} :
    readBounds cs = some (min, max, rest) ↔
      number? (cs.takeWhile Char.isDigit) = some min ∧
        ((cs.dropWhile Char.isDigit = '}' :: rest ∧ max = some min) ∨
          (cs.dropWhile Char.isDigit = ',' :: '}' :: rest ∧ max = none) ∨
          ∃ more m, cs.dropWhile Char.isDigit = ',' :: more ∧
            number? (more.takeWhile Char.isDigit) = some m ∧
            more.dropWhile Char.isDigit = '}' :: rest ∧ max = some m) := by
  unfold readBounds
  cases number? (cs.takeWhile Char.isDigit) with
  | none => simp
  | some min' =>
    simp only [Option.some.injEq]
    split
    · rename_i heq
      simp only [heq, List.cons.injEq, true_and]
      grind
    · rename_i heq
      have hnone : ∀ l : List Char, number? (('}' :: l).takeWhile Char.isDigit) = none :=
        fun _ => rfl
      simp only [heq, List.cons.injEq]
      grind
    · rename_i more hmore heq
      simp only [heq, List.cons.injEq]
      split
      · grind
      · grind
    · grind

/-- A text before a delimiter begins with another character if the text itself does. -/
theorem append_eq_cons_iff (hne : d ≠ c) :
    cs ++ d :: u = c :: rest ↔ ∃ rest', cs = c :: rest' ∧ rest = rest' ++ d :: u := by
  cases cs with
  | nil => simp [hne]
  | cons x cs => simp [eq_comm, and_assoc]

theorem readBounds_append_some (hd : Delimiter d) {min : Nat} {max : Option Nat}
    (h : readBounds cs = some (min, max, rest)) (u : List Char) :
    readBounds (cs ++ d :: u) = some (min, max, rest ++ d :: u) := by
  obtain ⟨hmin, hform⟩ := readBounds_eq_some_iff.1 h
  rw [readBounds_eq_some_iff, takeWhile_isDigit_append hd, dropWhile_isDigit_append hd]
  refine ⟨hmin, ?_⟩
  rcases hform with ⟨hdrop, hmax⟩ | ⟨hdrop, hmax⟩ | ⟨more, m, hdrop, hm, hbrace, hmax⟩
  · exact .inl ⟨by rw [hdrop, List.cons_append], hmax⟩
  · exact .inr (.inl ⟨by rw [hdrop, List.cons_append, List.cons_append], hmax⟩)
  · refine .inr (.inr ⟨more ++ d :: u, m, by rw [hdrop, List.cons_append], ?_, ?_, hmax⟩)
    · rw [takeWhile_isDigit_append hd, hm]
    · rw [dropWhile_isDigit_append hd, hbrace, List.cons_append]

/-- A brace that begins no quantifier begins none before a delimiter. -/
theorem readBounds_append_none (hd : Delimiter d) (h : readBounds cs = none) (u : List Char) :
    readBounds (cs ++ d :: u) = none := by
  have hbrace : d ≠ '}' := hd.ne (by decide) (by decide)
  have hcomma : d ≠ ',' := hd.ne (by decide) (by decide)
  have hnone : ∀ min max rest, readBounds cs ≠ some (min, max, rest) := by simp [h]
  rw [Option.eq_none_iff_forall_ne_some]
  rintro ⟨min, max, rest⟩ hsome
  rw [readBounds_eq_some_iff, takeWhile_isDigit_append hd, dropWhile_isDigit_append hd] at hsome
  obtain ⟨hmin, hform⟩ := hsome
  rcases hform with ⟨hdrop, hmax⟩ | ⟨hdrop, hmax⟩ | ⟨more, m, hdrop, hm, hend, hmax⟩
  · obtain ⟨rest', hdrop, -⟩ := (append_eq_cons_iff hbrace).1 hdrop
    exact hnone min max rest' (readBounds_eq_some_iff.2 ⟨hmin, .inl ⟨hdrop, hmax⟩⟩)
  · obtain ⟨rest', hdrop, hrest⟩ := (append_eq_cons_iff hcomma).1 hdrop
    obtain ⟨rest'', hrest, -⟩ := (append_eq_cons_iff hbrace).1 hrest.symm
    rw [hrest] at hdrop
    exact hnone min max rest'' (readBounds_eq_some_iff.2 ⟨hmin, .inr (.inl ⟨hdrop, hmax⟩)⟩)
  · obtain ⟨more', hdrop, hmore⟩ := (append_eq_cons_iff hcomma).1 hdrop
    rw [hmore, takeWhile_isDigit_append hd] at hm
    rw [hmore, dropWhile_isDigit_append hd] at hend
    obtain ⟨rest', hend, -⟩ := (append_eq_cons_iff hbrace).1 hend
    exact hnone min max rest'
      (readBounds_eq_some_iff.2 ⟨hmin, .inr (.inr ⟨more', m, hdrop, hm, hend, hmax⟩)⟩)

/-! ## Escapes -/

theorem hexValue?_eq_none {digits : List Char} (h : d ∈ digits) (hd : hexDigit? d = none) :
    hexValue? digits = none := by
  have hfold : ∀ n, digits.foldlM (fun n d => (hexDigit? d).map (16 * n + ·)) n = none := by
    induction digits with
    | nil => cases h
    | cons c cs ih =>
      intro n
      rw [List.foldlM_cons]
      rcases List.mem_cons.1 h with rfl | h
      · rw [hd]
        rfl
      · cases (hexDigit? c).map (16 * n + ·) with
        | none => rfl
        | some m => exact ih h m
  exact hfold 0

theorem readHex_append (hd : Delimiter d) (count : Nat) (cs u : List Char) :
    readHex count (cs ++ d :: u) =
      (readHex count cs).map fun found => (found.1, found.2 ++ d :: u) := by
  unfold readHex
  by_cases hle : count ≤ cs.length
  · rw [List.take_append_of_le_length hle, List.drop_append_of_le_length hle]
    split
    · cases (hexValue? (cs.take count)).bind Charset.ofCodePoint? <;> rfl
    · rfl
  · -- too few digits before the delimiter, and it is none
    have hmem : d ∈ (cs ++ d :: u).take count := by
      rw [List.take_append, List.mem_append]
      obtain ⟨k, hk⟩ : ∃ k, count - cs.length = k + 1 := ⟨count - cs.length - 1, by omega⟩
      rw [hk, List.take_succ_cons]
      exact .inr List.mem_cons_self
    have hshort : (cs.take count).length ≠ count := by
      rw [List.length_take]
      omega
    rw [hexValue?_eq_none hmem hd.hexDigit?_eq_none, if_neg hshort]
    split
    · rfl
    · rfl

theorem readHexOr_append (hd : Delimiter d) (letter : Char) (count : Nat) (cs u : List Char) :
    readHexOr letter count (cs ++ d :: u) =
      ((readHexOr letter count cs).1, (readHexOr letter count cs).2 ++ d :: u) := by
  unfold readHexOr
  rw [readHex_append hd]
  cases readHex count cs <;> rfl

theorem readEscaped_append (hd : Delimiter d) (c : Char) (cs u : List Char) :
    readEscaped c (cs ++ d :: u) = ((readEscaped c cs).1, (readEscaped c cs).2 ++ d :: u) := by
  unfold readEscaped
  split
  · rfl
  · split
    case h_7 => exact readHexOr_append hd _ _ _ _
    case h_8 => exact readHexOr_append hd _ _ _ _
    all_goals rfl

theorem ReadsEscape.before (hd : Delimiter d) {node : Node} (h : ReadsEscape cs node rest)
    (u : List Char) : ReadsEscape (cs ++ d :: u) node (rest ++ d :: u) := by
  cases h with
  | boundary => exact .boundary _
  | inside => exact .inside _
  | @backreference c more hdigit hzero =>
    have hread := ReadsEscape.backreference (more ++ d :: u) hdigit hzero
    rwa [takeWhile_isDigit_append hd, dropWhile_isDigit_append hd] at hread
  | @escaped c more hb hB hdigit =>
    have hread := ReadsEscape.escaped (more ++ d :: u) hb hB hdigit
    rwa [readEscaped_append hd] at hread

/-! ## Classes -/

theorem readClassChar_append (hd : Delimiter d) {e : Escaped}
    (h : readClassChar c rest = .ok (e, left)) (u : List Char) :
    readClassChar c (rest ++ d :: u) = .ok (e, left ++ d :: u) := by
  unfold readClassChar at h ⊢
  split at h
  · rename_i hc
    rw [if_pos hc]
    split at h
    · cases h
    · cases h
      rfl
    · rename_i x more hx
      have hread : readEscaped x more = (e, left) := Except.ok.inj h
      rw [List.cons_append]
      split
      · rename_i heq
        cases heq
      · rename_i heq
        obtain ⟨rfl, -⟩ := List.cons.inj heq
        exact absurd rfl hx
      · rename_i heq
        obtain ⟨rfl, rfl⟩ := List.cons.inj heq
        rw [readEscaped_append hd, hread]
  · rename_i hc
    rw [if_neg hc]
    cases h
    rfl

theorem intervalEnd?_append {x : Char} (h : intervalEnd? cs = some (x, rest)) (u : List Char) :
    intervalEnd? (cs ++ u) = some (x, rest ++ u) := by
  unfold intervalEnd? at h
  split at h
  · rename_i y more
    split at h
    · cases h
    · rename_i hy
      cases h
      simp [intervalEnd?, hy]
  · cases h

/-- A class that goes on past a dash ends somewhere, so more than the dash follows. -/
theorem intervalEnd?_append_none (hd : Delimiter d) {members found : List ClassMember}
    (h : readMembers members cs = .ok (found, rest)) (hnone : intervalEnd? cs = none)
    (u : List Char) : intervalEnd? (cs ++ d :: u) = none := by
  have hdash : d ≠ '-' := hd.ne (by decide) (by decide)
  rcases cs with _ | ⟨x, _ | ⟨y, more⟩⟩
  · simp [readMembers] at h
  · by_cases hx : x = '-'
    · subst hx
      simp [readMembers, readClassChar, intervalEnd?] at h
    · simp [intervalEnd?, hx]
  · by_cases hx : x = '-'
    · subst hx
      simpa [intervalEnd?] using hnone
    · simp [intervalEnd?, hx]

/-- The members of a class after one more character, which may begin an interval. -/
theorem readMembers_cons (hc : c ≠ ']') (members : List ClassMember) (rest : List Char) :
    readMembers members (c :: rest) =
      match readClassChar c rest with
      | .error e => .error e
      | .ok (.shorthand k, left) => readMembers (Escaped.toMember (.shorthand k) :: members) left
      | .ok (.char lo, left) =>
        match intervalEnd? left with
        | none => readMembers (.char lo :: members) left
        | some (d, after) =>
          match readClassChar d after with
          | .error e => .error e
          | .ok (.char hi, left) =>
            if hi < lo then .error .rangeOutOfOrder
            else readMembers (.interval lo hi :: members) left
          | .ok (.shorthand k, left) =>
            readMembers (Escaped.toMember (.shorthand k) :: .char '-' :: .char lo :: members)
              left := by
  rw [readMembers, if_neg hc]
  split
  · rename_i hchar
    simp only [hchar]
  · rename_i hchar
    simp only [hchar]
  · rename_i hchar
    simp only [hchar]
    split
    · rename_i hdash
      simp only [hdash]
    · rename_i hdash
      simp only [hdash]
      split
      · rename_i hend
        simp only [hend]
      · rename_i hend
        simp only [hend]
      · rename_i hend
        simp only [hend]

/-- **A class that has been closed stays closed.** -/
theorem readMembers_append (hd : Delimiter d) {members found : List ClassMember}
    (h : readMembers members cs = .ok (found, rest)) (u : List Char) :
    readMembers members (cs ++ d :: u) = .ok (found, rest ++ d :: u) := by
  fun_induction readMembers members cs generalizing found rest
  all_goals first | contradiction | skip
  · -- the bracket that closes it
    cases h
    rw [List.cons_append, readMembers, if_pos rfl]
  · -- a shorthand
    rename_i hc _ _ hchar ih
    rw [List.cons_append, readMembers_cons hc]
    simp only [readClassChar_append hd hchar u]
    exact ih h
  · -- a character
    rename_i hc _ _ hchar hdash ih
    rw [List.cons_append, readMembers_cons hc]
    simp only [readClassChar_append hd hchar u, intervalEnd?_append_none hd h hdash u]
    exact ih h
  · -- an interval
    rename_i hc _ _ hchar _ _ hdash _ _ hend horder ih
    rw [List.cons_append, readMembers_cons hc]
    simp only [readClassChar_append hd hchar u, intervalEnd?_append hdash (d :: u),
      readClassChar_append hd hend u, if_neg horder]
    exact ih h
  · -- a dash before a shorthand
    rename_i hc _ _ hchar _ _ hdash _ _ hend ih
    rw [List.cons_append, readMembers_cons hc]
    simp only [readClassChar_append hd hchar u, intervalEnd?_append hdash (d :: u),
      readClassChar_append hd hend u]
    exact ih h

theorem readClass_append (hd : Delimiter d) {k : CharClass} (h : readClass cs = .ok (k, rest))
    (u : List Char) : readClass (cs ++ d :: u) = .ok (k, rest ++ d :: u) := by
  have hcaret : d ≠ '^' := hd.ne (by decide) (by decide)
  have hhead : ((cs ++ d :: u).head? == some '^') = (cs.head? == some '^') := by
    cases cs with
    | nil => simp [hcaret]
    | cons c cs => rfl
  have htext : (if (cs.head? == some '^') = true then (cs ++ d :: u).tail else cs ++ d :: u) =
      (if (cs.head? == some '^') = true then cs.tail else cs) ++ d :: u := by
    split
    · cases cs with
      | nil => contradiction
      | cons c cs => rfl
    · rfl
  unfold readClass at h ⊢
  simp only [hhead, htext]
  cases hm : readMembers [] (if (cs.head? == some '^') = true then cs.tail else cs) with
  | error e =>
    simp only [hm, Except.map] at h
    cases h
  | ok found =>
    rw [readMembers_append hd hm]
    simp only [hm, Except.map, Except.ok.injEq, Prod.mk.injEq] at h ⊢
    exact ⟨h.1, by rw [h.2]⟩

/-! ## Tokens -/

theorem readOpening_append (hd : Delimiter d) (cs u : List Char) :
    readOpening (cs ++ d :: u) = ((readOpening cs).1, (readOpening cs).2 ++ d :: u) := by
  have hmarks : d ≠ '?' ∧ d ≠ ':' ∧ d ≠ '=' ∧ d ≠ '!' :=
    ⟨hd.ne (by decide) (by decide), hd.ne (by decide) (by decide), hd.ne (by decide) (by decide),
      hd.ne (by decide) (by decide)⟩
  rcases cs with _ | ⟨x, more⟩
  · simp [readOpening, hmarks]
  · by_cases hx : x = '?'
    · subst hx
      rcases more with _ | ⟨y, more⟩
      · simp [readOpening, hmarks]
      · by_cases hplain : y = ':'
        · subst hplain
          rfl
        · by_cases hahead : y = '='
          · subst hahead
            rfl
          · by_cases hnot : y = '!'
            · subst hnot
              rfl
            · simp [readOpening, hplain, hahead, hnot]
    · simp [readOpening, hx]

/-- **A token that is read** stays as it is before a delimiter. -/
theorem readToken_append (hd : Delimiter d) {t : Token} (h : readToken c cs = .ok (t, rest))
    (u : List Char) : readToken c (cs ++ d :: u) = .ok (t, rest ++ d :: u) := by
  rw [readToken_eq_ok_iff] at h ⊢
  cases h with
  | bar => exact .bar _
  | closing => exact .closing _
  | opening =>
    have hread := ReadsToken.opening (cs ++ d :: u)
    rwa [readOpening_append hd] at hread
  | questionMark => exact .questionMark _
  | star => exact .star _
  | plus => exact .plus _
  | bounds h horder => exact .bounds (readBounds_append_some hd h u) horder
  | brace h => exact .brace (readBounds_append_none hd h u)
  | charClass h => exact .charClass (readClass_append hd h u)
  | escape h => exact .escape (h.before hd u)
  | anyChar => exact .anyChar _
  | start => exact .start _
  | finish => exact .finish _
  | char _ hc => exact .char _ hc

end Append

/-- **The tokens of a text** stay as they are before a delimiter. -/
theorem Reads.before {cs rest : List Char} {ts : List Token} (h : Reads cs ts rest) {d : Char}
    (hd : Delimiter d) (u : List Char) : Reads (cs ++ d :: u) ts (rest ++ d :: u) := by
  induction h with
  | done => exact .done _
  | token head _ ih => exact .token (readToken_append hd head u) ih

end SequenceConstraint.Syntax
