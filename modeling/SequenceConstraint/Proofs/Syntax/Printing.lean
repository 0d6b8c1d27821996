import SequenceConstraint.Proofs.Syntax.WellFormed

/-!
# Printing trees

A tree is printed part by part. Characters are written as hexadecimal escapes as far as those reach,
so none of them is taken for an operator. Two things are left open, the hexadecimal digits and the
way to write how often a node is repeated (`Style`): what is read does not hang on them.

Each printed part is read back by itself, as long as no digit follows. A digit would go on with the
index of a backreference, but no printed part begins with one.

## Main statements

* `readClassChar_char` — a printed character is read within brackets
* `reads_class` — a printed class is read as that class
* `reads_char`, `reads_anchor`, `reads_backreference` — the other nodes without parts
* `reads_quantifier` — a printed quantifier is read as one
-/

namespace SequenceConstraint

open Syntax

/-! ## Styles -/

/-- The digits of a number. -/
def decimal (n : Nat) : List Char := Nat.toDigits 10 n

/-- The ways to write how often a node is repeated. -/
inductive QuantifierText : Nat → Option Nat → List Char → Prop where
  | exactly (n : Nat) : QuantifierText n (some n) ('{' :: decimal n ++ ['}'])
  | atLeast (min : Nat) : QuantifierText min none ('{' :: decimal min ++ [',', '}'])
  | between (min max : Nat) :
      QuantifierText min (some max) ('{' :: decimal min ++ ',' :: decimal max ++ ['}'])
  | star : QuantifierText 0 none ['*']
  | plus : QuantifierText 1 none ['+']
  | questionMark : QuantifierText 0 (some 1) ['?']

/-- What is left open about the text of a tree. -/
structure Style where
  hexDigit : Nat → Char
  hexDigit?_hexDigit : ∀ d < 16, hexDigit? (hexDigit d) = some d
  quantifier : Nat → Option Nat → List Char
  quantifierText : ∀ min max, QuantifierText min max (quantifier min max)

/-- Small hexadecimal digits, and both bounds in braces. -/
def Style.braces : Style where
  hexDigit := Nat.digitChar
  hexDigit?_hexDigit := by decide
  quantifier min max :=
    match max with
    | none => '{' :: decimal min ++ [',', '}']
    | some max => '{' :: decimal min ++ ',' :: decimal max ++ ['}']
  quantifierText min max :=
    match max with
    | none => .atLeast min
    | some max => .between min max

/-! ## Printing -/

section Printing

variable (style : Style)

/-- A character as an escape of four hexadecimal digits, or as itself if it needs more. -/
def printChar (c : Char) : List Char :=
  if c.toNat < 0x10000 then
    ['\\', 'u', style.hexDigit (c.toNat / 4096), style.hexDigit (c.toNat / 256 % 16),
      style.hexDigit (c.toNat / 16 % 16), style.hexDigit (c.toNat % 16)]
  else [c]

/-- The letter of the shorthand that stands for a class. -/
def CharClass.letter? (k : CharClass) : Option Char :=
  ['d', 'D', 'w', 'W', 's', 'S'].find? fun letter => CharClass.shorthand? letter = some k

def ClassMember.print : ClassMember → List Char
  | .char c => printChar style c
  | .interval lo hi => printChar style lo ++ '-' :: printChar style hi
  | .nested negated members => '\\' :: (CharClass.letter? ⟨negated, members⟩).toList

def CharClass.print (k : CharClass) : List Char :=
  '[' :: (if k.negated then ['^'] else []) ++ k.members.flatMap (·.print style) ++ [']']

def Anchor.print : Anchor → List Char
  | .start => ['^']
  | .finish => ['$']
  | .wordBoundary => ['\\', 'b']
  | .insideWord => ['\\', 'B']

/-- What follows the opening parenthesis of a group. -/
def GroupKind.mark : GroupKind → List Char
  | .capture _ => []
  | .plain => ['?', ':']
  | .lookahead false => ['?', '=']
  | .lookahead true => ['?', '!']

mutual

/-- The text of a node. Around a repetition there can only be a question mark. -/
def Node.print : Node → List Char
  | .char c => printChar style c
  | .charClass k => k.print style
  | .anchor a => a.print
  | .backreference index => '\\' :: decimal index
  | .group kind branches => '(' :: kind.mark ++ branchesPrint branches ++ [')']
  | .repetition 0 (some 1) (.repetition min max body) =>
    body.print ++ style.quantifier min max ++ ['?']
  | .repetition min max body => body.print ++ style.quantifier min max

def branchPrint : List Node → List Char
  | [] => []
  | n :: ns => n.print ++ branchPrint ns

/-- The texts of some branches with bars between them. -/
def branchesPrint : List (List Node) → List Char
  | [] => []
  | [b] => branchPrint b
  | b :: bs => branchPrint b ++ '|' :: branchesPrint bs

end

def Tree.print (tree : Tree) : List Char := branchesPrint style tree.branches

end Printing

namespace Syntax

/-! ## Numbers -/

/-- Whether a text does not go on with a digit. -/
def NoDigit (cs : List Char) : Prop := ∀ c ∈ cs.head?, c.isDigit = false

theorem noDigit_nil : NoDigit [] := nofun

theorem noDigit_cons {c : Char} (hc : c.isDigit = false) (cs : List Char) : NoDigit (c :: cs) := by
  rintro _ ⟨⟩
  exact hc

theorem isDigit_of_mem_decimal {n : Nat} : ∀ c ∈ decimal n, c.isDigit = true :=
  fun _ => Nat.isDigit_of_mem_toDigits (by decide) (by decide)

theorem number?_decimal {n : Nat} (h : n < numberLimit) : number? (decimal n) = some n := by
  have hvalue : decimalValue (decimal n) = n :=
    Nat.ofDigitChars_toDigits (by decide) (by decide)
  have hne : (decimal n).isEmpty = false := List.isEmpty_eq_false_iff.2 Nat.toDigits_ne_nil
  simp [number?, hne, hvalue, h]

/-- The digits of a number are all digits before what does not go on with one. -/
theorem takeWhile_decimal (n : Nat) {rest : List Char} (h : NoDigit rest) :
    (decimal n ++ rest).takeWhile Char.isDigit = decimal n ∧
      (decimal n ++ rest).dropWhile Char.isDigit = rest := by
  have hrest : rest.takeWhile Char.isDigit = [] ∧ rest.dropWhile Char.isDigit = rest := by
    cases rest with
    | nil => exact ⟨rfl, rfl⟩
    | cons c cs => simp [h c rfl]
  rw [List.takeWhile_append_of_pos isDigit_of_mem_decimal,
    List.dropWhile_append_of_pos isDigit_of_mem_decimal, hrest.1, hrest.2, List.append_nil]
  exact ⟨rfl, rfl⟩

/-- The digits of a positive number begin with none that is zero. -/
theorem exists_decimal_eq_cons {n : Nat} (h : 1 ≤ n) :
    ∃ d ds, decimal n = d :: ds ∧ d ≠ '0' := by
  induction n using Nat.strongRecOn with
  | ind n ih =>
    by_cases hlt : n < 10
    · refine ⟨n.digitChar, [], Nat.toDigits_of_lt_base hlt, ?_⟩
      have hall : ∀ m < 10, 1 ≤ m → m.digitChar ≠ '0' := by decide
      exact hall n hlt h
    · obtain ⟨d, ds, hds, hd⟩ := ih (n / 10) (by omega) (by omega)
      refine ⟨d, ds ++ [(n % 10).digitChar], ?_, hd⟩
      have hsplit : decimal n = decimal (n / 10) ++ [(n % 10).digitChar] :=
        Nat.toDigits_of_base_le (by decide) (Nat.not_lt.1 hlt)
      rw [hsplit, hds, List.cons_append]

/-! ## Characters -/

section Characters

variable (style : Style)

theorem readHex_print {c : Char} (h : c.toNat < 0x10000) (rest : List Char) :
    readHex 4 (style.hexDigit (c.toNat / 4096) :: style.hexDigit (c.toNat / 256 % 16) ::
      style.hexDigit (c.toNat / 16 % 16) :: style.hexDigit (c.toNat % 16) :: rest) =
        some (c, rest) := by
  have hdigit : ∀ d < 16, hexDigit? (style.hexDigit d) = some d := style.hexDigit?_hexDigit
  have hvalue : 16 * (16 * (16 * (16 * 0 + c.toNat / 4096) + c.toNat / 256 % 16) +
      c.toNat / 16 % 16) + c.toNat % 16 = c.toNat := by omega
  have hchar : Charset.ofCodePoint? c.toNat = some c := Charset.ofCodePoint?_eq_some.2 rfl
  have hhex : hexValue? [style.hexDigit (c.toNat / 4096), style.hexDigit (c.toNat / 256 % 16),
      style.hexDigit (c.toNat / 16 % 16), style.hexDigit (c.toNat % 16)] = some c.toNat := by
    simp only [hexValue?, List.foldlM_cons, List.foldlM_nil, hdigit (c.toNat / 4096) (by omega),
      hdigit (c.toNat / 256 % 16) (by omega), hdigit (c.toNat / 16 % 16) (by omega),
      hdigit (c.toNat % 16) (by omega), Option.map_some, Option.bind_eq_bind, Option.bind_some,
      hvalue, Option.pure_def]
  simp [readHex, hhex, hchar]

/-- A character is printed as an escape that is read as it, or as itself. -/
theorem printChar_cases (c : Char) :
    (∃ code, printChar style c = '\\' :: 'u' :: code ∧
        ∀ rest, readEscaped 'u' (code ++ rest) = (.char c, rest)) ∨
      (printChar style c = [c] ∧ 0x10000 ≤ c.toNat) := by
  unfold printChar
  by_cases h : c.toNat < 0x10000
  · rw [if_pos h]
    refine .inl ⟨_, rfl, fun rest => ?_⟩
    show readHexOr 'u' 4 _ = _
    simp only [List.cons_append, List.nil_append]
    rw [readHexOr, readHex_print style h]
  · rw [if_neg h]
    exact .inr ⟨rfl, Nat.not_lt.1 h⟩

/-- The characters that are printed as themselves are no operators, marks or digits. -/
theorem ne_of_large {c d : Char} (hc : 0x10000 ≤ c.toNat) (hd : d.toNat < 0x10000) : c ≠ d := by
  rintro rfl
  omega

theorem not_isDigit_of_large {c : Char} (hc : 0x10000 ≤ c.toNat) : c.isDigit = false := by
  rw [Bool.eq_false_iff]
  intro hdigit
  have := (toNat_of_isDigit hdigit).2
  omega

/-- **A printed character** is read as that character within brackets. It does not begin with one
of the marks of classes. -/
theorem readClassChar_char (c : Char) :
    ∃ d more, printChar style c = d :: more ∧ d ∉ [']', '-', '^'] ∧
      ∀ rest, readClassChar d (more ++ rest) = .ok (.char c, rest) := by
  rcases printChar_cases style c with ⟨code, hprint, hread⟩ | ⟨hprint, hlarge⟩
  · refine ⟨'\\', 'u' :: code, hprint, by decide, fun rest => ?_⟩
    show Except.ok (readEscaped 'u' (code ++ rest)) = _
    rw [hread]
  · refine ⟨c, [], hprint, ?_, fun rest => ?_⟩
    · simp [ne_of_large hlarge]
    · unfold readClassChar
      rw [if_neg (ne_of_large hlarge (by decide))]
      rfl

/-- A printed character is read as that character outside brackets. -/
theorem readToken_char (c : Char) :
    ∃ d more, printChar style c = d :: more ∧ d.isDigit = false ∧ d ≠ '?' ∧
      ∀ rest, readToken d (more ++ rest) = .ok (.atom (.char c), rest) := by
  rcases printChar_cases style c with ⟨code, hprint, hread⟩ | ⟨hprint, hlarge⟩
  · refine ⟨'\\', 'u' :: code, hprint, by decide, by decide, fun rest => ?_⟩
    have hescape := ReadsEscape.escaped (c := 'u') (code ++ rest) (by decide) (by decide)
      (by decide)
    rw [hread] at hescape
    exact readToken_eq_ok_iff.2 (.escape hescape)
  · refine ⟨c, [], hprint, not_isDigit_of_large hlarge, ne_of_large hlarge (by decide),
      fun rest => readToken_eq_ok_iff.2 (.char rest ?_)⟩
    simp [special, ne_of_large hlarge]

end Characters

/-! ## Classes -/

section Classes

variable (style : Style)

theorem letter?_eq {k : CharClass} (h : ∃ letter, CharClass.shorthand? letter = some k) :
    ∃ letter, k.letter? = some letter ∧ CharClass.shorthand? letter = some k := by
  obtain ⟨letter, hletter⟩ := h
  have hmem : letter ∈ ['d', 'D', 'w', 'W', 's', 'S'] := by
    unfold CharClass.shorthand? at hletter
    split at hletter
    case h_7 => cases hletter
    all_goals decide
  have hsome : k.letter?.isSome = true := by
    rw [CharClass.letter?, List.find?_isSome]
    exact ⟨letter, hmem, decide_eq_true hletter⟩
  obtain ⟨found, hfound⟩ := Option.isSome_iff_exists.1 hsome
  exact ⟨found, hfound, by simpa using List.find?_some hfound⟩

theorem readEscaped_shorthand {letter : Char} {k : CharClass}
    (h : CharClass.shorthand? letter = some k) (rest : List Char) :
    readEscaped letter rest = (.shorthand k, rest) := by
  unfold readEscaped
  rw [h]

theorem readClassChar_shorthand {letter : Char} {k : CharClass}
    (h : CharClass.shorthand? letter = some k) (rest : List Char) :
    readClassChar '\\' (letter :: rest) = .ok (.shorthand k, rest) := by
  unfold readClassChar
  rw [if_pos rfl]
  split
  · rename_i heq
    cases heq
  · rename_i heq
    cases heq
    cases h
  · rename_i heq
    cases heq
    rw [readEscaped_shorthand h]

/-- What is printed of a class after some of its members begins with no mark of classes. -/
theorem exists_members_eq_cons (members : List ClassMember) (rest : List Char) :
    ∃ d more, members.flatMap (·.print style) ++ ']' :: rest = d :: more ∧ d ∉ ['-', '^'] := by
  cases members with
  | nil => exact ⟨']', rest, rfl, by decide⟩
  | cons m ms =>
    have hchar : ∀ c, ∃ d more, printChar style c = d :: more ∧ d ∉ ['-', '^'] := by
      intro c
      obtain ⟨d, more, hprint, hd, -⟩ := readClassChar_char style c
      exact ⟨d, more, hprint, fun hmem => hd (List.mem_cons_of_mem ']' hmem)⟩
    have hm : ∃ d more, m.print style = d :: more ∧ d ∉ ['-', '^'] := by
      cases m with
      | char c => exact hchar c
      | interval lo hi =>
        obtain ⟨d, more, hprint, hd⟩ := hchar lo
        exact ⟨d, more ++ '-' :: printChar style hi, by rw [ClassMember.print, hprint]; rfl, hd⟩
      | nested negated members => exact ⟨'\\', _, rfl, by decide⟩
    obtain ⟨d, more, hprint, hd⟩ := hm
    exact ⟨d, _, by rw [List.flatMap_cons, hprint]; rfl, hd⟩

/-- **The members of a class** are read back up to the bracket that closes it. -/
theorem readMembers_print {members : List ClassMember} (h : ∀ m ∈ members, m.Sound)
    (found : List ClassMember) (rest : List Char) :
    readMembers found (members.flatMap (·.print style) ++ ']' :: rest) =
      .ok (found.reverse ++ members, rest) := by
  induction members generalizing found with
  | nil => rw [List.flatMap_nil, List.nil_append, readMembers, if_pos rfl, List.append_nil]
  | cons m ms ih =>
    obtain ⟨hm, hms⟩ := List.forall_mem_cons.1 h
    have hnext : ∀ found', found' = m :: found →
        readMembers found' (ms.flatMap (·.print style) ++ ']' :: rest) =
          .ok (found.reverse ++ m :: ms, rest) := by
      rintro found' rfl
      rw [ih hms, List.reverse_cons, List.append_assoc]
      rfl
    rw [List.flatMap_cons, List.append_assoc]
    generalize htext : ms.flatMap (·.print style) ++ ']' :: rest = text at hnext ⊢
    cases m with
    | char c =>
      obtain ⟨d, more, hprint, hd, hread⟩ := readClassChar_char style c
      have hdash : intervalEnd? text = none := by
        obtain ⟨e, more', heq, he⟩ := exists_members_eq_cons style ms rest
        simp only [List.mem_cons, not_or] at he
        simp [← htext, heq, intervalEnd?, he.1]
      simp only [List.mem_cons, not_or] at hd
      rw [ClassMember.print, hprint, List.cons_append, readMembers_cons hd.1]
      simp only [hread, hdash]
      exact hnext _ rfl
    | interval lo hi =>
      obtain ⟨d, more, hprint, hd, hread⟩ := readClassChar_char style lo
      obtain ⟨e, more', hprint', he, hread'⟩ := readClassChar_char style hi
      simp only [List.mem_cons, not_or] at hd he
      have hdash : intervalEnd? ('-' :: e :: (more' ++ text)) = some (e, more' ++ text) := by
        simp [intervalEnd?, he.1]
      have horder : ¬hi < lo := Char.not_lt.2 hm
      rw [ClassMember.print, hprint, hprint', List.cons_append, List.cons_append,
        List.append_assoc, List.cons_append, List.cons_append, readMembers_cons hd.1]
      simp only [hread, hdash, hread', if_neg horder]
      exact hnext _ rfl
    | nested negated members =>
      obtain ⟨letter, hletter, hshorthand⟩ := letter?_eq hm
      rw [ClassMember.print, hletter]
      show readMembers found ('\\' :: letter :: text) = _
      rw [readMembers_cons (by decide)]
      simp only [readClassChar_shorthand hshorthand]
      exact hnext _ rfl

theorem readClass_print {k : CharClass} (h : ∀ m ∈ k.members, m.Sound) (rest : List Char) :
    readClass ((if k.negated then ['^'] else []) ++
      (k.members.flatMap (·.print style) ++ ']' :: rest)) = .ok (k, rest) := by
  obtain ⟨negated, members⟩ := k
  have hmembers := readMembers_print style h [] rest
  cases negated with
  | true => simp [readClass, hmembers, Except.map]
  | false =>
    -- what is not negated does not begin with a caret
    obtain ⟨d, more, heq, hd⟩ := exists_members_eq_cons style members rest
    simp only [List.mem_cons, not_or] at hd
    simp only at hmembers
    rw [heq] at hmembers
    simp [readClass, heq, hd.2.1, hmembers, Except.map]

/-- **A printed class** is read as that class. -/
theorem reads_class {k : CharClass} (h : ∀ m ∈ k.members, m.Sound) (rest : List Char) :
    Reads (k.print style ++ rest) [.atom (.charClass k)] rest := by
  have htext : k.print style ++ rest = '[' :: ((if k.negated then ['^'] else []) ++
      (k.members.flatMap (·.print style) ++ ']' :: rest)) := by
    simp [CharClass.print]
  rw [htext]
  exact .token (readToken_eq_ok_iff.2 (.charClass (readClass_print style h rest))) (.done rest)

end Classes

/-! ## Tokens -/

section Tokens

variable (style : Style)

theorem reads_char (c : Char) (rest : List Char) :
    Reads (printChar style c ++ rest) [.atom (.char c)] rest := by
  obtain ⟨d, more, hprint, -, -, hread⟩ := readToken_char style c
  rw [hprint]
  exact .token (hread rest) (.done rest)

theorem reads_anchor (a : Anchor) (rest : List Char) :
    Reads (a.print ++ rest) [.atom (.anchor a)] rest := by
  cases a with
  | start => exact .token rfl (.done rest)
  | finish => exact .token rfl (.done rest)
  | wordBoundary => exact .token rfl (.done rest)
  | insideWord => exact .token rfl (.done rest)

/-- **A printed backreference** is read as that reference where no digit goes on with its index. -/
theorem reads_backreference {index : Nat} (h : 1 ≤ index) (hlimit : index < numberLimit)
    {rest : List Char} (hrest : NoDigit rest) :
    Reads ('\\' :: decimal index ++ rest) [.atom (.backreference index)] rest := by
  obtain ⟨d, ds, hds, hzero⟩ := exists_decimal_eq_cons h
  have hdigit : d.isDigit = true := by
    refine isDigit_of_mem_decimal (n := index) d ?_
    rw [hds]
    exact List.mem_cons_self
  obtain ⟨htake, hdrop⟩ := takeWhile_decimal index hrest
  rw [hds, List.cons_append] at htake hdrop
  rw [List.takeWhile_cons_of_pos hdigit] at htake
  rw [List.dropWhile_cons_of_pos hdigit] at hdrop
  have hescape := ReadsEscape.backreference (ds ++ rest) hdigit hzero
  rw [htake, hdrop, ← hds, referenceIndex, number?_decimal hlimit, Option.getD_some,
    ← List.cons_append, ← hds] at hescape
  exact .token (readToken_eq_ok_iff.2 (.escape hescape)) (.done rest)

/-! ### Quantifiers -/

/-- Bounds in braces, with what stands behind the smaller one. -/
theorem reads_bounds {min : Nat} {max : Option Nat} {tail rest : List Char}
    (hmin : min < numberLimit) (horder : ∀ m, max = some m → min ≤ m) (htail : NoDigit tail)
    (h : (tail = '}' :: rest ∧ max = some min) ∨ (tail = ',' :: '}' :: rest ∧ max = none) ∨
      ∃ m, tail = ',' :: (decimal m ++ '}' :: rest) ∧ max = some m ∧ m < numberLimit) :
    Reads ('{' :: (decimal min ++ tail)) [.quantifier min max] rest := by
  obtain ⟨htake, hdrop⟩ := takeWhile_decimal min htail
  have hbounds : readBounds (decimal min ++ tail) = some (min, max, rest) := by
    rw [readBounds_eq_some_iff, htake, hdrop]
    refine ⟨number?_decimal hmin, ?_⟩
    rcases h with ⟨rfl, rfl⟩ | ⟨rfl, rfl⟩ | ⟨m, rfl, rfl, hm⟩
    · exact .inl ⟨rfl, rfl⟩
    · exact .inr (.inl ⟨rfl, rfl⟩)
    · obtain ⟨htake', hdrop'⟩ := takeWhile_decimal m (noDigit_cons (c := '}') rfl rest)
      exact .inr (.inr ⟨_, m, rfl, by rw [htake', number?_decimal hm], hdrop', rfl⟩)
  have hmax : ¬max.any (· < min) = true := by
    cases max with
    | none => simp
    | some m => simpa using horder m rfl
  exact .token (readToken_eq_ok_iff.2 (.bounds hbounds hmax)) (.done rest)

/-- **A printed quantifier** is read as one with its bounds. It goes on with no digit. -/
theorem reads_quantifier {min : Nat} {max : Option Nat} (hmin : min < numberLimit)
    (hmax : ∀ m, max = some m → min ≤ m ∧ m < numberLimit) :
    ∃ t questionMark, t.Quantifies questionMark min max ∧ ∀ rest,
      NoDigit (style.quantifier min max ++ rest) ∧
        Reads (style.quantifier min max ++ rest) [t] rest := by
  have horder : ∀ m, max = some m → min ≤ m := fun m hm => (hmax m hm).1
  have htext := style.quantifierText min max
  generalize style.quantifier min max = cs at htext ⊢
  cases htext with
  | exactly =>
    refine ⟨_, _, .quantifier min _, fun rest => ⟨noDigit_cons rfl _, ?_⟩⟩
    rw [List.cons_append, List.cons_append, List.append_assoc]
    exact reads_bounds hmin horder (noDigit_cons rfl _) (.inl ⟨rfl, rfl⟩)
  | atLeast =>
    refine ⟨_, _, .quantifier min _, fun rest => ⟨noDigit_cons rfl _, ?_⟩⟩
    rw [List.cons_append, List.cons_append, List.append_assoc]
    exact reads_bounds hmin horder (noDigit_cons rfl _) (.inr (.inl ⟨rfl, rfl⟩))
  | between _ m =>
    refine ⟨_, _, .quantifier min _, fun rest => ⟨noDigit_cons rfl _, ?_⟩⟩
    have htail : '{' :: decimal min ++ ',' :: decimal m ++ ['}'] ++ rest =
        '{' :: (decimal min ++ ',' :: (decimal m ++ '}' :: rest)) := by simp
    rw [htail]
    exact reads_bounds hmin horder (noDigit_cons rfl _)
      (.inr (.inr ⟨m, rfl, rfl, (hmax m rfl).2⟩))
  | star =>
    exact ⟨_, _, .quantifier 0 none, fun rest => ⟨noDigit_cons rfl _, .token rfl (.done rest)⟩⟩
  | plus =>
    exact ⟨_, _, .quantifier 1 none, fun rest => ⟨noDigit_cons rfl _, .token rfl (.done rest)⟩⟩
  | questionMark =>
    exact ⟨_, _, .questionMark, fun rest => ⟨noDigit_cons rfl _, .token rfl (.done rest)⟩⟩

end Tokens

end Syntax

end SequenceConstraint
