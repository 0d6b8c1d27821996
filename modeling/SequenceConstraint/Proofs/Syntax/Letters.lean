import SequenceConstraint.Proofs.Syntax.Reads

/-!
# Texts of letters and groups

The part of the pattern language that sequence constraints are written in: letters, capturing
groups with branches, and the quantifiers `+` and `*` behind a group. What such a text is read as
does not hang on what stands around it (`ReadAs`), so it can be put together piece by piece.

## Main statements

* `readAs_letters`, `ReadAs.append` — letters, and one text after the other
* `readAs_group` — a capturing group around some branches
* `ReadAs.quantified` — a group that is repeated
* `ReadAs.parse` — a text that is read as some nodes is the pattern of a tree
-/

namespace SequenceConstraint.Syntax

/-! ## Tokens -/

theorem readToken_letter {c : Char} (hc : c.isAlpha = true) (rest : List Char) :
    readToken c rest = .ok (.atom (.char c), rest) := by
  unfold readToken
  split
  case h_13 => rfl
  all_goals exact absurd hc (by decide)

theorem readToken_paren {rest : List Char} (h : ∀ left, rest ≠ '?' :: left) :
    readToken '(' rest = .ok (.opening (some .capture), rest) := by
  have hopening : readOpening rest = (some .capture, rest) := by
    unfold readOpening
    split
    · exact absurd rfl (h _)
    · exact absurd rfl (h _)
    · exact absurd rfl (h _)
    · exact absurd rfl (h _)
    · rfl
  show Except.ok (Token.opening (readOpening rest).1, (readOpening rest).2) = _
  rw [hopening]

/-- Whether the tokens of a text do not hang on what follows it. -/
def Tokenizes (cs : List Char) (ts : List Token) : Prop :=
  ∀ found rest, readTokens found (cs ++ rest) = readTokens (ts.reverse ++ found) rest

section Tokens

variable {cs ds : List Char} {ts us : List Token}

theorem tokenizes_nil : Tokenizes [] [] := fun _ _ => rfl

theorem Tokenizes.append (h : Tokenizes cs ts) (h' : Tokenizes ds us) :
    Tokenizes (cs ++ ds) (ts ++ us) := by
  intro found rest
  rw [List.append_assoc, h, h', List.reverse_append, List.append_assoc]

theorem tokenizes_letter {c : Char} (hc : c.isAlpha = true) :
    Tokenizes [c] [.atom (.char c)] :=
  fun found rest => readTokens_cons found (readToken_letter hc rest)

theorem tokenizes_bar : Tokenizes ['|'] [.bar] := fun found _ => readTokens_cons found rfl

theorem tokenizes_closing : Tokenizes [')'] [.closing] := fun found _ => readTokens_cons found rfl

theorem tokenizes_star : Tokenizes ['*'] [.quantifier 0 none] :=
  fun found _ => readTokens_cons found rfl

theorem tokenizes_plus : Tokenizes ['+'] [.quantifier 1 none] :=
  fun found _ => readTokens_cons found rfl

/-- A parenthesis and what it encloses: without question marks in it, the group captures. -/
theorem Tokenizes.enclosed (h : Tokenizes cs ts) (hmark : '?' ∉ cs) :
    Tokenizes ('(' :: cs ++ [')']) (.opening (some .capture) :: ts ++ [.closing]) := by
  intro found rest
  have hparen : ∀ left, cs ++ ([')'] ++ rest) ≠ '?' :: left := by
    intro left heq
    cases cs with
    | nil => cases heq
    | cons c cs =>
      obtain ⟨rfl, -⟩ := List.cons.inj heq
      exact hmark List.mem_cons_self
  rw [List.cons_append, List.cons_append, List.append_assoc,
    readTokens_cons found (readToken_paren hparen), h, tokenizes_closing]
  simp

end Tokens

/-! ## Nodes -/

/-- Whether a text is read as some nodes, wherever it stands. The capturing groups in it are
numbered from `k + 1` to `k'`, and it nests groups `depth` deep. -/
structure ReadAs (cs : List Char) (depth k k' : Nat) (nodes : Branch) : Prop where
  unmarked : '?' ∉ cs
  read : ∃ ts, Tokenizes cs ts ∧ ∀ a : Arrangement, a.captures = k →
    a.outer.length + depth ≤ maxDepth →
      ts.foldlM Arrangement.step a =
        .ok ⟨k', ⟨a.level.branches, nodes.reverse ++ a.level.nodes⟩, a.outer⟩

/-- Whether a text is read as the branches of an alternation, from where a branch begins. -/
structure ReadAsBranches (cs : List Char) (depth k k' : Nat) (branches : List Branch) :
    Prop where
  unmarked : '?' ∉ cs
  read : ∃ ts, Tokenizes cs ts ∧ ∀ a : Arrangement, a.captures = k → a.level.nodes = [] →
    a.outer.length + depth ≤ maxDepth →
      ∃ level, ts.foldlM Arrangement.step a = .ok ⟨k', level, a.outer⟩ ∧
        level.finish = a.level.branches.reverse ++ branches

section Nodes

variable {cs ds : List Char} {depth depth' k k' k'' : Nat} {nodes nodes' : Branch}
  {branches : List Branch}

theorem foldlM_step_append {ts us : List Token} {a b : Arrangement}
    (h : ts.foldlM Arrangement.step a = .ok b) :
    (ts ++ us).foldlM Arrangement.step a = us.foldlM Arrangement.step b := by
  rw [List.foldlM_append, h]
  rfl

theorem ReadAs.mono (h : ReadAs cs depth k k' nodes) (hle : depth ≤ depth') :
    ReadAs cs depth' k k' nodes where
  unmarked := h.unmarked
  read := by
    obtain ⟨ts, hts, hread⟩ := h.read
    exact ⟨ts, hts, fun a hk hdepth => hread a hk (by omega)⟩

theorem readAs_nil : ReadAs [] 0 k k [] where
  unmarked := List.not_mem_nil
  read := by
    refine ⟨[], tokenizes_nil, fun a hk _ => ?_⟩
    subst hk
    rfl

theorem readAs_letter {c : Char} (hc : c.isAlpha = true) : ReadAs [c] 0 k k [.char c] where
  unmarked := by
    intro hmem
    rw [← List.mem_singleton.1 hmem] at hc
    exact absurd hc (by decide)
  read := by
    refine ⟨_, tokenizes_letter hc, fun a hk _ => ?_⟩
    subst hk
    rfl

/-- **One text after the other.** -/
theorem ReadAs.append (h : ReadAs cs depth k k' nodes) (h' : ReadAs ds depth k' k'' nodes') :
    ReadAs (cs ++ ds) depth k k'' (nodes ++ nodes') where
  unmarked := by
    rw [List.mem_append, not_or]
    exact ⟨h.unmarked, h'.unmarked⟩
  read := by
    obtain ⟨ts, hts, hread⟩ := h.read
    obtain ⟨us, hus, hread'⟩ := h'.read
    refine ⟨ts ++ us, hts.append hus, fun a hk hdepth => ?_⟩
    have hsecond := hread' ⟨k', ⟨a.level.branches, nodes.reverse ++ a.level.nodes⟩, a.outer⟩ rfl
      hdepth
    rw [foldlM_step_append (hread a hk hdepth), hsecond, List.reverse_append, List.append_assoc]

/-- **Letters stand for themselves.** -/
theorem readAs_letters (h : ∀ c ∈ cs, c.isAlpha = true) : ReadAs cs 0 k k (cs.map .char) := by
  induction cs with
  | nil => exact readAs_nil
  | cons c cs ih =>
    obtain ⟨hc, hcs⟩ := List.forall_mem_cons.1 h
    exact (readAs_letter hc).append (ih hcs)

/-! ### Groups -/

theorem ReadAs.branch (h : ReadAs cs depth k k' nodes) :
    ReadAsBranches cs depth k k' [nodes] where
  unmarked := h.unmarked
  read := by
    obtain ⟨ts, hts, hread⟩ := h.read
    refine ⟨ts, hts, fun a hk hnodes hdepth => ⟨_, hread a hk hdepth, ?_⟩⟩
    simp [Level.finish, Level.endBranch, hnodes]

/-- A branch in front of others. -/
theorem ReadAs.or (h : ReadAs cs depth k k' nodes)
    (h' : ReadAsBranches ds depth k' k'' branches) :
    ReadAsBranches (cs ++ '|' :: ds) depth k k'' (nodes :: branches) where
  unmarked := by
    have hcs := h.unmarked
    have hds := h'.unmarked
    simp [hcs, hds]
  read := by
    obtain ⟨ts, hts, hread⟩ := h.read
    obtain ⟨us, hus, hread'⟩ := h'.read
    have hbar : Tokenizes ('|' :: ds) (.bar :: us) := tokenizes_bar.append hus
    refine ⟨ts ++ .bar :: us, hts.append hbar, fun a hk hnodes hdepth => ?_⟩
    obtain ⟨level, hlevel, hfinish⟩ :=
      hread' ⟨k', ⟨nodes :: a.level.branches, []⟩, a.outer⟩ rfl rfl hdepth
    refine ⟨level, ?_, ?_⟩
    · rw [foldlM_step_append (hread a hk hdepth), hnodes, List.append_nil]
      rw [← hlevel]
      show us.foldlM Arrangement.step
        ⟨k', ⟨nodes.reverse.reverse :: a.level.branches, []⟩, a.outer⟩ = _
      rw [List.reverse_reverse]
    · rw [hfinish]
      simp

/-- **A capturing group around some branches.** It is numbered before the groups in it. -/
theorem readAs_group (h : ReadAsBranches cs depth (k + 1) k' branches) :
    ReadAs ('(' :: cs ++ [')']) (depth + 1) k k' [.group (.capture (k + 1)) branches] where
  unmarked := by
    have hcs := h.unmarked
    simp [hcs]
  read := by
    obtain ⟨ts, hts, hread⟩ := h.read
    refine ⟨_, hts.enclosed h.unmarked, fun a hk hdepth => ?_⟩
    subst hk
    let inner : Arrangement :=
      ⟨a.captures + 1, .empty, (.capture (a.captures + 1), a.level) :: a.outer⟩
    have hopen : a.openGroup (some .capture) = .ok inner := by
      unfold Arrangement.openGroup
      rw [if_neg (by omega)]
    have hinner : inner.outer.length + depth ≤ maxDepth := by
      show a.outer.length + 1 + depth ≤ maxDepth
      omega
    obtain ⟨level, hlevel, hfinish⟩ := hread inner rfl rfl hinner
    have hfirst : (Token.opening (some .capture) :: ts).foldlM Arrangement.step a =
        .ok ⟨k', level, inner.outer⟩ := by
      rw [List.foldlM_cons]
      show (a.openGroup (some .capture) >>= fun b => ts.foldlM Arrangement.step b) = _
      rw [hopen]
      exact hlevel
    rw [foldlM_step_append hfirst]
    show Except.ok (Arrangement.mk k'
      (a.level.push (.group (.capture (a.captures + 1)) level.finish)) a.outer) = _
    rw [hfinish]
    rfl

/-- **A group that is repeated.** -/
theorem ReadAs.quantified {kind : GroupKind} {mark : Char} {min : Nat}
    (h : ReadAs cs depth k k' [.group kind branches])
    (hmark : Tokenizes [mark] [.quantifier min none]) (hne : mark ≠ '?') :
    ReadAs (cs ++ [mark]) depth k k' [.repetition min none (.group kind branches)] where
  unmarked := by
    have hcs := h.unmarked
    simp [hcs, hne.symm]
  read := by
    obtain ⟨ts, hts, hread⟩ := h.read
    refine ⟨_, hts.append hmark, fun a hk hdepth => ?_⟩
    rw [foldlM_step_append (hread a hk hdepth)]
    rfl

end Nodes

/-! ## Whole patterns -/

/-- **A text that is read as some nodes is the pattern of a tree.** -/
theorem ReadAs.parse {cs : List Char} {depth k : Nat} {nodes : Branch}
    (h : ReadAs cs depth 0 k nodes) (hdepth : depth ≤ maxDepth) :
    Tree.parse (String.ofList cs) = .ok ⟨[nodes], k⟩ := by
  obtain ⟨ts, hts, hread⟩ := h.read
  have htokens : readTokens [] cs = ⟨ts, none⟩ := by
    have hwhole := hts [] []
    rw [List.append_nil, List.append_nil] at hwhole
    rw [hwhole, readTokens, List.reverse_reverse]
  have hfold := hread .start rfl (by simpa [Arrangement.start] using hdepth)
  unfold Tree.parse TokenList.arrange
  rw [String.toList_ofList, htokens]
  simp only
  rw [hfold]
  simp [Arrangement.finish, Arrangement.start, Level.finish, Level.endBranch, Level.empty]

end SequenceConstraint.Syntax
