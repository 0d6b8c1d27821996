import SequenceConstraint.Dotted
import SequenceConstraint.Proofs.Syntax.Delimiters
import SequenceConstraint.Proofs.Syntax.Letters

/-!
# Fragments of a branch

A text without bars and parentheses is read within one branch. Its tokens act on the nodes of that
branch and on nothing else, so a fragment that can be read by itself is read alike as a branch
anywhere: side by side with others behind bars, and within a group.

## Main statements

* `foldlM_step_eq` — tokens within a branch act on its nodes alone
* `exists_fragment_of_parse` — the fragments are the texts without bars and parentheses that can be
  read by themselves
* `exists_fragment_of_plain` — plain characters are fragments
* `exists_reads_branches` — fragments between bars are read as branches
* `parse_repeated_group` — a repeated group of fragments
-/

namespace SequenceConstraint.Syntax

/-! ## Tokens within a branch -/

/-- Whether a token belongs to the branch being read. -/
def Token.InBranch : Token → Prop
  | .atom _ => True
  | .quantifier _ _ => True
  | .questionMark => True
  | _ => False

/-- A token that does not belong to a branch shows in its first character. -/
theorem readToken_cases {c : Char} {cs left : List Char} {t : Token}
    (h : readToken c cs = .ok (t, left)) :
    t.InBranch ∨ (c = '|' ∧ t = .bar ∧ left = cs) ∨ (c = ')' ∧ t = .closing ∧ left = cs) ∨
      (c = '(' ∧ ∃ kind, t = .opening kind) := by
  cases readToken_eq_ok_iff.1 h with
  | bar => exact .inr (.inl ⟨rfl, rfl, rfl⟩)
  | closing => exact .inr (.inr (.inl ⟨rfl, rfl, rfl⟩))
  | opening => exact .inr (.inr (.inr ⟨rfl, _, rfl⟩))
  | _ => exact .inl trivial

/-- The nodes of a branch after one more token, latest first. -/
def Token.extend (nodes : Branch) (t : Token) : Except ParseErrorKind Branch :=
  (Arrangement.step ⟨0, ⟨[], nodes⟩, []⟩ t).map (·.level.nodes)

/-- An arrangement with other nodes in the branch being read. -/
def Arrangement.withNodes (a : Arrangement) (nodes : Branch) : Arrangement :=
  { a with level := { a.level with nodes := nodes } }

theorem step_eq {t : Token} (ht : t.InBranch) (a : Arrangement) :
    a.step t = (t.extend a.level.nodes).map a.withNodes := by
  have hquantify : ∀ questionMark min max, a.quantify questionMark min max =
      ((Arrangement.quantify questionMark min max ⟨0, ⟨[], a.level.nodes⟩, []⟩).map
        (·.level.nodes)).map a.withNodes := by
    intro questionMark min max
    unfold Arrangement.quantify
    cases a.level.nodes with
    | nil => rfl
    | cons node nodes =>
      simp only
      split
      · rfl
      · rfl
  cases t with
  | atom node => rfl
  | quantifier min max => exact hquantify false min max
  | questionMark => exact hquantify true 0 (some 1)
  | opening kind => exact ht.elim
  | closing => exact ht.elim
  | bar => exact ht.elim

/-- **Tokens within a branch** act on its nodes alone. -/
theorem foldlM_step_eq {ts : List Token} (h : ∀ t ∈ ts, t.InBranch) (a : Arrangement) :
    ts.foldlM Arrangement.step a = (ts.foldlM Token.extend a.level.nodes).map a.withNodes := by
  induction ts generalizing a with
  | nil => rfl
  | cons t ts ih =>
    obtain ⟨ht, hts⟩ := List.forall_mem_cons.1 h
    rw [List.foldlM_cons, List.foldlM_cons, step_eq ht]
    cases t.extend a.level.nodes with
    | error e => rfl
    | ok nodes => exact ih hts (a.withNodes nodes)

/-! ## Fragments -/

/-- Whether a text is read as the nodes of a branch. -/
def Fragment (cs : List Char) (b : Branch) : Prop :=
  ∃ ts, Reads cs ts [] ∧ (∀ t ∈ ts, t.InBranch) ∧ ts.foldlM Token.extend [] = .ok b.reverse

theorem fragment_nil : Fragment [] [] := ⟨[], .done [], by simp, rfl⟩

theorem Fragment.parse {cs : List Char} {b : Branch} (h : Fragment cs b) :
    Tree.parse (String.ofList cs) = .ok ⟨[b], 0⟩ := by
  obtain ⟨ts, hreads, hts, hfold⟩ := h
  rw [parse_eq_ok_iff, String.toList_ofList]
  refine ⟨ts, Arrangement.start.withNodes b.reverse, hreads, ?_, rfl, ?_⟩
  · rw [foldlM_step_eq hts]
    show (ts.foldlM Token.extend []).map _ = _
    rw [hfold]
    rfl
  · simp [Arrangement.withNodes, Arrangement.start, Level.empty, Level.finish, Level.endBranch]

/-- **The fragments** are the texts without bars and parentheses that can be read by themselves. -/
theorem exists_fragment_of_parse {cs : List Char} {t : Tree} (hbar : '|' ∉ cs) (hopen : '(' ∉ cs)
    (hclose : ')' ∉ cs) (h : Tree.parse (String.ofList cs) = .ok t) : ∃ b, Fragment cs b := by
  obtain ⟨ts, a, hreads, hfold, -, -⟩ := parse_eq_ok_iff.1 h
  rw [String.toList_ofList] at hreads
  have hts : ∀ t ∈ ts, t.InBranch := by
    intro t ht
    obtain ⟨c, more, left, hsuffix, hread⟩ := hreads.exists_readToken ht
    have hmem : c ∈ cs := hsuffix.subset List.mem_cons_self
    rcases readToken_cases hread with hin | ⟨rfl, -⟩ | ⟨rfl, -⟩ | ⟨rfl, -⟩
    · exact hin
    · exact absurd hmem hbar
    · exact absurd hmem hclose
    · exact absurd hmem hopen
  rw [foldlM_step_eq hts] at hfold
  cases hnodes : ts.foldlM Token.extend Arrangement.start.level.nodes with
  | error e =>
    rw [hnodes] at hfold
    cases hfold
  | ok nodes =>
    refine ⟨nodes.reverse, ts, hreads, hts, ?_⟩
    rw [List.reverse_reverse]
    exact hnodes

/-! ### Plain characters -/

/-- Whether a character stands for itself, or for a place, wherever it is written. -/
def Plain (c : Char) : Prop := c ∉ Dotted.operators ∧ c ∉ ['?', '{', '[', '\\']

theorem readToken_plain {c : Char} (h : Plain c) :
    ∃ n, ∀ rest, readToken c rest = .ok (.atom n, rest) := by
  by_cases hspecial : c ∈ special
  · have hplaces : ∀ d ∈ special, Plain d → d = '^' ∨ d = '$' := by
      simp [special, Plain, Dotted.operators]
    rcases hplaces c hspecial h with rfl | rfl
    · exact ⟨_, fun _ => rfl⟩
    · exact ⟨_, fun _ => rfl⟩
  · exact ⟨.char c, fun rest => readToken_eq_ok_iff.2 (.char rest hspecial)⟩

theorem foldlM_extend_atoms (ns nodes : Branch) :
    (ns.map Token.atom).foldlM Token.extend nodes = .ok (ns.reverse ++ nodes) := by
  induction ns generalizing nodes with
  | nil => rfl
  | cons n ns ih =>
    rw [List.map_cons, List.foldlM_cons]
    show (ns.map Token.atom).foldlM Token.extend (n :: nodes) = _
    rw [ih, List.reverse_cons, List.append_assoc]
    rfl

/-- **Plain characters are fragments.** -/
theorem exists_fragment_of_plain {cs : List Char} (h : ∀ c ∈ cs, Plain c) :
    ∃ b, Fragment cs b := by
  have hatoms : ∃ ns : Branch, Reads cs (ns.map .atom) [] := by
    induction cs with
    | nil => exact ⟨[], .done []⟩
    | cons c cs ih =>
      obtain ⟨hc, hcs⟩ := List.forall_mem_cons.1 h
      obtain ⟨n, hn⟩ := readToken_plain hc
      obtain ⟨ns, hns⟩ := ih hcs
      exact ⟨n :: ns, .token (hn cs) hns⟩
  obtain ⟨ns, hns⟩ := hatoms
  refine ⟨ns, ns.map .atom, hns, ?_, ?_⟩
  · intro t ht
    obtain ⟨n, -, rfl⟩ := List.mem_map.1 ht
    trivial
  · rw [foldlM_extend_atoms, List.append_nil]

/-! ## Branches -/

/-- **Fragments between bars** are read as branches, before whatever delimiter comes next. -/
theorem exists_reads_branches {ws : List (List Char)} {branch : List Char → Branch} (hne : ws ≠ [])
    (h : ∀ w ∈ ws, Fragment w (branch w)) {d : Char} (hd : Delimiter d) (u : List Char) :
    ∃ ts, Reads (['|'].intercalate ws ++ d :: u) ts (d :: u) ∧
      ∀ a : Arrangement, a.level.nodes = [] → ∃ level,
        ts.foldlM Arrangement.step a = .ok { a with level := level } ∧
          level.finish = a.level.branches.reverse ++ ws.map branch := by
  induction ws with
  | nil => exact absurd rfl hne
  | cons w ws ih =>
    obtain ⟨⟨ts, hreads, hts, hfold⟩, hws⟩ := List.forall_mem_cons.1 h
    have hnodes : ∀ a : Arrangement, a.level.nodes = [] →
        ts.foldlM Arrangement.step a = .ok (a.withNodes (branch w).reverse) := by
      intro a ha
      rw [foldlM_step_eq hts, ha, hfold]
      rfl
    cases ws with
    | nil =>
      refine ⟨ts, ?_, fun a ha => ⟨_, hnodes a ha, ?_⟩⟩
      · rw [List.intercalate_singleton]
        exact hreads.before hd u
      · simp [Level.finish, Level.endBranch]
    | cons v vs =>
      obtain ⟨us, hreads', hfold'⟩ := ih (List.cons_ne_nil v vs) hws
      refine ⟨ts ++ .bar :: us, ?_, fun a ha => ?_⟩
      · rw [List.intercalate_cons_cons, List.append_assoc, List.append_assoc]
        exact (hreads.before (.inl rfl) _).append (.token rfl hreads')
      · -- the bar ends the branch of this fragment
        obtain ⟨level, hlevel, hfinish⟩ :=
          hfold' { a with level := ⟨branch w :: a.level.branches, []⟩ } rfl
        refine ⟨level, ?_, ?_⟩
        · rw [List.foldlM_append, hnodes a ha]
          show us.foldlM Arrangement.step
            { a with level := ⟨(branch w).reverse.reverse :: a.level.branches, []⟩ } = _
          rw [List.reverse_reverse]
          exact hlevel
        · rw [hfinish]
          simp

/-- **A repeated group of fragments.** -/
theorem parse_repeated_group {ws : List (List Char)} {branch : List Char → Branch} (hne : ws ≠ [])
    (h : ∀ w ∈ ws, Fragment w (branch w)) :
    Tree.parse (String.ofList ('(' :: ['|'].intercalate ws ++ [')', '+'])) =
      .ok ⟨[[.repetition 1 none (.group (.capture 1) (ws.map branch))]], 1⟩ := by
  obtain ⟨ts, hreads, hfold⟩ := exists_reads_branches hne h (.inr rfl) ['+']
  -- with a question mark after the parenthesis there would be nothing to repeat
  have hmark : ∀ more, ['|'].intercalate ws ++ [')', '+'] ≠ '?' :: more := by
    intro more heq
    rw [heq] at hreads
    obtain ⟨level, hlevel, -⟩ := hfold .start rfl
    cases hreads with
    | token head tail =>
      cases head
      cases hlevel
  obtain ⟨level, hlevel, hfinish⟩ := hfold ⟨1, .empty, [(.capture 1, .empty)]⟩ rfl
  have hend : Reads [')', '+'] [.closing, .quantifier 1 none] [] :=
    .token rfl (.token rfl (.done []))
  have hbody := hreads.append hend
  rw [parse_eq_ok_iff, String.toList_ofList, List.cons_append]
  refine ⟨.opening (some .capture) :: (ts ++ [.closing, .quantifier 1 none]),
    ⟨1, ⟨[], [.repetition 1 none (.group (.capture 1) level.finish)]⟩, []⟩,
    .token (readToken_paren hmark) hbody, ?_, rfl, ?_⟩
  · show (ts ++ [Token.closing, .quantifier 1 none]).foldlM Arrangement.step
      ⟨1, .empty, [(.capture 1, .empty)]⟩ = _
    rw [List.foldlM_append, hlevel]
    rfl
  · rw [hfinish]
    rfl

end SequenceConstraint.Syntax
