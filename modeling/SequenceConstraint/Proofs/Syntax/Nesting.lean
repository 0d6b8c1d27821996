import SequenceConstraint.Proofs.Syntax.Parentheses
import SequenceConstraint.Proofs.Syntax.WellFormed

/-!
# Parentheses and groups

Every group of a tree has an opening and a closing, around those of the groups in it
(`Tree.brackets`). In a tree that has been read they are the parentheses of the text, one for one
and in the same order, so whatever counts parentheses in the text counts groups of the tree.

## Main statements

* `Arrangement.parens_step` — an arrangement has the parentheses of its tokens
* `Node.nested` — the parentheses of a node match, and are open within its depth
* `Tree.parensMatch_of_parse` — the parentheses of a text are those of the groups it is read as
-/

namespace SequenceConstraint

open Syntax

/-! ## Brackets of a tree -/

/-- Where a group begins or ends. -/
inductive Bracket where
  | opening (kind : GroupKind) (branches : List (List Node))
  | closing

/-- How the opening of a group is written. -/
def GroupKind.paren : GroupKind → Paren
  | .capture _ => .opening false
  | .plain => .opening true
  | .lookahead _ => .opening true

def Bracket.paren : Bracket → Paren
  | .opening kind _ => kind.paren
  | .closing => .closing

/-- The capturing group that begins. -/
def Bracket.capturing? : Bracket → Option Node
  | .opening (.capture index) branches => some (.group (.capture index) branches)
  | _ => none

mutual

/-- The brackets of the groups in a node, in the order in which they are written. -/
def Node.brackets : Node → List Bracket
  | .group kind branches => .opening kind branches :: (branchesBrackets branches ++ [.closing])
  | .repetition _ _ body => body.brackets
  | _ => []

def branchBrackets : List Node → List Bracket
  | [] => []
  | n :: ns => n.brackets ++ branchBrackets ns

def branchesBrackets : List (List Node) → List Bracket
  | [] => []
  | b :: bs => branchBrackets b ++ branchesBrackets bs

end

def Tree.brackets (tree : Tree) : List Bracket := branchesBrackets tree.branches

/-- The capturing groups among some nodes. -/
def capturingGroups (nodes : List Node) : List Node := nodes.filter (·.captureIndex?.isSome)

theorem branchBrackets_append (b c : List Node) :
    branchBrackets (b ++ c) = branchBrackets b ++ branchBrackets c := by
  induction b with
  | nil => rfl
  | cons n ns ih => rw [List.cons_append, branchBrackets, ih, branchBrackets, List.append_assoc]

theorem branchesBrackets_append (bs cs : List (List Node)) :
    branchesBrackets (bs ++ cs) = branchesBrackets bs ++ branchesBrackets cs := by
  induction bs with
  | nil => rfl
  | cons b bs ih => rw [List.cons_append, branchesBrackets, ih, branchesBrackets, List.append_assoc]

theorem Node.Leaf.brackets_eq {n : Node} (h : n.Leaf) : n.brackets = [] := by
  cases n with
  | group kind branches => exact h.elim
  | repetition min max body => exact h.elim
  | _ => rfl

/-! ### What is nested -/

namespace Syntax

/-- The number of parentheses that open. -/
def openings (ps : List Paren) : Nat := ps.countP (· != .closing)

def closings (ps : List Paren) : Nat := ps.count .closing

/-- Whether parentheses match, with at most `depth` of them open at once. -/
structure Nested (depth : Nat) (ps : List Paren) : Prop where
  closed_le : ∀ front, front <+: ps → closings front ≤ openings front
  open_le : ∀ front, front <+: ps → openings front ≤ closings front + depth
  matched : openings ps = closings ps

namespace Nested

variable {depth depth' : Nat} {ps qs : List Paren}

theorem nil : Nested depth [] where
  closed_le front h := by
    rw [List.prefix_nil.1 h]
    exact Nat.le_refl 0
  open_le front h := by
    rw [List.prefix_nil.1 h]
    exact Nat.zero_le _
  matched := rfl

theorem mono (h : Nested depth ps) (hle : depth ≤ depth') : Nested depth' ps where
  closed_le := h.closed_le
  open_le front hfront := Nat.le_trans (h.open_le front hfront) (Nat.add_le_add_left hle _)
  matched := h.matched

theorem append (h : Nested depth ps) (h' : Nested depth qs) : Nested depth (ps ++ qs) := by
  have hopenings : ∀ back, openings (ps ++ back) = openings ps + openings back := fun _ =>
    List.countP_append
  have hclosings : ∀ back, closings (ps ++ back) = closings ps + closings back := fun _ =>
    List.count_append
  have hmatched := h.matched
  -- a front ends in the first part, or it has all of it
  have hfronts : ∀ front, front <+: ps ++ qs →
      front <+: ps ∨ ∃ back, front = ps ++ back ∧ back <+: qs := by
    intro front hfront
    rcases List.prefix_or_prefix_of_prefix hfront (List.prefix_append ps qs) with hle | ⟨back, rfl⟩
    · exact .inl hle
    · exact .inr ⟨back, rfl, (List.prefix_append_right_inj ps).1 hfront⟩
  refine ⟨fun front hfront => ?_, fun front hfront => ?_, ?_⟩
  · rcases hfronts front hfront with hfront | ⟨back, rfl, hback⟩
    · exact h.closed_le front hfront
    · rw [hopenings, hclosings]
      have := h'.closed_le back hback
      omega
  · rcases hfronts front hfront with hfront | ⟨back, rfl, hback⟩
    · exact h.open_le front hfront
    · rw [hopenings, hclosings]
      have := h'.open_le back hback
      omega
  · rw [hopenings, hclosings, hmatched, h'.matched]

/-- A pair of parentheses around others. -/
theorem enclosed (h : Nested depth ps) (marked : Bool) :
    Nested (depth + 1) (.opening marked :: (ps ++ [.closing])) := by
  have hopenings : ∀ front, openings (.opening marked :: front) = openings front + 1 := by
    simp [openings]
  have hclosings : ∀ front, closings (.opening marked :: front) = closings front := by
    simp [closings]
  have hend : openings (ps ++ [.closing]) = openings ps ∧
      closings (ps ++ [.closing]) = closings ps + 1 := by
    simp [openings, closings]
  have hmatched := h.matched
  refine ⟨fun front hfront => ?_, fun front hfront => ?_, ?_⟩
  · rcases List.prefix_cons_iff.1 hfront with rfl | ⟨body, rfl, hbody⟩
    · exact Nat.le_refl 0
    · rw [hopenings, hclosings]
      rcases List.prefix_concat_iff.1 hbody with rfl | hbody
      · omega
      · exact Nat.le_succ_of_le (h.closed_le body hbody)
  · rcases List.prefix_cons_iff.1 hfront with rfl | ⟨body, rfl, hbody⟩
    · exact Nat.zero_le _
    · rw [hopenings, hclosings]
      rcases List.prefix_concat_iff.1 hbody with rfl | hbody
      · omega
      · exact Nat.succ_le_succ (h.open_le body hbody)
  · rw [hopenings, hclosings]
    omega

end Nested

end Syntax

theorem nested_branch {branch : List Node} {depth : Nat}
    (h : ∀ n ∈ branch, Nested n.depth (n.brackets.map Bracket.paren))
    (hdepth : branchDepth branch ≤ depth) :
    Nested depth ((branchBrackets branch).map Bracket.paren) := by
  induction branch with
  | nil => exact .nil
  | cons n ns ih =>
    obtain ⟨hn, hns⟩ := List.forall_mem_cons.1 h
    rw [branchDepth, Nat.max_le] at hdepth
    rw [branchBrackets, List.map_append]
    exact (hn.mono hdepth.1).append (ih hns hdepth.2)

theorem nested_branches {branches : List (List Node)} {depth : Nat}
    (h : ∀ b ∈ branches, ∀ n ∈ b, Nested n.depth (n.brackets.map Bracket.paren))
    (hdepth : branchesDepth branches ≤ depth) :
    Nested depth ((branchesBrackets branches).map Bracket.paren) := by
  induction branches with
  | nil => exact .nil
  | cons b bs ih =>
    obtain ⟨hb, hbs⟩ := List.forall_mem_cons.1 h
    rw [branchesDepth, Nat.max_le] at hdepth
    rw [branchesBrackets, List.map_append]
    exact (nested_branch hb hdepth.1).append (ih hbs hdepth.2)

/-- **The parentheses of a node match,** and are open within its depth. -/
theorem Node.nested (n : Node) : Nested n.depth (n.brackets.map Bracket.paren) := by
  induction n with
  | char c => exact .nil
  | charClass k => exact .nil
  | anchor a => exact .nil
  | backreference index => exact .nil
  | group kind branches ih =>
    have hbody := nested_branches ih (Nat.le_refl (branchesDepth branches))
    have hkind : ∃ marked, kind.paren = .opening marked := by cases kind <;> exact ⟨_, rfl⟩
    obtain ⟨marked, hmarked⟩ := hkind
    rw [Node.depth, Node.brackets, List.map_cons, List.map_append, Bracket.paren, hmarked]
    exact hbody.enclosed marked
  | marked min max body ih => exact ih
  | repetition min max body hm ih => exact ih

/-! ### Capturing groups -/

theorem capturingGroups_append (ns ms : List Node) :
    capturingGroups (ns ++ ms) = capturingGroups ns ++ capturingGroups ms :=
  List.filter_append ns ms

theorem capturing_branch {branch : List Node}
    (h : ∀ n ∈ branch, n.brackets.filterMap Bracket.capturing? = capturingGroups n.nodes) :
    (branchBrackets branch).filterMap Bracket.capturing? =
      capturingGroups (branchNodes branch) := by
  induction branch with
  | nil => rfl
  | cons n ns ih =>
    obtain ⟨hn, hns⟩ := List.forall_mem_cons.1 h
    rw [branchBrackets, branchNodes, List.filterMap_append, capturingGroups_append, hn, ih hns]

theorem capturing_branches {branches : List (List Node)}
    (h : ∀ b ∈ branches, ∀ n ∈ b,
      n.brackets.filterMap Bracket.capturing? = capturingGroups n.nodes) :
    (branchesBrackets branches).filterMap Bracket.capturing? =
      capturingGroups (branchesNodes branches) := by
  induction branches with
  | nil => rfl
  | cons b bs ih =>
    obtain ⟨hb, hbs⟩ := List.forall_mem_cons.1 h
    rw [branchesBrackets, branchesNodes, List.filterMap_append, capturingGroups_append,
      capturing_branch hb, ih hbs]

/-- **The capturing groups begin in the order** in which they stand in the tree. -/
theorem Node.capturing_brackets (n : Node) :
    n.brackets.filterMap Bracket.capturing? = capturingGroups n.nodes := by
  induction n with
  | char c => rfl
  | charClass k => rfl
  | anchor a => rfl
  | backreference index => rfl
  | group kind branches ih =>
    have hbody := capturing_branches ih
    have hend : (branchesBrackets branches ++ [Bracket.closing]).filterMap Bracket.capturing? =
        capturingGroups (branchesNodes branches) := by
      rw [List.filterMap_append, hbody]
      exact List.append_nil _
    cases kind with
    | capture index => exact congrArg (Node.group (.capture index) branches :: ·) hend
    | plain => exact hend
    | lookahead negative => exact hend
  | marked min max body ih => exact ih
  | repetition min max body hm ih => exact ih

theorem Tree.capturing_brackets (tree : Tree) :
    tree.brackets.filterMap Bracket.capturing? = capturingGroups tree.nodes :=
  capturing_branches fun _ _ n _ => n.capturing_brackets

theorem eq_opening_of_capturing? {b : Bracket} {index : Nat} {branches : List (List Node)}
    (h : b.capturing? = some (.group (.capture index) branches)) :
    b = .opening (.capture index) branches := by
  unfold Bracket.capturing? at h
  split at h
  · cases h
    rfl
  · cases h

/-- Where a value of a list comes from that some members do not give one to. -/
theorem exists_of_getElem?_filterMap {α β : Type} {f : α → Option β} {l : List α} {k : Nat} {b : β}
    (h : (l.filterMap f)[k]? = some b) :
    ∃ front a back, l = front ++ a :: back ∧ (front.filterMap f).length = k ∧ f a = some b := by
  obtain ⟨hk, hb⟩ := List.getElem?_eq_some_iff.1 h
  have hsplit := (List.take_append_drop k (l.filterMap f)).symm
  rw [List.drop_eq_getElem_cons hk, hb] at hsplit
  obtain ⟨front, rest, rfl, hfront, hrest⟩ := List.filterMap_eq_append_iff.1 hsplit
  obtain ⟨skipped, a, back, rfl, hskipped, ha, -⟩ := List.filterMap_eq_cons_iff.1 hrest
  refine ⟨front ++ skipped, a, back, (List.append_assoc _ _ _).symm, ?_, ha⟩
  rw [List.filterMap_append, hfront, List.filterMap_eq_nil_iff.2 hskipped, List.append_nil,
    List.length_take, Nat.min_eq_left (Nat.le_of_lt hk)]

/-- An opening without a mark is that of a capturing group. -/
theorem count_opening (bs : List Bracket) :
    (bs.map Bracket.paren).count (.opening false) =
      (bs.filterMap Bracket.capturing?).length := by
  induction bs with
  | nil => rfl
  | cons b bs ih =>
    rw [List.map_cons, List.count_cons, ih, List.filterMap_cons]
    cases b with
    | closing => rfl
    | opening kind branches => cases kind <;> rfl

/-- Each capturing group has its index. -/
theorem map_captureIndex?_capturingGroups (nodes : List Node) :
    (capturingGroups nodes).map Node.captureIndex? = (captureIndices nodes).map some := by
  induction nodes with
  | nil => rfl
  | cons n ns ih =>
    rw [capturingGroups, captureIndices, List.filter_cons, List.filterMap_cons]
    cases hindex : n.captureIndex? with
    | none => exact ih
    | some index =>
      rw [Option.isSome_some, if_pos rfl, List.map_cons, List.map_cons, hindex]
      exact congrArg (some index :: ·) ih

theorem eq_group_of_captureIndex? {n : Node} {index : Nat} (h : n.captureIndex? = some index) :
    ∃ branches, n = .group (.capture index) branches := by
  unfold Node.captureIndex? at h
  split at h
  · cases h
    exact ⟨_, rfl⟩
  · cases h

namespace Syntax

/-! ## Arrangements -/

/-- The parentheses of an alternation as far as it has been read. -/
def Level.parens (level : Level) : List Paren := (branchesBrackets level.finish).map Bracket.paren

/-- The parentheses in the alternations that wait, and those of the groups they wait for. -/
def openParens : List (GroupKind × Level) → List Paren
  | [] => []
  | (kind, level) :: outer => openParens outer ++ (level.parens ++ [kind.paren])

namespace Level

variable (level : Level)

theorem parens_eq : level.parens =
    (branchesBrackets level.branches.reverse ++ branchBrackets level.nodes.reverse).map
      Bracket.paren := by
  rw [parens, finish_eq, branchesBrackets_append, branchesBrackets, branchesBrackets,
    List.append_nil]

theorem parens_push (node : Node) :
    (level.push node).parens = level.parens ++ node.brackets.map Bracket.paren := by
  rw [parens_eq, parens_eq, push, List.reverse_cons, branchBrackets_append, branchBrackets,
    branchBrackets, List.append_nil, ← List.append_assoc, List.map_append]

theorem parens_endBranch : level.endBranch.parens = level.parens := by
  have hnone : branchBrackets (List.reverse []) = [] := rfl
  rw [parens_eq, endBranch, List.reverse_cons, ← finish_eq, hnone, List.append_nil, parens]

end Level

namespace Arrangement

/-- The parentheses that have been read. -/
def parens (a : Arrangement) : List Paren := openParens a.outer ++ a.level.parens

variable {a a' : Arrangement}

theorem parens_quantify {questionMark : Bool} {min : Nat} {max : Option Nat}
    (h : a.quantify questionMark min max = .ok a') : a'.parens = a.parens := by
  unfold Arrangement.quantify at h
  split at h
  · cases h
  · rename_i node nodes hnodes
    split at h
    · cases h
      -- the groups in a repeated node are those in the node
      have hlevel : a.level = Level.push ⟨a.level.branches, nodes⟩ node := by
        rw [Level.push, ← hnodes]
      rw [parens, parens, hlevel, Level.parens_push]
      show openParens a.outer ++
        (Level.push ⟨a.level.branches, nodes⟩ (.repetition min max node)).parens = _
      rw [Level.parens_push]
      rfl
    · cases h

theorem parens_openGroup {kind : Option Opening} (h : a.openGroup kind = .ok a') :
    a'.parens = a.parens ++ [.opening (kind != some .capture)] := by
  have hempty : Level.empty.parens = [] := rfl
  unfold Arrangement.openGroup at h
  split at h
  · cases h
  · split at h
    · cases h
    all_goals
      cases h
      rw [parens, parens, openParens, hempty, List.append_nil, List.append_assoc]
      rfl

theorem parens_closeGroup (h : a.closeGroup = .ok a') : a'.parens = a.parens ++ [.closing] := by
  unfold Arrangement.closeGroup at h
  split at h
  · cases h
  · rename_i kind level outer houter
    cases h
    rw [parens, parens, houter, openParens]
    show openParens outer ++ (level.push (.group kind a.level.finish)).parens = _
    rw [Level.parens_push, Node.brackets, List.map_cons, List.map_append]
    simp only [List.append_assoc]
    rfl

/-- **An arrangement has the parentheses of its tokens.** -/
theorem parens_step {token : Token} (hatom : ∀ n, token = .atom n → n.Leaf)
    (h : a.step token = .ok a') : a'.parens = a.parens ++ token.parens := by
  cases token with
  | atom node =>
    cases h
    show openParens a.outer ++ (a.level.push node).parens = _
    rw [Level.parens_push, (hatom node rfl).brackets_eq]
    exact (List.append_assoc _ _ _).symm
  | quantifier min max => exact (parens_quantify h).trans (List.append_nil _).symm
  | questionMark => exact (parens_quantify h).trans (List.append_nil _).symm
  | opening kind => exact parens_openGroup h
  | closing => exact parens_closeGroup h
  | bar =>
    cases h
    show openParens a.outer ++ a.level.endBranch.parens = _
    rw [Level.parens_endBranch]
    exact (List.append_nil _).symm

theorem parens_foldlM {ts : List Token} (hatoms : ∀ n, .atom n ∈ ts → n.Leaf)
    (h : ts.foldlM Arrangement.step a = .ok a') :
    a'.parens = a.parens ++ ts.flatMap Token.parens := by
  induction ts generalizing a with
  | nil =>
    cases h
    exact (List.append_nil _).symm
  | cons t ts ih =>
    obtain ⟨a₁, hfirst, hrest⟩ := foldlM_cons_eq_ok_iff.1 h
    have hleaf : ∀ n, t = .atom n → n.Leaf := fun n hn => hatoms n (hn ▸ List.mem_cons_self)
    rw [ih (fun n hn => hatoms n (List.mem_cons_of_mem t hn)) hrest, parens_step hleaf hfirst,
      List.flatMap_cons, List.append_assoc]

end Arrangement

end Syntax

/-! ## Texts and trees -/

/-- The parentheses of a text are the brackets of the tree it is read as. -/
theorem Tree.parens_eq_brackets {pattern : String} {tree : Tree}
    (h : Tree.parse pattern = .ok tree) :
    parens pattern.toList = tree.brackets.map Bracket.paren := by
  obtain ⟨ts, a, hreads, hfold, houter, rfl⟩ := parse_eq_ok_iff.1 h
  have hatoms : ∀ n, .atom n ∈ ts → n.Leaf := by
    intro n hn
    obtain ⟨c, more, left, -, hread⟩ := hreads.exists_readToken hn
    exact leaf_readToken hread
  have hparens := Arrangement.parens_foldlM hatoms hfold
  rw [Arrangement.parens, houter] at hparens
  rw [hreads.parens_eq]
  exact hparens.symm

/-- Whether the parentheses of a text are those of the groups of a tree: they match, at most 128 of
them are open at once, they are the brackets of the tree in their order, and the openings without a
mark are those of the capturing groups, which have the indices from 1 on. -/
structure Tree.ParensMatch (tree : Tree) (pattern : String) : Prop where
  nested : Nested 128 (parens pattern.toList)
  brackets : parens pattern.toList = tree.brackets.map Bracket.paren
  captures : (parens pattern.toList).count (.opening false) = tree.captures
  capture : ∀ k < tree.captures, ∃ front branches back,
    tree.brackets = front ++ .opening (.capture (k + 1)) branches :: back ∧
      (front.map Bracket.paren).count (.opening false) = k ∧
      (capturingGroups tree.nodes)[k]? = some (.group (.capture (k + 1)) branches)

/-- **The parentheses of a text are those of the groups it is read as.** -/
theorem Tree.parensMatch_of_parse {pattern : String} {tree : Tree}
    (h : Tree.parse pattern = .ok tree) : tree.ParensMatch pattern := by
  have hparens := Tree.parens_eq_brackets h
  have hindices := Tree.captureIndices_of_parse h
  have hlength : (capturingGroups tree.nodes).length = tree.captures := by
    have hmap := congrArg List.length (map_captureIndex?_capturingGroups tree.nodes)
    rwa [List.length_map, List.length_map, hindices, List.length_range'] at hmap
  refine ⟨?_, hparens, ?_, fun k hk => ?_⟩
  · rw [hparens]
    exact nested_branches (fun _ _ n _ => n.nested) (Tree.depth_of_parse h)
  · rw [hparens, count_opening, Tree.capturing_brackets, hlength]
  · obtain ⟨g, hg⟩ : ∃ g, (capturingGroups tree.nodes)[k]? = some g :=
      ⟨_, List.getElem?_eq_getElem (by rwa [hlength])⟩
    -- the indices of the groups are the numbers from 1 on
    have hindex : g.captureIndex? = some (k + 1) := by
      have hmap := congrArg (·[k]?) (map_captureIndex?_capturingGroups tree.nodes)
      simp only [List.getElem?_map, hg, hindices, List.getElem?_range' hk, Option.map_some] at hmap
      rw [Option.some.inj hmap, Nat.one_mul, Nat.add_comm]
    obtain ⟨branches, rfl⟩ := eq_group_of_captureIndex? hindex
    rw [← Tree.capturing_brackets] at hg
    obtain ⟨front, b, back, hbrackets, hcount, hb⟩ := exists_of_getElem?_filterMap hg
    rw [Tree.capturing_brackets] at hg
    refine ⟨front, branches, back, ?_, (count_opening front).trans hcount, hg⟩
    rw [hbrackets, eq_opening_of_capturing? hb]

/-- Parentheses in a class and behind a backslash belong to no group. -/
theorem Tree.parensMatch_escaped :
    Tree.parse (String.ofList ['(', '?', ':', '(', '[', '(', '\\', ']', ']', ')', '\\', ')', ')',
        '(', 'a', ')']) =
        .ok ⟨[[.group .plain [[.group (.capture 1) [[.charClass ⟨false, [.char '(', .char ']']⟩]],
          .char ')']], .group (.capture 2) [[.char 'a']]]], 2⟩ ∧
      Tree.ParensMatch ⟨[[.group .plain [[.group (.capture 1)
        [[.charClass ⟨false, [.char '(', .char ']']⟩]], .char ')']],
          .group (.capture 2) [[.char 'a']]]], 2⟩
        (String.ofList ['(', '?', ':', '(', '[', '(', '\\', ']', ']', ')', '\\', ')', ')', '(', 'a',
          ')']) := by
  have hclass : ∀ rest, readToken '[' ('(' :: '\\' :: ']' :: ']' :: rest) =
      .ok (.atom (.charClass ⟨false, [.char '(', .char ']']⟩), rest) := by
    intro rest
    have hmembers : readMembers [] ('(' :: '\\' :: ']' :: ']' :: rest) =
        .ok ([.char '(', .char ']'], rest) := by
      rw [readMembers_cons (by decide)]
      show readMembers [.char '('] ('\\' :: ']' :: ']' :: rest) = _
      rw [readMembers_cons (by decide)]
      show readMembers [.char ']', .char '('] (']' :: rest) = _
      rw [readMembers]
      rfl
    show (readClass _).map _ = _
    rw [readClass]
    show ((readMembers [] ('(' :: '\\' :: ']' :: ']' :: rest)).map _).map _ = _
    rw [hmembers]
    rfl
  have hreads : Reads
      ['(', '?', ':', '(', '[', '(', '\\', ']', ']', ')', '\\', ')', ')', '(', 'a', ')']
      [.opening (some .plain), .opening (some .capture),
        .atom (.charClass ⟨false, [.char '(', .char ']']⟩), .closing, .atom (.char ')'), .closing,
        .opening (some .capture), .atom (.char 'a'), .closing] [] :=
    .token rfl (.token rfl (.token (hclass _) (.token rfl (.token rfl (.token rfl
      (.token rfl (.token rfl (.token rfl (.done [])))))))))
  refine ⟨?parse, Tree.parensMatch_of_parse ?parse⟩
  rw [parse_eq_ok_iff, String.toList_ofList]
  exact ⟨_, ⟨2, ⟨[], [.group (.capture 2) [[.char 'a']], .group .plain [[.group (.capture 1)
    [[.charClass ⟨false, [.char '(', .char ']']⟩]], .char ')']]]⟩, []⟩, hreads, rfl, rfl, rfl⟩

end SequenceConstraint
