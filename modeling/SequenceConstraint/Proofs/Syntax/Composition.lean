import SequenceConstraint.Proofs.Syntax.Letters
import SequenceConstraint.Proofs.Syntax.WellFormed

/-!
# Texts put together

A text that can be read is read alike before a bar and within parentheses, and what comes after the
bar is read as if it stood alone, but for the numbers of its groups: these go on from those before.
So the arrangement of some tokens by themselves is found again in the arrangement of the whole, with
the numbers raised, the branches before it finished and the group around it open
(`Arrangement.raiseOn`). The one thing that can go wrong is the depth, which counts that group too.

## Main statements

* `Arrangement.step_raiseOn` — a token does the same after other branches
* `Arrangement.step_raiseOn_within` — and within a group, unless groups are nested too deeply
* `Tree.parse_composes` — how two texts with a bar, and a text in parentheses, are read
-/

namespace SequenceConstraint

open Syntax

/-! ## Groups with other numbers -/

/-- A kind of group with its index raised by `k`. -/
def GroupKind.raise (k : Nat) : GroupKind → GroupKind
  | .capture index => .capture (k + index)
  | kind => kind

mutual

/-- A node with the indices of the capturing groups in it raised by `k`. -/
def Node.raise (k : Nat) : Node → Node
  | .group kind branches => .group (kind.raise k) (raiseBranches k branches)
  | .repetition min max body => .repetition min max (body.raise k)
  | n => n

def raiseBranch (k : Nat) : List Node → List Node
  | [] => []
  | n :: ns => n.raise k :: raiseBranch k ns

def raiseBranches (k : Nat) : List (List Node) → List (List Node)
  | [] => []
  | b :: bs => raiseBranch k b :: raiseBranches k bs

end

section Raise

variable {k : Nat}

theorem raiseBranch_eq (b : List Node) : raiseBranch k b = b.map (·.raise k) := by
  induction b with
  | nil => rfl
  | cons n ns ih => rw [raiseBranch, ih, List.map_cons]

theorem raiseBranches_eq (bs : List (List Node)) :
    raiseBranches k bs = bs.map (raiseBranch k) := by
  induction bs with
  | nil => rfl
  | cons b bs ih => rw [raiseBranches, ih, List.map_cons]

theorem Node.Leaf.raise_eq {n : Node} (h : n.Leaf) : n.raise k = n := by
  cases n with
  | group kind branches => exact h.elim
  | repetition min max body => exact h.elim
  | _ => rfl

theorem quantifiable_raise (questionMark : Bool) (n : Node) :
    Arrangement.quantifiable questionMark (n.raise k) =
      Arrangement.quantifiable questionMark n := by
  cases n with
  | repetition min max body => cases body <;> rfl
  | _ => rfl

theorem branchDepth_raise {b : List Node} (h : ∀ n ∈ b, (n.raise k).depth = n.depth) :
    branchDepth (raiseBranch k b) = branchDepth b := by
  induction b with
  | nil => rfl
  | cons n ns ih =>
    obtain ⟨hn, hns⟩ := List.forall_mem_cons.1 h
    rw [raiseBranch, branchDepth, branchDepth, hn, ih hns]

theorem branchesDepth_raise_of {bs : List (List Node)}
    (h : ∀ b ∈ bs, ∀ n ∈ b, (n.raise k).depth = n.depth) :
    branchesDepth (raiseBranches k bs) = branchesDepth bs := by
  induction bs with
  | nil => rfl
  | cons b bs ih =>
    obtain ⟨hb, hbs⟩ := List.forall_mem_cons.1 h
    rw [raiseBranches, branchesDepth, branchesDepth, branchDepth_raise hb, ih hbs]

theorem Node.depth_raise (n : Node) : (n.raise k).depth = n.depth := by
  induction n with
  | char c => rfl
  | charClass l => rfl
  | anchor a => rfl
  | backreference index => rfl
  | group kind branches ih => exact congrArg (· + 1) (branchesDepth_raise_of ih)
  | marked min max body ih => exact ih
  | repetition min max body hm ih => exact ih

theorem branchesDepth_raise (bs : List (List Node)) :
    branchesDepth (raiseBranches k bs) = branchesDepth bs :=
  branchesDepth_raise_of fun _ _ n _ => n.depth_raise

end Raise

namespace Syntax

/-! ## Arrangements in other surroundings -/

/-- An alternation with raised numbers, after the branches `below`, latest first. -/
def Level.raiseOn (k : Nat) (below : List Branch) (level : Level) : Level :=
  ⟨raiseBranches k level.branches ++ below, raiseBranch k level.nodes⟩

/-- Open groups with raised numbers. The branches `below` come before the outermost alternation. -/
def raiseOuter (k : Nat) (below : List Branch) :
    List (GroupKind × Level) → List (GroupKind × Level)
  | [] => []
  | (kind, level) :: outer =>
    (kind.raise k, level.raiseOn k (if outer.isEmpty then below else [])) ::
      raiseOuter k below outer

namespace Level

variable {k : Nat} {below : List Branch} (level : Level)

theorem raiseOn_push (node : Node) :
    (level.push node).raiseOn k below = (level.raiseOn k below).push (node.raise k) := rfl

theorem raiseOn_endBranch :
    level.endBranch.raiseOn k below = (level.raiseOn k below).endBranch := by
  simp [raiseOn, endBranch, raiseBranches, raiseBranch_eq, List.map_reverse]

theorem finish_raiseOn :
    (level.raiseOn k below).finish = below.reverse ++ raiseBranches k level.finish := by
  simp [finish, endBranch, raiseOn, raiseBranches_eq, raiseBranch_eq, List.map_reverse]

end Level

namespace Arrangement

/-- An arrangement with raised numbers, after the branches `below` and within the groups
`outside`. -/
def raiseOn (k : Nat) (below : List Branch) (outside : List (GroupKind × Level)) (a : Arrangement) :
    Arrangement where
  captures := k + a.captures
  level := a.level.raiseOn k (if a.outer.isEmpty then below else [])
  outer := raiseOuter k below a.outer ++ outside

variable {k : Nat} {below : List Branch} {outside : List (GroupKind × Level)} {a a' : Arrangement}

theorem length_raiseOuter (outer : List (GroupKind × Level)) :
    (raiseOuter k below outer).length = outer.length := by
  induction outer with
  | nil => rfl
  | cons g outer ih => rw [raiseOuter, List.length_cons, List.length_cons, ih]

theorem quantify_raiseOn (questionMark : Bool) (min : Nat) (max : Option Nat) :
    (a.raiseOn k below outside).quantify questionMark min max =
      (a.quantify questionMark min max).map (raiseOn k below outside) := by
  unfold quantify
  obtain ⟨captures, ⟨branches, nodes⟩, outer⟩ := a
  cases nodes with
  | nil => rfl
  | cons node nodes =>
    show (if quantifiable questionMark (node.raise k) then _ else _) = _
    rw [quantifiable_raise]
    show _ = Except.map _ (if quantifiable questionMark node then _ else _)
    split
    · rfl
    · rfl

/-- An opening that is within the depth in its surroundings. -/
theorem openGroup_raiseOn {kind : Option Opening} (h : a.openGroup kind = .ok a')
    (hdepth : a.outer.length + outside.length < maxDepth) :
    (a.raiseOn k below outside).openGroup kind = .ok (a'.raiseOn k below outside) := by
  have hlength : ¬maxDepth ≤ (a.raiseOn k below outside).outer.length := by
    show ¬maxDepth ≤ (raiseOuter k below a.outer ++ outside).length
    rw [List.length_append, length_raiseOuter]
    omega
  unfold openGroup at h ⊢
  rw [if_neg hlength]
  split at h
  · cases h
  · split at h
    · cases h
    · cases h
      rfl
    · cases h
      rfl
    · cases h
      rfl

theorem closeGroup_raiseOn (h : a.closeGroup = .ok a') :
    (a.raiseOn k below outside).closeGroup = .ok (a'.raiseOn k below outside) := by
  obtain ⟨captures, inner, outer⟩ := a
  unfold closeGroup at h ⊢
  cases outer with
  | nil => cases h
  | cons g outer =>
    obtain ⟨kind, level⟩ := g
    cases h
    show Except.ok _ = Except.ok _
    rw [raiseOn, raiseOn, Level.raiseOn_push]
    simp only [List.isEmpty_cons, Bool.false_eq_true, if_false, Level.finish_raiseOn,
      List.reverse_nil, List.nil_append]
    rfl

theorem bar_raiseOn :
    ({ a with level := a.level.endBranch } : Arrangement).raiseOn k below outside =
      { a.raiseOn k below outside with level := (a.raiseOn k below outside).level.endBranch } := by
  simp only [raiseOn, Level.raiseOn_endBranch]

theorem length_outer_of_openGroup {kind : Option Opening} (h : a.openGroup kind = .ok a') :
    a.outer.length < maxDepth ∧ a'.outer.length = a.outer.length + 1 := by
  unfold openGroup at h
  split at h
  · cases h
  · rename_i hdepth
    refine ⟨Nat.lt_of_not_le hdepth, ?_⟩
    split at h
    · cases h
    all_goals
      cases h
      rfl

/-- **Within groups a token does the same,** or they are nested too deeply. -/
theorem step_raiseOn_within (k : Nat) (below : List Branch) (outside : List (GroupKind × Level))
    {t : Token} (hatom : ∀ n, t = .atom n → n.Leaf)
    (h : a.step t = .ok a') :
    (a.raiseOn k below outside).step t = .ok (a'.raiseOn k below outside) ∨
      (a.raiseOn k below outside).step t = .error .tooDeep ∧ a.outer.length < maxDepth ∧
        a'.outer.length = a.outer.length + 1 ∧ maxDepth ≤ a.outer.length + outside.length := by
  cases t with
  | atom node =>
    cases h
    refine .inl ?_
    show Except.ok _ = Except.ok _
    rw [raiseOn, raiseOn, Level.raiseOn_push, (hatom node rfl).raise_eq]
  | quantifier min max =>
    refine .inl ?_
    show (a.raiseOn k below outside).quantify false min max = _
    rw [quantify_raiseOn]
    exact congrArg (Except.map (raiseOn k below outside)) h
  | questionMark =>
    refine .inl ?_
    show (a.raiseOn k below outside).quantify true 0 (some 1) = _
    rw [quantify_raiseOn]
    exact congrArg (Except.map (raiseOn k below outside)) h
  | opening kind =>
    by_cases hdepth : a.outer.length + outside.length < maxDepth
    · exact .inl (openGroup_raiseOn h hdepth)
    · obtain ⟨hlt, hlength⟩ := length_outer_of_openGroup h
      refine .inr ⟨?_, hlt, hlength, Nat.le_of_not_lt hdepth⟩
      have hle : maxDepth ≤ (a.raiseOn k below outside).outer.length := by
        show maxDepth ≤ (raiseOuter k below a.outer ++ outside).length
        rw [List.length_append, length_raiseOuter]
        omega
      show openGroup kind _ = _
      unfold openGroup
      rw [if_pos hle]
  | closing => exact .inl (closeGroup_raiseOn h)
  | bar =>
    cases h
    exact .inl (congrArg Except.ok bar_raiseOn.symm)

/-- What cannot be arranged cannot be arranged after other branches. -/
theorem step_raiseOn_error {t : Token} {e : ParseErrorKind} (h : a.step t = .error e) :
    (a.raiseOn k below []).step t = .error e := by
  have hquantify : ∀ questionMark min max, a.quantify questionMark min max = .error e →
      (a.raiseOn k below []).quantify questionMark min max = .error e := by
    intro questionMark min max h
    rw [quantify_raiseOn, h]
    rfl
  have hlength : (a.raiseOn k below []).outer.length = a.outer.length := by
    show (raiseOuter k below a.outer ++ []).length = _
    rw [List.append_nil, length_raiseOuter]
  cases t with
  | atom node => cases h
  | quantifier min max => exact hquantify false min max h
  | questionMark => exact hquantify true 0 (some 1) h
  | opening kind =>
    change openGroup kind _ = _ at h ⊢
    unfold openGroup at h ⊢
    rw [hlength]
    by_cases hdepth : maxDepth ≤ a.outer.length
    · rw [if_pos hdepth] at h ⊢
      exact h
    · rw [if_neg hdepth] at h ⊢
      cases kind with
      | none => exact h
      | some kind => cases kind <;> cases h
  | closing =>
    change closeGroup _ = _ at h ⊢
    unfold closeGroup at h ⊢
    obtain ⟨captures, level, outer⟩ := a
    cases outer with
    | nil =>
      cases h
      rfl
    | cons g outer => cases h
  | bar => cases h

/-- **After other branches a token does the same.** -/
theorem step_raiseOn {t : Token} (hatom : ∀ n, t = .atom n → n.Leaf) :
    (a.raiseOn k below []).step t = (a.step t).map (raiseOn k below []) := by
  cases h : a.step t with
  | error e => exact step_raiseOn_error h
  | ok a' =>
    rcases step_raiseOn_within k below [] hatom h with hok | ⟨-, hlt, -, hle⟩
    · exact hok
    · exact absurd hle (Nat.not_le_of_lt hlt)

theorem foldlM_raiseOn {ts : List Token} (hatoms : ∀ n, .atom n ∈ ts → n.Leaf) :
    ts.foldlM step (a.raiseOn k below []) = (ts.foldlM step a).map (raiseOn k below []) := by
  induction ts generalizing a with
  | nil => rfl
  | cons t ts ih =>
    have hleaf : ∀ n, t = .atom n → n.Leaf := fun n hn => hatoms n (hn ▸ List.mem_cons_self)
    rw [List.foldlM_cons, List.foldlM_cons, step_raiseOn hleaf]
    cases a.step t with
    | error e => rfl
    | ok a₁ => exact ih fun n hn => hatoms n (List.mem_cons_of_mem t hn)

/-! ### Depth -/

/-- How deep groups are nested in the alternations that wait, each in those after it. -/
def openDepth : List (GroupKind × Level) → Nat
  | [] => 0
  | (_, level) :: outer => max (level.depth + outer.length) (openDepth outer)

/-- How deep groups are nested in what has been read. -/
def depth (a : Arrangement) : Nat := max (a.level.depth + a.outer.length) (openDepth a.outer)

theorem length_outer_le_depth (a : Arrangement) : a.outer.length ≤ a.depth :=
  Nat.le_trans (Nat.le_add_left _ _) (Nat.le_max_left _ _)

theorem depth_quantify {questionMark : Bool} {min : Nat} {max : Option Nat}
    (h : a.quantify questionMark min max = .ok a') : a'.depth = a.depth := by
  unfold quantify at h
  split at h
  · cases h
  · rename_i node nodes hnodes
    split at h
    · cases h
      -- a repeated node is as deep as the node
      have hlevel : a.level = Level.push ⟨a.level.branches, nodes⟩ node := by
        rw [Level.push, ← hnodes]
      have hdepth : (Level.push ⟨a.level.branches, nodes⟩ (.repetition min max node)).depth =
          a.level.depth := by
        rw [hlevel, Level.depth_push, Level.depth_push]
        rfl
      rw [depth, depth, ← hdepth]
      rfl
    · cases h

/-- Nothing that is read takes from the depth. -/
theorem depth_le_of_step {t : Token} (h : a.step t = .ok a') : a.depth ≤ a'.depth := by
  obtain ⟨captures, inner, outer⟩ := a
  cases t with
  | atom node =>
    cases h
    show max (inner.depth + outer.length) (openDepth outer) ≤
      max ((inner.push node).depth + outer.length) (openDepth outer)
    rw [Level.depth_push]
    omega
  | quantifier min max => exact Nat.le_of_eq (depth_quantify h).symm
  | questionMark => exact Nat.le_of_eq (depth_quantify h).symm
  | opening kind =>
    change openGroup kind _ = _ at h
    unfold openGroup at h
    split at h
    · cases h
    · split at h
      · cases h
      all_goals
        cases h
        exact Nat.le_max_right _ _
  | closing =>
    cases outer with
    | nil => cases h
    | cons g outer =>
      obtain ⟨kind, level⟩ := g
      cases h
      -- the group is one deeper than its alternation, and stands in one group less
      have hgroup : (Node.group kind inner.finish).depth = inner.depth + 1 := rfl
      show max (inner.depth + (outer.length + 1))
          (max (level.depth + outer.length) (openDepth outer)) ≤
        max ((level.push (.group kind inner.finish)).depth + outer.length) (openDepth outer)
      rw [Level.depth_push, hgroup]
      omega
  | bar =>
    cases h
    show max (inner.depth + outer.length) (openDepth outer) ≤
      max (inner.endBranch.depth + outer.length) (openDepth outer)
    have hdepth : inner.endBranch.depth = inner.depth := Level.depth_endBranch ..
    exact Nat.le_of_eq (by rw [hdepth])

theorem depth_le_of_foldlM {ts : List Token} (h : ts.foldlM step a = .ok a') :
    a.depth ≤ a'.depth :=
  foldlM_keeps (P := fun b => a.depth ≤ b.depth)
    (fun _ _ _ _ hle hstep => Nat.le_trans hle (depth_le_of_step hstep)) (Nat.le_refl _) h

/-- **Within groups tokens are arranged alike,** unless groups are nested too deeply. -/
theorem foldlM_raiseOn_within (k : Nat) (below : List Branch)
    (outside : List (GroupKind × Level)) {ts : List Token} (hatoms : ∀ n, .atom n ∈ ts → n.Leaf)
    (h : ts.foldlM step a = .ok a') :
    ts.foldlM step (a.raiseOn k below outside) = .ok (a'.raiseOn k below outside) ∨
      ts.foldlM step (a.raiseOn k below outside) = .error .tooDeep ∧
        maxDepth < a'.depth + outside.length := by
  induction ts generalizing a with
  | nil =>
    cases h
    exact .inl rfl
  | cons t ts ih =>
    have hleaf : ∀ n, t = .atom n → n.Leaf := fun n hn => hatoms n (hn ▸ List.mem_cons_self)
    obtain ⟨a₁, hfirst, hrest⟩ := foldlM_cons_eq_ok_iff.1 h
    rw [List.foldlM_cons]
    rcases step_raiseOn_within k below outside hleaf hfirst with hok | ⟨herror, -, hlength, hle⟩
    · rw [hok]
      exact ih (fun n hn => hatoms n (List.mem_cons_of_mem t hn)) hrest
    · rw [herror]
      refine .inr ⟨rfl, ?_⟩
      have hopen := a₁.length_outer_le_depth
      have hdepth := depth_le_of_foldlM hrest
      omega

end Arrangement

/-! ## Texts -/

theorem Reads.readTokens_append {cs rest : List Char} {ts : List Token} (h : Reads cs ts rest)
    (found : List Token) :
    Syntax.readTokens found cs = Syntax.readTokens (ts.reverse ++ found) rest := by
  induction h generalizing found with
  | done => rfl
  | token head _ ih =>
    rw [readTokens_cons found head, ih, List.reverse_cons, List.append_assoc]
    rfl

theorem Reads.leaf {cs rest : List Char} {ts : List Token} (h : Reads cs ts rest) :
    ∀ n, .atom n ∈ ts → n.Leaf := by
  intro n hn
  obtain ⟨c, more, left, -, hread⟩ := h.exists_readToken hn
  exact leaf_readToken hread

/-- **Tokens after a bar** are arranged to more branches. -/
theorem arrange_bar {ts us : List Token} {fault : Option ParseErrorKind} {a : Arrangement}
    (hts : ts.foldlM Arrangement.step .start = .ok a) (houter : a.outer = [])
    (hatoms : ∀ n, .atom n ∈ us → n.Leaf) :
    (TokenList.mk (ts ++ .bar :: us) fault).arrange =
      (TokenList.mk us fault).arrange.map fun t =>
        ⟨a.level.finish ++ raiseBranches a.captures t.branches, a.captures + t.captures⟩ := by
  have hbar : a.step .bar =
      .ok (Arrangement.start.raiseOn a.captures a.level.endBranch.branches []) := by
    obtain ⟨captures, level, outer⟩ := a
    subst houter
    rfl
  have hfold : (ts ++ .bar :: us).foldlM Arrangement.step .start =
      (us.foldlM Arrangement.step .start).map
        (Arrangement.raiseOn a.captures a.level.endBranch.branches []) := by
    rw [← Arrangement.foldlM_raiseOn hatoms, List.foldlM_append, hts]
    show (Token.bar :: us).foldlM Arrangement.step a = _
    rw [List.foldlM_cons, hbar]
    rfl
  unfold TokenList.arrange
  rw [hfold]
  cases us.foldlM Arrangement.step .start with
  | error e => rfl
  | ok b =>
    obtain ⟨captures, level, outer⟩ := b
    cases fault with
    | some e => rfl
    | none =>
      cases outer with
      | cons g outer => rfl
      | nil =>
        show Except.ok (Tree.mk (level.raiseOn a.captures a.level.endBranch.branches).finish _) = _
        rw [Level.finish_raiseOn]
        rfl

/-- A text in parentheses, but for the first of them, is read up to the last. -/
theorem exists_reads_enclosed {cs : List Char} {ts : List Token} {a : Arrangement}
    (h : Reads cs ts []) (hts : ts.foldlM Arrangement.step .start = .ok a) :
    Reads ('(' :: (cs ++ [')'])) (.opening (some .capture) :: (ts ++ [.closing])) [] := by
  refine .token (readToken_paren fun left heq => ?_)
    ((h.before (.inr rfl) []).append (.token rfl (.done [])))
  -- with a question mark after the parenthesis there would be nothing to repeat
  have hreads := h.before (.inr rfl) []
  rw [heq] at hreads
  cases hreads with
  | token head tail =>
    cases head
    cases hts

theorem parse_eq_error_of_reads {pattern : String} {ts : List Token} {e : ParseErrorKind}
    (hreads : Reads pattern.toList ts []) (hts : ts.foldlM Arrangement.step .start = .error e) :
    Tree.parse pattern = .error ⟨pattern, e⟩ := by
  unfold Tree.parse TokenList.arrange
  rw [hreads.readTokens]
  simp [hts]

end Syntax

/-- **After a bar a text is read as if it stood alone,** but for the numbers of its groups. -/
theorem Tree.parse_bar {s₁ : String} {t₁ : Tree} (h₁ : Tree.parse s₁ = .ok t₁) (s₂ : String) :
    Tree.parse (s₁ ++ "|" ++ s₂) =
      match Tree.parse s₂ with
      | .ok t₂ =>
        .ok ⟨t₁.branches ++ raiseBranches t₁.captures t₂.branches, t₁.captures + t₂.captures⟩
      | .error e => .error ⟨s₁ ++ "|" ++ s₂, e.kind⟩ := by
  obtain ⟨ts, a, hreads, hts, houter, rfl⟩ := parse_eq_ok_iff.1 h₁
  obtain ⟨us, rest, fault, htokens, hreads', -⟩ := exists_reads s₂.toList
  have hwhole : readTokens [] (s₁ ++ "|" ++ s₂).toList = ⟨ts ++ .bar :: us, fault⟩ := by
    have htext : (s₁ ++ "|" ++ s₂).toList = s₁.toList ++ '|' :: s₂.toList := by simp
    rw [htext, (hreads.before (.inl rfl) s₂.toList).readTokens_append]
    show readTokens (ts.reverse ++ []) ('|' :: s₂.toList) = _
    rw [readTokens_cons _ (readToken_eq_ok_iff.2 (.bar _)), htokens]
    simp
  have hsecond : readTokens [] s₂.toList = ⟨us, fault⟩ := htokens []
  unfold Tree.parse
  rw [hwhole, hsecond, arrange_bar hts houter hreads'.leaf]
  cases (TokenList.mk us fault).arrange with
  | error e => rfl
  | ok t => rfl

/-- **A text in parentheses is read as a group,** unless groups are then nested too deeply. -/
theorem Tree.parse_enclosed {s : String} {t : Tree} (h : Tree.parse s = .ok t) :
    Tree.parse ("(" ++ s ++ ")") =
        .ok ⟨[[.group (.capture 1) (raiseBranches 1 t.branches)]], t.captures + 1⟩ ∨
      Tree.parse ("(" ++ s ++ ")") = .error ⟨"(" ++ s ++ ")", .tooDeep⟩ ∧
        maxDepth ≤ branchesDepth t.branches := by
  obtain ⟨ts, a, hreads, hts, houter, rfl⟩ := parse_eq_ok_iff.1 h
  have hwhole := exists_reads_enclosed hreads hts
  have htext : ("(" ++ s ++ ")").toList = '(' :: (s.toList ++ [')']) := by simp
  rcases Arrangement.foldlM_raiseOn_within 1 [] [(.capture 1, .empty)] hreads.leaf hts with
    hok | ⟨herror, hdeep⟩
  · refine .inl ?_
    rw [parse_eq_ok_iff, htext]
    obtain ⟨captures, level, outer⟩ := a
    subst houter
    let group := Node.group (.capture 1) (level.raiseOn 1 []).finish
    refine ⟨_, ⟨1 + captures, Level.empty.push group, []⟩, hwhole, ?_, rfl, ?_⟩
    · exact foldlM_cons_eq_ok_iff.2 ⟨_, rfl, foldlM_append_eq_ok_iff.2 ⟨_, hok, rfl⟩⟩
    · show _ = Tree.mk [[.group (.capture 1) (level.raiseOn 1 []).finish]] _
      rw [Level.finish_raiseOn, Nat.add_comm]
      rfl
  · refine .inr ⟨?_, ?_⟩
    · rw [← htext] at hwhole
      refine parse_eq_error_of_reads hwhole ?_
      rw [List.foldlM_cons]
      show (ts ++ [Token.closing]).foldlM Arrangement.step
        (Arrangement.start.raiseOn 1 [] [(.capture 1, .empty)]) = _
      rw [List.foldlM_append, herror]
      rfl
    · have hdepth : a.depth = branchesDepth a.level.finish := by
        rw [Arrangement.depth, houter]
        exact Nat.max_eq_left (Nat.zero_le _)
      rw [hdepth] at hdeep
      exact Nat.le_of_lt_succ hdeep

/-- **How texts are put together.** Two texts with a bar between them are read as the branches of
both, the numbers of the second going on from those of the first; a text in parentheses is read as
one capturing group, as long as groups may be nested one deeper. -/
theorem Tree.parse_composes {s₁ : String} {t₁ : Tree} (h₁ : Tree.parse s₁ = .ok t₁) :
    (∀ s₂ t₂, Tree.parse s₂ = .ok t₂ → Tree.parse (s₁ ++ "|" ++ s₂) =
      .ok ⟨t₁.branches ++ raiseBranches t₁.captures t₂.branches, t₁.captures + t₂.captures⟩) ∧
    (∀ s₂ e, Tree.parse s₂ = .error e →
      Tree.parse (s₁ ++ "|" ++ s₂) = .error ⟨s₁ ++ "|" ++ s₂, e.kind⟩) ∧
    (branchesDepth t₁.branches ≤ 127 → Tree.parse ("(" ++ s₁ ++ ")") =
      .ok ⟨[[.group (.capture 1) (raiseBranches 1 t₁.branches)]], t₁.captures + 1⟩) ∧
    (branchesDepth t₁.branches = 128 →
      Tree.parse ("(" ++ s₁ ++ ")") = .error ⟨"(" ++ s₁ ++ ")", .tooDeep⟩) := by
  refine ⟨fun s₂ t₂ h₂ => ?_, fun s₂ e h₂ => ?_, fun hdepth => ?_, fun hdepth => ?_⟩
  · rw [Tree.parse_bar h₁, h₂]
  · rw [Tree.parse_bar h₁, h₂]
  · rcases Tree.parse_enclosed h₁ with hok | ⟨-, hdeep⟩
    · exact hok
    · exact absurd hdepth (Nat.not_le_of_lt hdeep)
  · rcases Tree.parse_enclosed h₁ with hok | ⟨herror, -⟩
    · -- the group would be nested deeper than any text is read
      have hle := Tree.depth_of_parse hok
      have hgroup : branchesDepth [[.group (.capture 1) (raiseBranches 1 t₁.branches)]] =
          branchesDepth t₁.branches + 1 := by
        simp [branchesDepth, branchDepth, Node.depth, branchesDepth_raise]
      rw [hgroup, hdepth] at hle
      exact absurd hle (by decide)
    · exact herror

/-- A group and a reference before a bar, another group after it. -/
theorem Tree.parse_two_groups :
    Tree.parse (String.ofList ['(', 'a', ')', '\\', '1']) =
        .ok ⟨[[.group (.capture 1) [[.char 'a']], .backreference 1]], 1⟩ ∧
      Tree.parse (String.ofList ['(', 'b', ')']) = .ok ⟨[[.group (.capture 1) [[.char 'b']]]], 1⟩ ∧
      Tree.parse (String.ofList ['(', 'a', ')', '\\', '1'] ++ "|" ++
          String.ofList ['(', 'b', ')']) =
        .ok ⟨[[.group (.capture 1) [[.char 'a']], .backreference 1],
          [.group (.capture 2) [[.char 'b']]]], 2⟩ := by
  have hreads : Reads ['(', 'a', ')', '\\', '1']
      [.opening (some .capture), .atom (.char 'a'), .closing, .atom (.backreference 1)] [] :=
    .token rfl (.token rfl (.token rfl (.token rfl (.done []))))
  have hreads' : Reads ['(', 'b', ')']
      [.opening (some .capture), .atom (.char 'b'), .closing] [] :=
    .token rfl (.token rfl (.token rfl (.done [])))
  refine ⟨?first, ?second, (Tree.parse_composes ?first).1 _ _ ?second⟩
  · rw [parse_eq_ok_iff, String.toList_ofList]
    exact ⟨_, _, hreads, rfl, rfl, rfl⟩
  · rw [parse_eq_ok_iff, String.toList_ofList]
    exact ⟨_, _, hreads', rfl, rfl, rfl⟩

end SequenceConstraint
