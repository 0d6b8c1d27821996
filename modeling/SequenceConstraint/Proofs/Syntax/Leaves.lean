import SequenceConstraint.Proofs.Syntax.Nodes
import SequenceConstraint.Proofs.Syntax.Reads

/-!
# Leaves of a tree

The nodes without parts come from the text: each has been read as a token somewhere in it. What
stands around them, repetitions and groups, is put there by the arrangement, which only moves nodes
and never makes up a leaf.

## Main statements

* `leaf_readToken` — a token that is a node is a leaf
* `Arrangement.Over.step` — the arrangement adds no nodes but its tokens, repetitions and groups
* `Tree.exists_readToken_of_parse` — the leaves of a tree are read from its text
-/

namespace SequenceConstraint

/-- Whether a node has no parts. -/
def Node.Leaf : Node → Prop
  | .group .. => False
  | .repetition .. => False
  | _ => True

theorem Node.Leaf.nodes_eq {n : Node} (h : n.Leaf) : n.nodes = [n] := by
  cases n with
  | group kind branches => exact h.elim
  | repetition min max body => exact h.elim
  | char c => rfl
  | charClass k => rfl
  | anchor a => rfl
  | backreference index => rfl

/-- Whether there are no groups among some nodes. -/
def Groupless (ns : List Node) : Prop := ∀ kind branches, Node.group kind branches ∉ ns

theorem Groupless.subset {ms ns : List Node} (h : Groupless ns) (hsub : ms ⊆ ns) : Groupless ms :=
  fun kind branches hmem => h kind branches (hsub hmem)

namespace Syntax

variable {c : Char} {cs rest left : List Char}

/-! ## Tokens that are nodes -/

theorem ReadsEscape.leaf {node : Node} (h : ReadsEscape cs node rest) : node.Leaf := by
  cases h with
  | @escaped c rest => cases (readEscaped c rest).1 <;> trivial
  | _ => trivial

/-- **A token that is a node is a leaf.** -/
theorem leaf_readToken {node : Node} (h : readToken c cs = .ok (.atom node, left)) :
    node.Leaf := by
  cases readToken_eq_ok_iff.1 h with
  | escape h => exact h.leaf
  | _ => trivial

/-- Without brackets and backslashes a token that is a node is a place, or the character itself. -/
theorem plain_readToken {node : Node} (h : readToken c cs = .ok (.atom node, left))
    (hspecial : c ∉ ['[', '\\', '.']) : node = .char c ∨ ∃ a, node = .anchor a := by
  cases readToken_eq_ok_iff.1 h with
  | brace => exact .inl rfl
  | charClass => exact absurd (by decide) hspecial
  | escape => exact absurd (by decide) hspecial
  | anyChar => exact absurd (by decide) hspecial
  | start => exact .inr ⟨_, rfl⟩
  | finish => exact .inr ⟨_, rfl⟩
  | char => exact .inl rfl

/-- A backreference is written as a backslash and a digit other than zero. -/
theorem backreference_readToken {index : Nat}
    (h : readToken c cs = .ok (.atom (.backreference index), left)) :
    ∃ d more, c = '\\' ∧ cs = d :: more ∧ d.isDigit = true ∧ d ≠ '0' := by
  cases readToken_eq_ok_iff.1 h with
  | escape h =>
    generalize hnode : Node.backreference index = node at h
    cases h with
    | backreference rest hdigit hzero => exact ⟨_, rest, rfl, rfl, hdigit, hzero⟩
    | @escaped c rest =>
      -- other escapes are characters and classes
      cases hescaped : (readEscaped c rest).1 with
      | char d => simp [hescaped, Escaped.toNode] at hnode
      | shorthand k => simp [hescaped, Escaped.toNode] at hnode
    | _ => cases hnode

/-! ## Arrangements -/

/-- Whether a token repeats the node before it. Only the question mark may follow another
quantifier. -/
inductive Token.Quantifies : Token → (questionMark : Bool) → Nat → Option Nat → Prop where
  | quantifier (min : Nat) (max : Option Nat) : Quantifies (.quantifier min max) false min max
  | questionMark : Quantifies .questionMark true 0 (some 1)

namespace Level

/-- The nodes at any depth of an alternation as far as it has been read. -/
def allNodes (level : Level) : List Node := branchesNodes level.finish

variable (level : Level)

theorem finish_eq : level.finish = level.branches.reverse ++ [level.nodes.reverse] := by
  simp [finish, endBranch]

theorem finish_ne_nil : level.finish ≠ [] := by
  simp [finish_eq]

theorem allNodes_eq : level.allNodes =
    branchesNodes level.branches.reverse ++ branchNodes level.nodes.reverse := by
  rw [allNodes, finish_eq, branchesNodes_append, branchesNodes, branchesNodes, List.append_nil]

theorem allNodes_push (node : Node) :
    (level.push node).allNodes = level.allNodes ++ node.nodes := by
  rw [allNodes_eq, allNodes_eq, push, List.reverse_cons, branchNodes_append, branchNodes,
    branchNodes, List.append_nil, List.append_assoc]

theorem allNodes_endBranch : level.endBranch.allNodes = level.allNodes := by
  have hnone : branchNodes (List.reverse []) = [] := rfl
  rw [allNodes_eq, endBranch, List.reverse_cons, ← finish_eq, hnone, List.append_nil, allNodes]

/-- Whether the nodes of an alternation satisfy a condition, as far as it has been read. -/
def Over (ok : Node → Prop) (level : Level) : Prop := ∀ m ∈ level.allNodes, ok m

end Level

namespace Arrangement

/-- Whether all nodes satisfy a condition. -/
structure Over (ok : Node → Prop) (a : Arrangement) : Prop where
  level : a.level.Over ok
  outer : ∀ g ∈ a.outer, g.2.Over ok

variable {ok : Node → Prop} {a a' : Arrangement}

theorem Over.push {level : Level} {node : Node} (h : level.Over ok)
    (hnode : ∀ m ∈ node.nodes, ok m) : (level.push node).Over ok := by
  intro m hm
  rw [Level.allNodes_push] at hm
  exact (List.mem_append.1 hm).elim (h m) (hnode m)

theorem Over.quantify {questionMark : Bool} {min : Nat} {max : Option Nat} (ha : a.Over ok)
    (hrepetition : ∀ body, quantifiable questionMark body = true → ok (.repetition min max body))
    (h : a.quantify questionMark min max = .ok a') : a'.Over ok := by
  unfold Arrangement.quantify at h
  split at h
  · cases h
  · rename_i node nodes hnodes
    split at h
    · rename_i hquantifiable
      cases h
      have hlevel : a.level = Level.push ⟨a.level.branches, nodes⟩ node := by
        rw [Level.push, ← hnodes]
      have hover := ha.level
      rw [hlevel, Level.Over, Level.allNodes_push, List.forall_mem_append] at hover
      refine ⟨?_, ha.outer⟩
      show (Level.push ⟨a.level.branches, nodes⟩ (.repetition min max node)).Over ok
      exact Over.push hover.1 (List.forall_mem_cons.2 ⟨hrepetition node hquantifiable, hover.2⟩)
    · cases h

theorem Over.openGroup {kind : Option Opening} (ha : a.Over ok) (h : a.openGroup kind = .ok a') :
    a'.Over ok := by
  have hempty : Level.empty.Over ok := fun m hm => absurd hm List.not_mem_nil
  have houter : ∀ kind, ∀ g ∈ (kind, a.level) :: a.outer, g.2.Over ok := fun kind =>
    List.forall_mem_cons.2 ⟨ha.level, ha.outer⟩
  unfold Arrangement.openGroup at h
  split at h
  · cases h
  · split at h
    · cases h
    · cases h
      exact ⟨hempty, houter _⟩
    · cases h
      exact ⟨hempty, houter _⟩
    · cases h
      exact ⟨hempty, houter _⟩

theorem Over.closeGroup (ha : a.Over ok)
    (hgroup : ∀ kind branches, branches ≠ [] → ok (.group kind branches))
    (h : a.closeGroup = .ok a') : a'.Over ok := by
  unfold Arrangement.closeGroup at h
  split at h
  · cases h
  · rename_i kind level outer houter
    cases h
    have hall := ha.outer
    rw [houter] at hall
    obtain ⟨hlevel, hrest⟩ := List.forall_mem_cons.1 hall
    refine ⟨Over.push hlevel (List.forall_mem_cons.2 ⟨hgroup kind _ ?_, ha.level⟩), hrest⟩
    exact a.level.finish_ne_nil

/-- **The arrangement adds no nodes** but its tokens, repetitions and, where one is closed, a
group. -/
theorem Over.step {token : Token} (ha : a.Over ok)
    (hrepetition : ∀ questionMark min max body, token.Quantifies questionMark min max →
      quantifiable questionMark body = true → ok (.repetition min max body))
    (hgroup : token = .closing → ∀ kind branches, branches ≠ [] → ok (.group kind branches))
    (hatom : ∀ n, token = .atom n → n.Leaf ∧ ok n) (h : a.step token = .ok a') : a'.Over ok := by
  cases token with
  | atom node =>
    obtain ⟨hleaf, hok⟩ := hatom node rfl
    cases h
    refine ⟨Over.push ha.level fun m hm => ?_, ha.outer⟩
    rw [hleaf.nodes_eq, List.mem_singleton] at hm
    rw [hm]
    exact hok
  | quantifier min max =>
    exact ha.quantify (fun body => hrepetition _ _ _ body (.quantifier min max)) h
  | questionMark => exact ha.quantify (fun body => hrepetition _ _ _ body .questionMark) h
  | opening kind => exact ha.openGroup h
  | closing => exact ha.closeGroup (hgroup rfl) h
  | bar =>
    cases h
    refine ⟨?_, ha.outer⟩
    show ∀ m ∈ a.level.endBranch.allNodes, _
    rw [Level.allNodes_endBranch]
    exact ha.level

end Arrangement

end Syntax

open Syntax

/-- **The leaves of a tree are read from its text.** -/
theorem Tree.exists_readToken_of_parse {pattern : String} {t : Tree}
    (h : Tree.parse pattern = .ok t) {n : Node} (hn : n ∈ t.nodes) (hleaf : n.Leaf) :
    ∃ c more left, c :: more <:+ pattern.toList ∧ readToken c more = .ok (.atom n, left) := by
  obtain ⟨ts, a, hreads, hfold, -, rfl⟩ := parse_eq_ok_iff.1 h
  let ok : Node → Prop := fun n => n.Leaf →
    ∃ c more left, c :: more <:+ pattern.toList ∧ readToken c more = .ok (.atom n, left)
  have hstart : Arrangement.start.Over ok :=
    ⟨fun m hm => absurd hm List.not_mem_nil, fun g hg => absurd hg List.not_mem_nil⟩
  have hover : a.Over ok := by
    refine foldlM_keeps (fun t ht a a' ha hstep => ?_) hstart hfold
    -- repetitions and groups are no leaves
    refine ha.step (fun _ _ _ _ _ _ hleaf => hleaf.elim) (fun _ _ _ _ hleaf => hleaf.elim)
      (fun n hn => ?_) hstep
    subst hn
    obtain ⟨c, more, left, hsuffix, hread⟩ := hreads.exists_readToken ht
    exact ⟨leaf_readToken hread, fun _ => ⟨c, more, left, hsuffix, hread⟩⟩
  exact hover.level n hn hleaf

end SequenceConstraint
