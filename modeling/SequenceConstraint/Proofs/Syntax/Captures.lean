import SequenceConstraint.Proofs.Syntax.Leaves

/-!
# Numbers of groups

Opening parentheses number the capturing groups from left to right. The numbers in a tree that has
been read are therefore all numbers from 1 on, each once and in order.

## Main statements

* `Arrangement.Numbered.step` — a token keeps the groups numbered
* `Tree.captureIndices_of_parse` — the capturing groups of a tree that has been read
-/

namespace SequenceConstraint

def GroupKind.index? : GroupKind → Option Nat
  | .capture index => some index
  | _ => none

theorem captureIndices_group (kind : GroupKind) (branches : List (List Node)) :
    captureIndices (Node.group kind branches).nodes =
      kind.index?.toList ++ captureIndices (branchesNodes branches) := by
  cases kind <;> rfl

namespace Syntax

/-! ## Tokens without groups -/

/-- Whether a token brings no group of its own. -/
def Token.Groupless : Token → Prop
  | .atom node => captureIndices node.nodes = []
  | _ => True

theorem groupless_readToken {c : Char} {cs rest : List Char} {token : Token}
    (h : readToken c cs = .ok (token, rest)) : token.Groupless := by
  cases token with
  | atom node =>
    have hleaf := leaf_readToken h
    show captureIndices node.nodes = []
    rw [hleaf.nodes_eq]
    cases node with
    | group kind branches => exact hleaf.elim
    | _ => rfl
  | _ => trivial

/-! ## Arrangements -/

/-- The indices in an alternation as far as it has been read. -/
def Level.indices (level : Level) : List Nat := captureIndices (branchesNodes level.finish)

/-- The indices in the alternations that wait, and those of the groups they wait for. -/
def openIndices : List (GroupKind × Level) → List Nat
  | [] => []
  | (kind, level) :: outer => openIndices outer ++ (level.indices ++ kind.index?.toList)

namespace Level

variable (level : Level)

theorem indices_push (node : Node) :
    (level.push node).indices = level.indices ++ captureIndices node.nodes := by
  show captureIndices (level.push node).allNodes = captureIndices level.allNodes ++ _
  rw [allNodes_push, captureIndices_append]

theorem indices_endBranch : level.endBranch.indices = level.indices := by
  show captureIndices level.endBranch.allNodes = captureIndices level.allNodes
  rw [allNodes_endBranch]

end Level

namespace Arrangement

/-- Whether the groups read so far have all numbers from 1 on, in the order in which they are
written. -/
def Numbered (a : Arrangement) : Prop :=
  openIndices a.outer ++ a.level.indices = List.range' 1 a.captures

variable {a a' : Arrangement}

theorem Numbered.quantify {questionMark : Bool} {min : Nat} {max : Option Nat} (ha : a.Numbered)
    (h : a.quantify questionMark min max = .ok a') : a'.Numbered := by
  unfold Arrangement.quantify at h
  split at h
  · cases h
  · rename_i node nodes hnodes
    split at h
    · cases h
      -- the groups in a repeated node are those in the node
      have hlevel : a.level = Level.push ⟨a.level.branches, nodes⟩ node := by
        rw [Level.push, ← hnodes]
      rw [Numbered, hlevel, Level.indices_push] at ha
      show openIndices a.outer ++
        (Level.push ⟨a.level.branches, nodes⟩ (.repetition min max node)).indices = _
      rw [Level.indices_push]
      exact ha
    · cases h

theorem Numbered.openGroup {kind : Option Opening} (ha : a.Numbered)
    (h : a.openGroup kind = .ok a') : a'.Numbered := by
  have hempty : Level.empty.indices = [] := rfl
  unfold Arrangement.openGroup at h
  split at h
  · cases h
  · split at h
    · cases h
    · cases h
      show openIndices a.outer ++ (a.level.indices ++ [a.captures + 1]) ++ Level.empty.indices = _
      rw [hempty, List.append_nil, ← List.append_assoc, ha, List.range'_1_concat, Nat.add_comm]
    · cases h
      show openIndices a.outer ++ (a.level.indices ++ []) ++ Level.empty.indices = _
      rw [hempty, List.append_nil, List.append_nil]
      exact ha
    · cases h
      show openIndices a.outer ++ (a.level.indices ++ []) ++ Level.empty.indices = _
      rw [hempty, List.append_nil, List.append_nil]
      exact ha

theorem Numbered.closeGroup (ha : a.Numbered) (h : a.closeGroup = .ok a') : a'.Numbered := by
  unfold Arrangement.closeGroup at h
  split at h
  · cases h
  · rename_i kind level outer houter
    cases h
    rw [Numbered, houter, openIndices] at ha
    show openIndices outer ++ (level.push (.group kind a.level.finish)).indices = _
    rw [Level.indices_push, captureIndices_group, ← ha]
    simp only [List.append_assoc]
    rfl

/-- **A token keeps the groups numbered.** -/
theorem Numbered.step {token : Token} (ha : a.Numbered) (htoken : token.Groupless)
    (h : a.step token = .ok a') : a'.Numbered := by
  cases token with
  | atom node =>
    have htoken : captureIndices node.nodes = [] := htoken
    cases h
    show openIndices a.outer ++ (a.level.push node).indices = _
    rw [Level.indices_push, htoken, List.append_nil]
    exact ha
  | quantifier min max => exact ha.quantify h
  | questionMark => exact ha.quantify h
  | opening kind => exact ha.openGroup h
  | closing => exact ha.closeGroup h
  | bar =>
    cases h
    show openIndices a.outer ++ a.level.endBranch.indices = _
    rw [Level.indices_endBranch]
    exact ha

end Arrangement

end Syntax

open Syntax

/-- **The capturing groups of a tree that has been read** are numbered from 1 on. -/
theorem Tree.captureIndices_of_parse {pattern : String} {t : Tree}
    (h : Tree.parse pattern = .ok t) : captureIndices t.nodes = List.range' 1 t.captures := by
  obtain ⟨ts, a, hreads, hfold, houter, rfl⟩ := parse_eq_ok_iff.1 h
  have hstart : Arrangement.start.Numbered := rfl
  have hnumbered : a.Numbered := by
    refine foldlM_keeps (fun t ht a a' ha hstep => ha.step ?_ hstep) hstart hfold
    obtain ⟨c, more, left, -, hread⟩ := hreads.exists_readToken ht
    exact groupless_readToken hread
  rw [Arrangement.Numbered, houter] at hnumbered
  exact hnumbered

theorem Tree.nodup_captureIndices_of_parse {pattern : String} {t : Tree}
    (h : Tree.parse pattern = .ok t) : (captureIndices t.nodes).Nodup := by
  rw [Tree.captureIndices_of_parse h]
  exact List.nodup_range'

end SequenceConstraint
