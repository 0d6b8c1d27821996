import SequenceConstraint.Syntax.Tree

/-!
# The nodes of a tree

What a theorem asks of a tree it asks of the nodes at any depth in it: that none of them is a
backreference, say, or that the groups among them have indices of their own. `Tree.nodes` lists
them in the order in which they are written.

Trees are proved things about by the cases that their readers tell apart: a repetition that only
marks another one as lazy is a case of its own (`Node.induct`).
-/

namespace SequenceConstraint

/-! ## Induction -/

/-- Induction over the nodes of a tree. A lazy mark goes with the repetition it marks, and what is
known then is known of the body of that repetition. -/
@[elab_as_elim, induction_eliminator]
theorem Node.induct {motive : Node → Prop} (char : ∀ c, motive (.char c))
    (charClass : ∀ k, motive (.charClass k)) (anchor : ∀ a, motive (.anchor a))
    (backreference : ∀ index, motive (.backreference index))
    (group : ∀ kind branches, (∀ b ∈ branches, ∀ n ∈ b, motive n) → motive (.group kind branches))
    (marked : ∀ min max body, motive body →
      motive (.repetition 0 (some 1) (.repetition min max body)))
    (repetition : ∀ min max body,
      (∀ min' max' body', min = 0 → max = some 1 → body = .repetition min' max' body' → False) →
      motive body → motive (.repetition min max body))
    (n : Node) : motive n := by
  -- a lazy mark reaches two levels down, so the body of a repetition is carried along
  have key : ∀ m : Node, motive m ∧ ∀ min max body, m = .repetition min max body → motive body := by
    intro m
    refine @Node.rec
      (fun m => motive m ∧ ∀ min max body, m = .repetition min max body → motive body)
      (fun branches => ∀ b ∈ branches, ∀ n ∈ b, motive n)
      (fun branch => ∀ n ∈ branch, motive n) ?_ ?_ ?_ ?_ ?_ ?_ ?_ ?_ ?_ ?_ m
    · exact fun c => ⟨char c, by simp⟩
    · exact fun k => ⟨charClass k, by simp⟩
    · exact fun a => ⟨anchor a, by simp⟩
    · exact fun index => ⟨backreference index, by simp⟩
    · exact fun kind branches ih => ⟨group kind branches ih, by simp⟩
    · intro min max body ih
      refine ⟨?_, by rintro _ _ _ ⟨⟩; exact ih.1⟩
      by_cases hm : ∃ min' max' body', min = 0 ∧ max = some 1 ∧ body = .repetition min' max' body'
      · obtain ⟨min', max', body', rfl, rfl, rfl⟩ := hm
        exact marked min' max' body' (ih.2 min' max' body' rfl)
      · refine repetition min max body ?_ ih.1
        intro min' max' body' h₁ h₂ h₃
        exact hm ⟨min', max', body', h₁, h₂, h₃⟩
    · simp
    · intro b bs hb hbs
      simp only [List.forall_mem_cons]
      exact ⟨hb, hbs⟩
    · simp
    · intro n ns hn hns
      simp only [List.forall_mem_cons]
      exact ⟨hn.1, hns⟩
  exact (key n).1

/-! ## All nodes -/

mutual

/-- A node and all nodes in it. -/
def Node.nodes : Node → List Node
  | .char c => [.char c]
  | .charClass k => [.charClass k]
  | .anchor a => [.anchor a]
  | .backreference index => [.backreference index]
  | .group kind branches => .group kind branches :: branchesNodes branches
  | .repetition min max body => .repetition min max body :: body.nodes

def branchNodes : List Node → List Node
  | [] => []
  | n :: ns => n.nodes ++ branchNodes ns

def branchesNodes : List (List Node) → List Node
  | [] => []
  | b :: bs => branchNodes b ++ branchesNodes bs

end

/-- All nodes of a tree. -/
def Tree.nodes (tree : Tree) : List Node := branchesNodes tree.branches

theorem Node.self_mem_nodes (n : Node) : n ∈ n.nodes := by
  cases n <;> simp [Node.nodes]

theorem mem_branchNodes {branch : List Node} {m : Node} :
    m ∈ branchNodes branch ↔ ∃ n ∈ branch, m ∈ n.nodes := by
  induction branch with
  | nil => simp [branchNodes]
  | cons n ns ih => simp [branchNodes, ih]

theorem branchNodes_append (b c : List Node) :
    branchNodes (b ++ c) = branchNodes b ++ branchNodes c := by
  induction b with
  | nil => rfl
  | cons n ns ih => rw [List.cons_append, branchNodes, ih, branchNodes, List.append_assoc]

theorem branchesNodes_append (bs cs : List (List Node)) :
    branchesNodes (bs ++ cs) = branchesNodes bs ++ branchesNodes cs := by
  induction bs with
  | nil => rfl
  | cons b bs ih => rw [List.cons_append, branchesNodes, ih, branchesNodes, List.append_assoc]

theorem mem_branchesNodes {branches : List (List Node)} {m : Node} :
    m ∈ branchesNodes branches ↔ ∃ b ∈ branches, m ∈ branchNodes b := by
  induction branches with
  | nil => simp [branchesNodes]
  | cons b bs ih => simp [branchesNodes, ih]

/-- What is in a node of a branch is in the alternation. -/
theorem mem_branchesNodes_of_mem {branches : List (List Node)} {b : List Node} {n m : Node}
    (hb : b ∈ branches) (hn : n ∈ b) (hm : m ∈ n.nodes) : m ∈ branchesNodes branches :=
  mem_branchesNodes.2 ⟨b, hb, mem_branchNodes.2 ⟨n, hn, hm⟩⟩

theorem branchNodes_sublist {branches : List (List Node)} {b : List Node} (h : b ∈ branches) :
    (branchNodes b).Sublist (branchesNodes branches) := by
  induction branches with
  | nil => cases h
  | cons c cs ih =>
    rcases List.mem_cons.1 h with rfl | h
    · exact List.sublist_append_left _ _
    · exact (ih h).trans (List.sublist_append_right _ _)

/-- A condition on all nodes of a branch is one on all nodes of each of its nodes. -/
theorem forall_branchNodes {branch : List Node} {p : Node → Prop} :
    (∀ m ∈ branchNodes branch, p m) ↔ ∀ n ∈ branch, ∀ m ∈ n.nodes, p m := by
  simp only [mem_branchNodes]
  exact ⟨fun h n hn m hm => h m ⟨n, hn, hm⟩, fun h m ⟨n, hn, hm⟩ => h n hn m hm⟩

theorem forall_branchesNodes {branches : List (List Node)} {p : Node → Prop} :
    (∀ m ∈ branchesNodes branches, p m) ↔ ∀ b ∈ branches, ∀ m ∈ branchNodes b, p m := by
  simp only [mem_branchesNodes]
  exact ⟨fun h b hb m hm => h m ⟨b, hb, hm⟩, fun h m ⟨b, hb, hm⟩ => h b hb m hm⟩

/-! ## Nodes that take characters -/

theorem takingNodes_skip {n : Node} (hn : n.isLookahead = true) (b : Branch) :
    takingNodes (n :: b) = takingNodes b :=
  List.filter_cons_of_neg (by simp [hn])

theorem takingNodes_cons {n : Node} (hn : n.isLookahead = false) (b : Branch) :
    takingNodes (n :: b) = n :: takingNodes b :=
  List.filter_cons_of_pos (by simp [hn])

/-! ## Groups and references -/

def Node.captureIndex? : Node → Option Nat
  | .group (.capture index) _ => some index
  | _ => none

def Node.referenceIndex? : Node → Option Nat
  | .backreference index => some index
  | _ => none

/-- The indices of the capturing groups among some nodes. -/
def captureIndices (nodes : List Node) : List Nat := nodes.filterMap Node.captureIndex?

/-- The indices of the backreferences among some nodes, each as often as it is referred to. -/
def referenceIndices (nodes : List Node) : List Nat := nodes.filterMap Node.referenceIndex?

@[simp] theorem captureIndices_append (ns ms : List Node) :
    captureIndices (ns ++ ms) = captureIndices ns ++ captureIndices ms := List.filterMap_append

@[simp] theorem referenceIndices_append (ns ms : List Node) :
    referenceIndices (ns ++ ms) = referenceIndices ns ++ referenceIndices ms :=
  List.filterMap_append

@[simp] theorem captureIndices_capture (index : Nat) (branches : List (List Node)) :
    captureIndices (Node.group (.capture index) branches).nodes =
      index :: captureIndices (branchesNodes branches) := rfl

theorem captureIndices_subset {ns ms : List Node} (h : ∀ n ∈ ns, n ∈ ms) :
    ∀ i ∈ captureIndices ns, i ∈ captureIndices ms := by
  intro i hi
  obtain ⟨n, hn, hc⟩ := List.mem_filterMap.1 hi
  exact List.mem_filterMap.2 ⟨n, h n hn, hc⟩

end SequenceConstraint
