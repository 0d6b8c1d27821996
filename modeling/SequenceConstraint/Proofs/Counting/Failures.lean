import SequenceConstraint.Cardinality
import SequenceConstraint.Proofs.Generation.Planning

/-!
# Counting and generating fail alike

Counting the texts of a tree and planning them are two ways through the tree, each with a record of
its own of the groups that are complete. The records say the same all along (`Tracks`), so the two
come upon the same dangling backreference first, or both upon none.

## Main statements

* `Node.goesAlong` — counting a node and planning it fail alike, and leave records that say the same
* `Tree.failsAlike` — so do counting a tree and planning it
* `Tree.languageSize_eq_error_iff` — a tree cannot be counted just if it has no stream
-/

namespace SequenceConstraint

/-- Whether the same groups are complete for counting and for planning. -/
structure Tracks (done : Completed) (σ : Naming) : Prop where
  length : done.length = σ.limit + 1
  contains : ∀ index, done.contains index = (σ.name? index).isSome

namespace Tracks

variable {done : Completed} {σ : Naming}

theorem start (limit : Nat) : Tracks (.start limit) (.start limit) where
  length := List.length_replicate
  contains index := by
    show ((List.replicate (limit + 1) false)[index]?).getD false = false
    rw [List.getElem?_replicate]
    split
    · rfl
    · rfl

/-- **The end of a group** is recorded on both sides or on neither. -/
theorem close (h : Tracks done σ) (kind : GroupKind) (body : Plan) :
    Tracks (done.close kind) (kind.close body σ).2 := by
  cases kind with
  | plain => exact h
  | lookahead negative => exact h
  | capture index =>
    show Tracks (done.set index true) (σ.record index body).2
    by_cases hindex : index ≤ σ.limit
    · refine ⟨?_, fun i => ?_⟩
      · rw [List.length_set, h.length, Naming.record, if_pos hindex]
      · have hplace : index < done.length := by
          rw [h.length]
          omega
        rw [Naming.name?_record hindex, Completed.contains, List.getElem?_set]
        by_cases hi : i = index
        · rw [if_pos hi.symm, if_pos (hi ▸ hplace), if_pos hi]
          rfl
        · rw [if_neg (Ne.symm hi), if_neg hi]
          exact h.contains i
    · -- an index out of range
      have hplace : done.length ≤ index := by
        rw [h.length]
        omega
      rw [List.set_eq_of_length_le hplace, Naming.record, if_neg hindex]
      exact h

end Tracks

section GoesAlong

variable {done : Completed} {σ : Naming}

/-- Whether counting a node goes along with planning it. -/
def Node.GoesAlong (n : Node) : Prop :=
  ∀ done σ, Tracks done σ → AlongSide Tracks (n.count done) (n.plan σ)

theorem goesAlong_branch {branch : List Node} (hnodes : ∀ n ∈ branch, n.GoesAlong)
    (product : Cardinality) (h : Tracks done σ) :
    AlongSide Tracks (countBranch product branch done) (planBranch branch σ) := by
  induction branch generalizing product done σ with
  | nil =>
    rw [countBranch, planBranch]
    exact .finish product [] h
  | cons n ns ih =>
    obtain ⟨hn, hns⟩ := List.forall_mem_cons.1 hnodes
    rw [countBranch, planBranch]
    split
    · exact ih hns product h
    · refine (hn done σ h).bind fun c p done' σ' _ h' => ?_
      rw [← bind_pure (countBranch (product.mul c) ns)]
      exact (ih hns _ h').bind fun total rest done'' σ'' _ h'' => .finish total _ h''

theorem goesAlong_branches {branches : List (List Node)}
    (hnodes : ∀ b ∈ branches, ∀ n ∈ b, n.GoesAlong) (seen : List Branch) (total : Cardinality)
    (h : Tracks done σ) :
    AlongSide Tracks (countBranches seen total branches done) (planBranches seen branches σ) := by
  induction branches generalizing seen total done σ with
  | nil =>
    rw [countBranches, planBranches]
    exact .finish total [] h
  | cons b bs ih =>
    obtain ⟨hb, hbs⟩ := List.forall_mem_cons.1 hnodes
    rw [countBranches, planBranches]
    split
    · exact ih hbs seen total h
    · refine (goesAlong_branch hb _ h).bind fun product parts done' σ' _ h' => ?_
      rw [← bind_pure (countBranches _ (total.add product) bs)]
      exact (ih hbs _ _ h').bind fun total rest done'' σ'' _ h'' => .finish total _ h''

theorem goesAlong_times {body : Node} {min : Nat} {max : Option Nat} (hbody : body.GoesAlong)
    (h : Tracks done σ) :
    AlongSide Tracks ((do return (← body.count).repeated min max : Counting Cardinality) done)
      ((do return .times min max (← body.plan) : Planning Plan) σ) :=
  (hbody done σ h).bind fun _ _ _ _ _ h' => .finish _ _ h'

/-- **Counting a node goes along with planning it.** -/
theorem Node.goesAlong (n : Node) : n.GoesAlong := by
  induction n with
  | char c =>
    intro done σ h
    rw [Node.count, Node.plan]
    exact .finish _ _ h
  | charClass k =>
    intro done σ h
    rw [Node.count, Node.plan]
    exact .finish _ _ h
  | anchor a =>
    intro done σ h
    rw [Node.count, Node.plan]
    exact .finish _ _ h
  | backreference index =>
    intro done σ h
    rw [Node.count]
    have hcontains := h.contains index
    change AlongSide Tracks
      ((if done.contains index then pure (.finite 1) else throw ⟨index⟩ : Counting Cardinality)
        done) _
    cases hname : σ.name? index with
    | none =>
      rw [hname] at hcontains
      rw [if_neg (by simp [hcontains]), plan_backreference_of_none hname]
      exact .fail ⟨index⟩
    | some name =>
      rw [hname] at hcontains
      rw [if_pos (by simp [hcontains]), plan_backreference_iff.2 ⟨name, hname, rfl, rfl⟩]
      exact .finish _ _ h
  | group kind branches ih =>
    intro done σ h
    rw [Node.count, Node.plan]
    refine (goesAlong_branches ih [] (.finite 0) h).bind fun total ps done' σ' _ h' => ?_
    cases kind with
    | capture index => exact .finish _ _ (h'.close (.capture index) (Plan.ofBranches ps))
    | plain => exact .finish _ _ h'
    | lookahead negative => exact .finish _ _ h'
  | marked min max body ih =>
    intro done σ h
    rw [Node.count, Node.plan]
    exact goesAlong_times ih h
  | repetition min max body hm ih =>
    intro done σ h
    rw [Node.count, Node.plan]
    · exact goesAlong_times ih h
    · exact hm
    · exact hm

end GoesAlong

/-- Counting the texts of a tree and planning it both fail, with the same backreference, or neither
does. -/
theorem Tree.failsAlike (tree : Tree) :
    (∃ e, tree.languageSize = .error e ∧ tree.plan = .error e) ∨
      ∃ c p, tree.languageSize = .ok c ∧ tree.plan = .ok p := by
  have h : AlongSide Tracks (countBranches [] (.finite 0) tree.branches (.start tree.captures))
      (planBranches [] tree.branches (.start tree.captures)) :=
    goesAlong_branches (fun _ _ n _ => n.goesAlong) [] _ (.start tree.captures)
  unfold Tree.languageSize Tree.plan StateT.run
  generalize countBranches [] (.finite 0) tree.branches (.start tree.captures) = x at h ⊢
  generalize planBranches [] tree.branches (.start tree.captures) = y at h ⊢
  cases h with
  | fail e => exact .inl ⟨e, rfl, rfl⟩
  | finish c ps h => exact .inr ⟨c, .ofBranches ps, rfl, rfl⟩

/-- **Counting the texts of a tree fails just if generating them does,** whatever the cap, and with
the same backreference. -/
theorem Tree.languageSize_eq_error_iff (tree : Tree) (cap : Nat) (e : Dangling) :
    tree.languageSize = .error e ↔ Stream.ofTree cap tree = .error e := by
  unfold Stream.ofTree
  rcases tree.failsAlike with ⟨e', hcount, hplan⟩ | ⟨c, p, hcount, hplan⟩
  · rw [hcount, hplan]
    simp [Except.map]
  · rw [hcount, hplan]
    simp [Except.map]

end SequenceConstraint
