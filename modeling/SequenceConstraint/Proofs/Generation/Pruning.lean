import SequenceConstraint.Proofs.Generation.Planning

/-!
# Trees without lookahead groups

Planning leaves out the lookahead groups that stand directly in a branch. A tree from which they are
taken at any depth (`Tree.pruned`) is planned in the same way, with one difference: branches that
were told apart by lookahead groups deeper in them are alike now, and only the first is planned. If
there are none (`Tree.Separated`), the plan is the same. In any case the difference never decides
whether planning fails. What a branch refers to is still complete when a branch like it is planned
later, and it completes no groups that are not complete already (`Replays`).

A repetition is in the way. A lookahead group directly under one is not in a branch, so it is
planned as any other group.

## Main statements

* `Node.pruned_emptied` — what stands in the lookahead groups is of no account for a pruned node
* `Tree.Separated.plan_pruned` — a pruned tree has the same plan if no branches become alike
* `Node.replays` — a node that has been planned can be planned again later
* `Tree.failsAlike_pruned` — a tree and the pruned tree fail alike
-/

namespace SequenceConstraint

/-! ## Lookahead groups -/

/-- Whether some nodes capture nothing and refer to nothing. -/
def Detached (nodes : List Node) : Prop :=
  captureIndices nodes = [] ∧ referenceIndices nodes = []

instance (nodes : List Node) : Decidable (Detached nodes) :=
  inferInstanceAs (Decidable (_ ∧ _))

mutual

/-- A node with empty lookahead groups; only those keep their branches that capture something in
them or refer to something. -/
def Node.emptied : Node → Node
  | .char c => .char c
  | .charClass k => .charClass k
  | .anchor a => .anchor a
  | .backreference index => .backreference index
  | .group kind branches =>
    .group kind (if kind.isLookahead ∧ Detached (branchesNodes branches) then []
      else emptiedBranches branches)
  | .repetition min max body => .repetition min max body.emptied

def emptiedBranch : List Node → List Node
  | [] => []
  | n :: ns => n.emptied :: emptiedBranch ns

def emptiedBranches : List (List Node) → List (List Node)
  | [] => []
  | b :: bs => emptiedBranch b :: emptiedBranches bs

end

/-- A tree with empty lookahead groups. Trees for which it is the same differ at most in what stands
in their lookahead groups, where that captures nothing and refers to nothing. -/
def Tree.emptied (tree : Tree) : Tree := ⟨emptiedBranches tree.branches, tree.captures⟩

mutual

/-- A node without the lookahead groups in its branches, at any depth. A lookahead group that stands
directly under a repetition stays, without its branches. -/
def Node.pruned : Node → Node
  | .char c => .char c
  | .charClass k => .charClass k
  | .anchor a => .anchor a
  | .backreference index => .backreference index
  | .group kind branches => .group kind (if kind.isLookahead then [] else prunedBranches branches)
  | .repetition min max body => .repetition min max body.pruned

def prunedBranch : List Node → List Node
  | [] => []
  | n :: ns => if n.isLookahead then prunedBranch ns else n.pruned :: prunedBranch ns

def prunedBranches : List (List Node) → List (List Node)
  | [] => []
  | b :: bs => prunedBranch b :: prunedBranches bs

end

/-- A tree without the lookahead groups in its branches. -/
def Tree.pruned (tree : Tree) : Tree := ⟨prunedBranches tree.branches, tree.captures⟩

section Laws

variable {n : Node} {b : List Node}

theorem emptiedBranch_eq (b : List Node) : emptiedBranch b = b.map Node.emptied := by
  induction b with
  | nil => rfl
  | cons n ns ih => rw [emptiedBranch, ih, List.map_cons]

theorem emptiedBranches_eq (bs : List (List Node)) : emptiedBranches bs = bs.map emptiedBranch := by
  induction bs with
  | nil => rfl
  | cons b bs ih => rw [emptiedBranches, ih, List.map_cons]

theorem isLookahead_emptied (n : Node) : n.emptied.isLookahead = n.isLookahead := by
  cases n <;> simp only [Node.emptied, Node.isLookahead]

theorem isLookahead_pruned (n : Node) : n.pruned.isLookahead = n.isLookahead := by
  cases n <;> simp only [Node.pruned, Node.isLookahead]

theorem prunedBranch_skip (hn : n.isLookahead = true) : prunedBranch (n :: b) = prunedBranch b := by
  rw [prunedBranch, if_pos hn]

theorem prunedBranch_cons (hn : n.isLookahead = false) :
    prunedBranch (n :: b) = n.pruned :: prunedBranch b := by
  rw [prunedBranch, if_neg (by simp [hn])]

theorem prunedBranch_eq (b : List Node) : prunedBranch b = (takingNodes b).map Node.pruned := by
  induction b with
  | nil => rfl
  | cons n ns ih =>
    by_cases hlook : n.isLookahead = true
    · rw [prunedBranch_skip hlook, takingNodes_skip hlook, ih]
    · rw [Bool.not_eq_true] at hlook
      rw [prunedBranch_cons hlook, takingNodes_cons hlook, ih, List.map_cons]

theorem prunedBranches_eq (bs : List (List Node)) : prunedBranches bs = bs.map prunedBranch := by
  induction bs with
  | nil => rfl
  | cons b bs ih => rw [prunedBranches, ih, List.map_cons]

/-- In a pruned branch all nodes take characters. -/
theorem takingNodes_prunedBranch (b : List Node) :
    takingNodes (prunedBranch b) = prunedBranch b := by
  rw [prunedBranch_eq, takingNodes, List.filter_map]
  congr 1
  refine List.filter_eq_self.2 fun n hn => ?_
  have htaking := (List.mem_filter.1 hn).2
  rwa [Function.comp_apply, isLookahead_pruned]

/-- Branches that are alike are alike when they are pruned. -/
theorem prunedBranch_congr {c : List Node} (h : takingNodes b = takingNodes c) :
    prunedBranch b = prunedBranch c := by
  rw [prunedBranch_eq, prunedBranch_eq, h]

theorem pruned_group {kind : GroupKind} (hkind : kind.isLookahead = false)
    (branches : List (List Node)) :
    (Node.group kind branches).pruned = .group kind (prunedBranches branches) := by
  rw [Node.pruned, if_neg (by simp [hkind])]

theorem pruned_marked (min : Nat) (max : Option Nat) (body : Node) :
    (Node.repetition 0 (some 1) (.repetition min max body)).pruned =
      .repetition 0 (some 1) (.repetition min max body.pruned) := by
  rw [Node.pruned, Node.pruned]

theorem mem_branchNodes_pruned {m : Node} (hn : n ∈ b) (hlook : n.isLookahead = false)
    (hm : m ∈ n.pruned.nodes) : m ∈ branchNodes (prunedBranch b) := by
  refine mem_branchNodes.2 ⟨n.pruned, ?_, hm⟩
  rw [prunedBranch_eq]
  exact List.mem_map_of_mem (List.mem_filter.2 ⟨hn, by simp [hlook]⟩)

theorem mem_branchesNodes_pruned {bs : List (List Node)} {m : Node} (hb : b ∈ bs) (hn : n ∈ b)
    (hlook : n.isLookahead = false) (hm : m ∈ n.pruned.nodes) :
    m ∈ branchesNodes (prunedBranches bs) := by
  refine mem_branchesNodes.2 ⟨prunedBranch b, ?_, mem_branchNodes_pruned hn hlook hm⟩
  rw [prunedBranches_eq]
  exact List.mem_map_of_mem hb

/-- A repetition that is no lazy mark does not become one. -/
theorem unmarked_pruned {min : Nat} {max : Option Nat} {body : Node}
    (hm : ∀ min' max' body', min = 0 → max = some 1 → body = .repetition min' max' body' → False) :
    ∀ min' max' body', min = 0 → max = some 1 → body.pruned = .repetition min' max' body' →
      False := by
  intro min' max' body' hmin hmax hpruned
  cases body with
  | repetition min₀ max₀ body₀ => exact hm min₀ max₀ body₀ hmin hmax rfl
  | _ => cases hpruned

end Laws

theorem prunedBranches_emptied {branches : List (List Node)}
    (h : ∀ b ∈ branches, ∀ n ∈ b, n.emptied.pruned = n.pruned) :
    prunedBranches (emptiedBranches branches) = prunedBranches branches := by
  rw [prunedBranches_eq, emptiedBranches_eq, List.map_map, prunedBranches_eq]
  refine List.map_congr_left fun b hb => ?_
  have htaking : takingNodes (b.map Node.emptied) = (takingNodes b).map Node.emptied := by
    rw [takingNodes, takingNodes, List.filter_map]
    simp only [Function.comp_def, isLookahead_emptied]
  rw [Function.comp_apply, emptiedBranch_eq, prunedBranch_eq, htaking, List.map_map,
    prunedBranch_eq]
  exact List.map_congr_left fun n hn => h b hb n (List.mem_filter.1 hn).1

/-- **What stands in the lookahead groups** of a node is of no account for the pruned node. -/
theorem Node.pruned_emptied (n : Node) : n.emptied.pruned = n.pruned := by
  induction n with
  | char c => rfl
  | charClass k => rfl
  | anchor a => rfl
  | backreference index => rfl
  | group kind branches ih =>
    rw [Node.emptied]
    cases hkind : kind.isLookahead with
    | true => rw [Node.pruned, Node.pruned, hkind, if_pos rfl, if_pos rfl]
    | false =>
      rw [if_neg (by simp), pruned_group hkind, pruned_group hkind, prunedBranches_emptied ih]
  | marked min max body ih => simp only [Node.emptied, Node.pruned, ih]
  | repetition min max body hm ih => rw [Node.emptied, Node.pruned, Node.pruned, ih]

theorem Tree.pruned_eq_of_emptied_eq {t u : Tree} (h : t.emptied = u.emptied) :
    t.pruned = u.pruned := by
  have hpruned : ∀ tree : Tree, tree.emptied.pruned = tree.pruned := fun tree =>
    congrArg (Tree.mk · tree.captures) (prunedBranches_emptied fun _ _ n _ => n.pruned_emptied)
  rw [← hpruned t, h, hpruned u]

/-! ## Branches that are told apart -/

/-- Whether branches that are alike when they are pruned are alike without that. -/
def Apart (branches : List (List Node)) : Prop :=
  ∀ b ∈ branches, ∀ c ∈ branches, prunedBranch b = prunedBranch c → takingNodes b = takingNodes c

/-- Whether no branches of a tree are told apart by lookahead groups alone. -/
def Tree.Separated (tree : Tree) : Prop :=
  ∀ branches, (branches = tree.branches ∨ ∃ kind, .group kind branches ∈ tree.nodes) →
    Apart branches

theorem planBranch_pruned {branch : List Node}
    (h : ∀ n ∈ branch, n.isLookahead = false → n.pruned.plan = n.plan) :
    planBranch (prunedBranch branch) = planBranch branch := by
  induction branch with
  | nil => rfl
  | cons n ns ih =>
    obtain ⟨hn, hns⟩ := List.forall_mem_cons.1 h
    by_cases hlook : n.isLookahead = true
    · rw [prunedBranch_skip hlook, ih hns, planBranch, if_pos hlook]
    · have hpruned := isLookahead_pruned n
      rw [Bool.not_eq_true] at hlook
      rw [prunedBranch_cons hlook, planBranch, planBranch, hpruned, hn hlook, ih hns]

theorem planBranches_pruned {branches : List (List Node)} {seen seen' : List Branch}
    (h : ∀ b ∈ branches, ∀ n ∈ b, n.isLookahead = false → n.pruned.plan = n.plan)
    (hapart : Apart branches)
    (hseen : ∀ b ∈ branches, prunedBranch b ∈ seen' ↔ takingNodes b ∈ seen) :
    planBranches seen' (prunedBranches branches) = planBranches seen branches := by
  induction branches generalizing seen seen' with
  | nil => rw [prunedBranches, planBranches, planBranches]
  | cons b bs ih =>
    obtain ⟨hb, hbs⟩ := List.forall_mem_cons.1 h
    obtain ⟨hseen₁, hseen₂⟩ := List.forall_mem_cons.1 hseen
    have hapart₂ : Apart bs := fun c hc d hd =>
      hapart c (List.mem_cons_of_mem b hc) d (List.mem_cons_of_mem b hd)
    have hnew : ∀ c ∈ bs,
        prunedBranch c ∈ prunedBranch b :: seen' ↔ takingNodes c ∈ takingNodes b :: seen := by
      intro c hc
      have hsame : prunedBranch c = prunedBranch b ↔ takingNodes c = takingNodes b :=
        ⟨hapart c (List.mem_cons_of_mem b hc) b List.mem_cons_self, prunedBranch_congr⟩
      rw [List.mem_cons, List.mem_cons, hsame, hseen₂ c hc]
    rw [prunedBranches, planBranches, planBranches, takingNodes_prunedBranch, planBranch_pruned hb]
    simp only [hseen₁, ih hbs hapart₂ hseen₂, ih hbs hapart₂ hnew]

/-- **A node is planned as the pruned node is** if no branches in it are told apart by lookahead
groups alone. -/
theorem Node.plan_pruned (n : Node) (hbare : ∀ m ∈ n.pruned.nodes, m.isLookahead = false)
    (hapart : ∀ kind branches, .group kind branches ∈ n.nodes → Apart branches) :
    n.pruned.plan = n.plan := by
  induction n with
  | char c => rfl
  | charClass k => rfl
  | anchor a => rfl
  | backreference index => rfl
  | group kind branches ih =>
    have hkind : kind.isLookahead = false := hbare _ (Node.self_mem_nodes _)
    rw [pruned_group hkind] at hbare ⊢
    have hbranches : planBranches [] (prunedBranches branches) = planBranches [] branches := by
      refine planBranches_pruned (fun b hb n hn hlook => ih b hb n hn (fun m hm => ?_) ?_)
        (hapart kind branches (Node.self_mem_nodes _)) (by simp)
      · exact hbare m (List.mem_cons_of_mem _ (mem_branchesNodes_pruned hb hn hlook hm))
      · exact fun kind' bs hm =>
          hapart kind' bs (List.mem_cons_of_mem _ (mem_branchesNodes_of_mem hb hn hm))
    rw [Node.plan, Node.plan, hbranches]
  | marked min max body ih =>
    rw [pruned_marked] at hbare ⊢
    rw [Node.plan, Node.plan, ih (fun m hm => hbare m (List.mem_cons_of_mem _
      (List.mem_cons_of_mem _ hm))) fun kind bs hm => hapart kind bs (List.mem_cons_of_mem _
      (List.mem_cons_of_mem _ hm))]
  | repetition min max body hm ih =>
    rw [Node.pruned] at hbare ⊢
    rw [Node.plan, Node.plan, ih (fun m hm => hbare m (List.mem_cons_of_mem _ hm))
      fun kind bs hm => hapart kind bs (List.mem_cons_of_mem _ hm)]
    · exact hm
    · exact unmarked_pruned hm

theorem Tree.Separated.plan_pruned {tree : Tree} (h : tree.Separated)
    (hbare : ∀ m ∈ tree.pruned.nodes, m.isLookahead = false) : tree.pruned.plan = tree.plan := by
  have hbranches :
      planBranches [] (prunedBranches tree.branches) = planBranches [] tree.branches := by
    refine planBranches_pruned (fun b hb n hn hlook => n.plan_pruned (fun m hm => ?_) ?_)
      (h tree.branches (.inl rfl)) (by simp)
    · exact hbare m (mem_branchesNodes_pruned hb hn hlook hm)
    · exact fun kind bs hm => h bs (.inr ⟨kind, mem_branchesNodes_of_mem hb hn hm⟩)
  unfold Tree.plan Tree.pruned
  rw [hbranches]

/-! ## Groups that are complete -/

/-- Whether all groups that are complete for one naming are complete for another one. -/
structure Naming.Within (σ τ : Naming) : Prop where
  limit : τ.limit = σ.limit
  named : ∀ index, (σ.name? index).isSome → (τ.name? index).isSome

/-- Whether the same groups are complete for two namings. -/
structure Naming.SameGroups (σ τ : Naming) : Prop where
  le : σ.Within τ
  ge : τ.Within σ

namespace Naming

variable {σ τ υ : Naming} {index : Nat}

theorem isSome_name?_record (σ : Naming) (index : Nat) (body : Plan) (i : Nat) :
    ((σ.record index body).2.name? i).isSome ↔
      (σ.name? i).isSome ∨ (i = index ∧ index ≤ σ.limit) := by
  by_cases hindex : index ≤ σ.limit
  · rw [name?_record hindex]
    split
    · rename_i hi
      simp [hi, hindex]
    · rename_i hi
      simp [hi]
  · rw [record, if_neg hindex]
    simp [hindex]

theorem limit_record (σ : Naming) (index : Nat) (body : Plan) :
    (σ.record index body).2.limit = σ.limit := by
  unfold record
  split
  · rfl
  · rfl

namespace Within

theorem refl (σ : Naming) : σ.Within σ := ⟨rfl, fun _ => id⟩

theorem trans (h : σ.Within τ) (h' : τ.Within υ) : σ.Within υ :=
  ⟨h'.limit.trans h.limit, fun i hi => h'.named i (h.named i hi)⟩

theorem record (σ : Naming) (index : Nat) (body : Plan) : σ.Within (σ.record index body).2 :=
  ⟨limit_record σ index body, fun i hi => (isSome_name?_record σ index body i).2 (.inl hi)⟩

theorem record_record (h : σ.Within τ) (index : Nat) (p q : Plan) :
    (σ.record index p).2.Within (τ.record index q).2 where
  limit := by rw [limit_record, limit_record, h.limit]
  named i hi := by
    rw [isSome_name?_record] at hi ⊢
    rw [h.limit]
    exact hi.imp_left (h.named i)

end Within

namespace SameGroups

theorem refl (σ : Naming) : σ.SameGroups σ := ⟨.refl σ, .refl σ⟩

theorem symm (h : σ.SameGroups τ) : τ.SameGroups σ := ⟨h.ge, h.le⟩

theorem trans (h : σ.SameGroups τ) (h' : τ.SameGroups υ) : σ.SameGroups υ :=
  ⟨h.le.trans h'.le, h'.ge.trans h.ge⟩

theorem isSome_name? (h : σ.SameGroups τ) (index : Nat) :
    (σ.name? index).isSome = (τ.name? index).isSome :=
  Bool.eq_iff_iff.2 ⟨h.le.named index, h.ge.named index⟩

theorem record (h : σ.SameGroups τ) (index : Nat) (p q : Plan) :
    (σ.record index p).2.SameGroups (τ.record index q).2 :=
  ⟨h.le.record_record index p q, h.ge.record_record index q p⟩

/-- A group that is complete can be completed again. -/
theorem record_again {p q : Plan} (h : (σ.record index p).2.Within τ) :
    τ.SameGroups (τ.record index q).2 where
  le := .record τ index q
  ge := by
    refine ⟨(limit_record τ index q).symm, fun i hi => ?_⟩
    rcases (isSome_name?_record τ index q i).1 hi with hi | ⟨rfl, hlimit⟩
    · exact hi
    · refine h.named i ((isSome_name?_record σ i p i).2 (.inr ⟨rfl, ?_⟩))
      rwa [h.limit, limit_record] at hlimit

end SameGroups

end Naming

/-! ## Planning again -/

/-- Whether one computation comes to an end after another one has, and completes no groups that are
not complete by then. -/
def Replays {α β : Type} (m : Planning α) (k : Planning β) : Prop :=
  ∀ σ a σ₁, m σ = .ok (a, σ₁) → σ.Within σ₁ ∧
    ∀ τ, σ₁.Within τ → ∃ b τ₁, k τ = .ok (b, τ₁) ∧ τ.SameGroups τ₁

section Replays

variable {α β γ δ : Type}

theorem Replays.pure (a : α) (b : β) : Replays (pure a) (pure b) := by
  intro σ a' σ₁ h
  obtain ⟨-, rfl⟩ := run_pure_eq_ok.1 h
  exact ⟨.refl σ₁, fun τ _ => ⟨b, τ, rfl, .refl τ⟩⟩

theorem Replays.bind {m : Planning α} {k : Planning β} {f : α → Planning γ} {g : β → Planning δ}
    (h : Replays m k) (hnext : ∀ a b, Replays (f a) (g b)) : Replays (m >>= f) (k >>= g) := by
  intro σ c σ₂ hrun
  obtain ⟨a, σ₁, hm, hf⟩ := run_bind_eq_ok.1 hrun
  obtain ⟨hfirst, hagain⟩ := h σ a σ₁ hm
  obtain ⟨b₀, -⟩ := hagain σ₁ (.refl σ₁)
  obtain ⟨hsecond, -⟩ := hnext a b₀ σ₁ c σ₂ hf
  refine ⟨hfirst.trans hsecond, fun τ hτ => ?_⟩
  obtain ⟨b, τ₁, hk, hsame⟩ := hagain τ (hsecond.trans hτ)
  obtain ⟨d, τ₂, hg, hsame'⟩ := (hnext a b σ₁ c σ₂ hf).2 τ₁ (hτ.trans hsame.le)
  exact ⟨d, τ₂, run_bind_eq_ok.2 ⟨b, τ₁, hk, hg⟩, hsame.trans hsame'⟩

theorem Replays.record (index : Nat) (p q : Plan) :
    Replays (modifyGet (Naming.record index p)) (modifyGet (Naming.record index q)) := by
  intro σ a σ₁ h
  have h : Except.ok (σ.record index p) = .ok (a, σ₁) := h
  have hσ₁ : σ₁ = (σ.record index p).2 := by
    rw [Except.ok.inj h]
  subst hσ₁
  exact ⟨.record σ index p, fun τ hτ => ⟨_, _, rfl, .record_again hτ⟩⟩

theorem replays_branch {branch : List Node} (hnodes : ∀ n ∈ branch, Replays n.plan n.plan) :
    Replays (planBranch branch) (planBranch branch) := by
  induction branch with
  | nil =>
    rw [planBranch]
    exact .pure [] []
  | cons n ns ih =>
    obtain ⟨hn, hns⟩ := List.forall_mem_cons.1 hnodes
    rw [planBranch]
    split
    · exact ih hns
    · exact hn.bind fun p q => (ih hns).bind fun ps qs => .pure _ _

theorem replays_branches {branches : List (List Node)}
    (hnodes : ∀ b ∈ branches, ∀ n ∈ b, Replays n.plan n.plan) (seen : List Branch) :
    Replays (planBranches seen branches) (planBranches seen branches) := by
  induction branches generalizing seen with
  | nil =>
    rw [planBranches]
    exact .pure [] []
  | cons b bs ih =>
    obtain ⟨hb, hbs⟩ := List.forall_mem_cons.1 hnodes
    rw [planBranches]
    split
    · exact ih hbs seen
    · exact (replays_branch hb).bind fun ps qs => (ih hbs _).bind fun rest rest' => .pure _ _

/-- **A node that has been planned can be planned again later,** and completes no other groups
then. -/
theorem Node.replays (n : Node) : Replays n.plan n.plan := by
  induction n with
  | char c =>
    rw [Node.plan]
    exact .pure _ _
  | charClass k =>
    rw [Node.plan]
    exact .pure _ _
  | anchor a =>
    rw [Node.plan]
    exact .pure _ _
  | backreference index =>
    intro σ p σ₁ hplan
    obtain ⟨name, hname, -, rfl⟩ := plan_backreference_iff.1 hplan
    refine ⟨.refl σ₁, fun τ hτ => ?_⟩
    obtain ⟨name', hname'⟩ := Option.isSome_iff_exists.1 (hτ.named index (by simp [hname]))
    exact ⟨_, τ, plan_backreference_iff.2 ⟨name', hname', rfl, rfl⟩, .refl τ⟩
  | group kind branches ih =>
    rw [Node.plan]
    refine (replays_branches ih []).bind fun ps qs => ?_
    cases kind with
    | capture index => exact .record index _ _
    | plain => exact .pure _ _
    | lookahead negative => exact .pure _ _
  | marked min max body ih =>
    rw [Node.plan]
    exact ih.bind fun p q => .pure _ _
  | repetition min max body hm ih =>
    rw [Node.plan]
    · exact ih.bind fun p q => .pure _ _
    · exact hm

end Replays

/-! ## Planning what is pruned -/

section Pruned

variable {σ τ : Naming}

/-- Whether a node and the pruned node fail alike where the same groups are complete, and complete
the same groups. -/
def Node.PrunesAlong (n : Node) : Prop :=
  (∀ m ∈ n.pruned.nodes, m.isLookahead = false) → ∀ σ τ, σ.SameGroups τ →
    AlongSide Naming.SameGroups (n.plan σ) (n.pruned.plan τ)

theorem prunesAlong_branch {branch : List Node} (hnodes : ∀ n ∈ branch, n.PrunesAlong)
    (hbare : ∀ m ∈ branchNodes (prunedBranch branch), m.isLookahead = false)
    (h : σ.SameGroups τ) :
    AlongSide Naming.SameGroups (planBranch branch σ) (planBranch (prunedBranch branch) τ) := by
  induction branch generalizing σ τ with
  | nil =>
    rw [prunedBranch, planBranch]
    exact .finish [] [] h
  | cons n ns ih =>
    obtain ⟨hn, hns⟩ := List.forall_mem_cons.1 hnodes
    by_cases hlook : n.isLookahead = true
    · rw [prunedBranch_skip hlook] at hbare ⊢
      rw [planBranch_skip hlook]
      exact ih hns hbare h
    · rw [Bool.not_eq_true] at hlook
      rw [prunedBranch_cons hlook] at hbare ⊢
      obtain ⟨hbare₁, hbare₂⟩ := List.forall_mem_append.1 hbare
      rw [planBranch, planBranch, if_neg (by simp [hlook]),
        if_neg (by simp [isLookahead_pruned, hlook])]
      refine (hn hbare₁ σ τ h).bind fun p q σ₁ τ₁ _ h₁ => ?_
      exact (ih hns hbare₂ h₁).bind fun ps qs σ₂ τ₂ _ h₂ => .finish _ _ h₂

/-- What is known after some branches: those like one that has been seen have been seen when they
are pruned, and all that have been seen then can be planned again. -/
structure Passed (seen seen' : List Branch) (τ : Naming) : Prop where
  seen : ∀ b, takingNodes b ∈ seen → prunedBranch b ∈ seen'
  again : ∀ c ∈ seen', ∀ υ, τ.Within υ →
    ∃ ps υ₁, planBranch c υ = .ok (ps, υ₁) ∧ υ.SameGroups υ₁

namespace Passed

variable {seen seen' : List Branch} {b : List Node}

theorem nil (τ : Naming) : Passed [] [] τ :=
  ⟨fun _ => List.not_mem_nil.elim, fun _ => List.not_mem_nil.elim⟩

/-- A branch that has been seen when it is pruned. -/
theorem skip (h : Passed seen seen' τ) (hb : prunedBranch b ∈ seen') :
    Passed (takingNodes b :: seen) seen' τ where
  seen c hc := by
    rcases List.mem_cons.1 hc with hc | hc
    · rwa [prunedBranch_congr hc]
    · exact h.seen c hc
  again := h.again

/-- A branch that is new when it is pruned, and is planned. -/
theorem cons (h : Passed seen seen' τ) {qs : List Plan} {τ₁ : Naming}
    (hqs : planBranch (prunedBranch b) τ = .ok (qs, τ₁)) :
    Passed (takingNodes b :: seen) (prunedBranch b :: seen') τ₁ := by
  obtain ⟨hwithin, hreplay⟩ := replays_branch (fun n _ => n.replays) τ qs τ₁ hqs
  refine ⟨fun c hc => ?_, List.forall_mem_cons.2 ⟨hreplay, fun c hc υ hυ => ?_⟩⟩
  · rcases List.mem_cons.1 hc with hc | hc
    · exact List.mem_cons.2 (.inl (prunedBranch_congr hc))
    · exact List.mem_cons_of_mem _ (h.seen c hc)
  · exact h.again c hc υ (hwithin.trans hυ)

end Passed

/-- Branches that are alike only when they are pruned are planned one by one on the one side. On the
other side the first of them is planned and the others are left out, but they can be planned again
by now. -/
theorem prunesAlong_branches {branches : List (List Node)} {seen seen' : List Branch}
    (hnodes : ∀ b ∈ branches, ∀ n ∈ b, n.PrunesAlong)
    (hbare : ∀ m ∈ branchesNodes (prunedBranches branches), m.isLookahead = false)
    (hpassed : Passed seen seen' τ) (h : σ.SameGroups τ) :
    AlongSide Naming.SameGroups (planBranches seen branches σ)
      (planBranches seen' (prunedBranches branches) τ) := by
  induction branches generalizing σ τ seen seen' with
  | nil =>
    rw [prunedBranches, planBranches, planBranches]
    exact .finish [] [] h
  | cons b bs ih =>
    obtain ⟨hb, hbs⟩ := List.forall_mem_cons.1 hnodes
    rw [prunedBranches] at hbare ⊢
    obtain ⟨hbare₁, hbare₂⟩ := List.forall_mem_append.1 hbare
    have hbranch := prunesAlong_branch hb hbare₁ h
    have htaking := takingNodes_prunedBranch b
    by_cases hold : takingNodes b ∈ seen
    · have hold' := hpassed.seen b hold
      rw [planBranches_skip hold, planBranches_skip (by rwa [htaking])]
      exact ih hbs hbare₂ hpassed h
    · rw [planBranches, if_neg hold]
      by_cases hold' : prunedBranch b ∈ seen'
      · rw [planBranches_skip (by rwa [htaking])]
        obtain ⟨qs, τ₁, hqs, hsame⟩ := hpassed.again _ hold' τ (.refl τ)
        obtain ⟨ps, σ₁, hps, h₁⟩ := hbranch.exists_eq_ok hqs
        refine AlongSide.bind_left hps ?_
        rw [← bind_pure (planBranches seen' (prunedBranches bs))]
        exact (ih hbs hbare₂ (hpassed.skip hold') (h₁.trans hsame.symm)).bind
          fun rest _ σ₂ τ₂ _ h₂ => .finish _ _ h₂
      · rw [planBranches, htaking, if_neg hold']
        refine hbranch.bind fun ps qs σ₁ τ₁ hqs h₁ => ?_
        exact (ih hbs hbare₂ (hpassed.cons hqs) h₁).bind
          fun rest rest' σ₂ τ₂ _ h₂ => .finish _ _ h₂

theorem prunesAlong_times {body : Node} {min : Nat} {max : Option Nat} (hbody : body.PrunesAlong)
    (hbare : ∀ m ∈ body.pruned.nodes, m.isLookahead = false) (h : σ.SameGroups τ) :
    AlongSide Naming.SameGroups ((do return .times min max (← body.plan) : Planning Plan) σ)
      ((do return .times min max (← body.pruned.plan) : Planning Plan) τ) :=
  (hbody hbare σ τ h).bind fun _ _ _ _ _ h' => .finish _ _ h'

/-- **A node and the pruned node fail alike.** -/
theorem Node.prunesAlong (n : Node) : n.PrunesAlong := by
  induction n with
  | char c =>
    intro _ σ τ h
    rw [Node.pruned, Node.plan]
    exact .finish _ _ h
  | charClass k =>
    intro _ σ τ h
    rw [Node.pruned, Node.plan]
    exact .finish _ _ h
  | anchor a =>
    intro _ σ τ h
    rw [Node.pruned, Node.plan]
    exact .finish _ _ h
  | backreference index =>
    intro _ σ τ h
    have hnamed := h.isSome_name? index
    rw [Node.pruned]
    cases hσ : σ.name? index with
    | none =>
      rw [hσ] at hnamed
      have hτ : τ.name? index = none :=
        Option.isNone_iff_eq_none.1 (Option.isSome_eq_false_iff.1 hnamed.symm)
      rw [plan_backreference_of_none hσ, plan_backreference_of_none hτ]
      exact .fail ⟨index⟩
    | some name =>
      rw [hσ] at hnamed
      obtain ⟨name', hτ⟩ := Option.isSome_iff_exists.1 hnamed.symm
      rw [plan_backreference_iff.2 ⟨name, hσ, rfl, rfl⟩,
        plan_backreference_iff.2 ⟨name', hτ, rfl, rfl⟩]
      exact .finish _ _ h
  | group kind branches ih =>
    intro hbare σ τ h
    have hkind : kind.isLookahead = false := hbare _ (Node.self_mem_nodes _)
    rw [pruned_group hkind] at hbare ⊢
    rw [Node.plan, Node.plan]
    have hbranches : AlongSide Naming.SameGroups (planBranches [] branches σ)
        (planBranches [] (prunedBranches branches) τ) :=
      prunesAlong_branches ih (fun m hm => hbare m (List.mem_cons_of_mem _ hm)) (.nil τ) h
    refine hbranches.bind fun ps qs σ₁ τ₁ _ h₁ => ?_
    cases kind with
    | capture index => exact .finish _ _ (h₁.record index _ _)
    | plain => exact .finish _ _ h₁
    | lookahead negative => cases hkind
  | marked min max body ih =>
    intro hbare σ τ h
    rw [pruned_marked] at hbare ⊢
    rw [Node.plan, Node.plan]
    exact prunesAlong_times ih
      (fun m hm => hbare m (List.mem_cons_of_mem _ (List.mem_cons_of_mem _ hm))) h
  | repetition min max body hm ih =>
    intro hbare σ τ h
    rw [Node.pruned] at hbare ⊢
    rw [Node.plan, Node.plan]
    · exact prunesAlong_times ih (fun m hm => hbare m (List.mem_cons_of_mem _ hm)) h
    · exact unmarked_pruned hm
    · exact hm

/-- Planning a node gives fresh names to the groups of the pruned node only. -/
theorem Node.plansFreshly_pruned {indices : List Nat} (n : Node)
    (hbare : ∀ m ∈ n.pruned.nodes, m.isLookahead = false)
    (h : ∀ i ∈ captureIndices n.pruned.nodes, i ∈ indices) : n.PlansFreshly indices := by
  induction n with
  | char c => exact Node.plansFreshly_of _ h
  | charClass k => exact Node.plansFreshly_of _ h
  | anchor a => exact Node.plansFreshly_of _ h
  | backreference index => exact Node.plansFreshly_of _ h
  | group kind branches ih =>
    have hkind : kind.isLookahead = false := hbare _ (Node.self_mem_nodes _)
    rw [pruned_group hkind] at hbare h
    refine plansFreshly_group (fun b hb n hn hlook => ?_) ?_
    · have hsub : ∀ m ∈ n.pruned.nodes, m ∈ (Node.group kind (prunedBranches branches)).nodes :=
        fun m hm => List.mem_cons_of_mem _ (mem_branchesNodes_pruned hb hn hlook hm)
      exact ih b hb n hn (fun m hm => hbare m (hsub m hm))
        fun i hi => h i (captureIndices_subset hsub i hi)
    · rintro index rfl
      exact h index List.mem_cons_self
  | marked min max body ih =>
    rw [pruned_marked] at hbare h
    exact plansFreshly_marked (ih (fun m hm =>
      hbare m (List.mem_cons_of_mem _ (List.mem_cons_of_mem _ hm))) h) min max
  | repetition min max body hm ih =>
    rw [Node.pruned] at hbare h
    exact plansFreshly_repetition hm (ih (fun m hm => hbare m (List.mem_cons_of_mem _ hm)) h)

variable {ps : List Plan}

theorem planBranch_extends_pruned {branch : List Node}
    (hbare : ∀ m ∈ branchNodes (prunedBranch branch), m.isLookahead = false)
    (hp : planBranch branch σ = .ok (ps, τ)) :
    Naming.Extends (captureIndices (branchNodes (prunedBranch branch))) (partsNames ps) σ τ := by
  refine planBranch_extends_of (fun n hn hlook => ?_) hp
  have hsub : ∀ m ∈ n.pruned.nodes, m ∈ branchNodes (prunedBranch branch) := fun m hm =>
    mem_branchNodes_pruned hn hlook hm
  exact n.plansFreshly_pruned (fun m hm => hbare m (hsub m hm)) (captureIndices_subset hsub)

theorem planBranches_extends_pruned {branches : List (List Node)} {seen : List Branch}
    (hbare : ∀ m ∈ branchesNodes (prunedBranches branches), m.isLookahead = false)
    (hp : planBranches seen branches σ = .ok (ps, τ)) :
    Naming.Extends (captureIndices (branchesNodes (prunedBranches branches))) (partsNames ps) σ
      τ := by
  refine planBranches_extends_of (fun b hb n hn hlook => ?_) hp
  have hsub : ∀ m ∈ n.pruned.nodes, m ∈ branchesNodes (prunedBranches branches) := fun m hm =>
    mem_branchesNodes_pruned hb hn hlook hm
  exact n.plansFreshly_pruned (fun m hm => hbare m (hsub m hm)) (captureIndices_subset hsub)

end Pruned

/-- **A tree and the pruned tree fail alike:** neither can be planned, because of the same
backreference, or both can. -/
theorem Tree.failsAlike_pruned {tree : Tree}
    (hbare : ∀ m ∈ tree.pruned.nodes, m.isLookahead = false) :
    (∃ e, tree.plan = .error e ∧ tree.pruned.plan = .error e) ∨
      ∃ p q, tree.plan = .ok p ∧ tree.pruned.plan = .ok q := by
  have h : AlongSide Naming.SameGroups (planBranches [] tree.branches (.start tree.captures))
      (planBranches [] (prunedBranches tree.branches) (.start tree.captures)) :=
    prunesAlong_branches (fun _ _ n _ => n.prunesAlong) hbare (.nil _) (.refl _)
  unfold Tree.plan StateT.run Tree.pruned
  generalize planBranches [] tree.branches (.start tree.captures) = x at h ⊢
  generalize planBranches [] (prunedBranches tree.branches) (.start tree.captures) = y at h ⊢
  cases h with
  | fail e => exact .inl ⟨e, rfl, rfl⟩
  | finish ps qs h => exact .inr ⟨.ofBranches ps, .ofBranches qs, rfl, rfl⟩

end SequenceConstraint
