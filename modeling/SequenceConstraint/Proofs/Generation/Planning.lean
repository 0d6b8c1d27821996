import SequenceConstraint.Proofs.Generation.Names

/-!
# Planning

How a tree becomes a plan, law by law: what it means for each kind of node, for a branch and for an
alternation that planning succeeds, and with which plan.

## Main statements

* `plan_group_iff`, `plan_repetition_iff`, … — one law for each kind of node
* `AlongSide.bind` — two computations that fail alike, step by step
* `Node.plansFreshly` — planning a node gives fresh names to its own groups
-/

namespace SequenceConstraint

/-! ## Steps of planning -/

section Steps

variable {S α β : Type} {σ : S}

theorem run_bind_eq_ok {m : StateT S (Except Dangling) α} {f : α → StateT S (Except Dangling) β}
    {x : β × S} : (m >>= f) σ = .ok x ↔ ∃ a σ₁, m σ = .ok (a, σ₁) ∧ f a σ₁ = .ok x := by
  simp only [bind, StateT.bind, Except.bind]
  cases m σ with
  | error e => simp
  | ok v =>
    constructor
    · intro h
      exact ⟨v.1, v.2, rfl, h⟩
    · rintro ⟨a, σ₁, ha, h⟩
      cases ha
      exact h

theorem run_pure_eq_ok {a b : α} {σ' : S} :
    (pure a : StateT S (Except Dangling) α) σ = .ok (b, σ') ↔ b = a ∧ σ' = σ := by
  change Except.ok (a, σ) = .ok (b, σ') ↔ _
  simp [eq_comm]

end Steps

/-- Whether two computations both fail, with the same backreference, or both come to an end in
states that are related. -/
inductive AlongSide {S T α β : Type} (R : S → T → Prop) :
    Except Dangling (α × S) → Except Dangling (β × T) → Prop
  | fail (e : Dangling) : AlongSide R (.error e) (.error e)
  | finish (a : α) (b : β) {σ : S} {τ : T} (h : R σ τ) : AlongSide R (.ok (a, σ)) (.ok (b, τ))

section AlongSide

variable {S T α β γ δ : Type} {R : S → T → Prop} {σ σ₁ : S} {τ τ₁ : T}
  {m : StateT S (Except Dangling) α} {k : StateT T (Except Dangling) β}
  {f : α → StateT S (Except Dangling) γ} {g : β → StateT T (Except Dangling) δ}

/-- **One step after another:** what comes next need only be compared where both have come to an
end. -/
theorem AlongSide.bind (h : AlongSide R (m σ) (k τ))
    (hnext : ∀ a b σ₁ τ₁, k τ = .ok (b, τ₁) → R σ₁ τ₁ → AlongSide R (f a σ₁) (g b τ₁)) :
    AlongSide R ((m >>= f) σ) ((k >>= g) τ) := by
  simp only [Bind.bind, StateT.bind, Except.bind]
  generalize m σ = x at h
  generalize k τ = y at h hnext
  cases h with
  | fail e => exact .fail e
  | finish a b h => exact hnext a b _ _ rfl h

/-- A step on one side only. -/
theorem AlongSide.bind_left {a : α} (hm : m σ = .ok (a, σ₁)) (h : AlongSide R (f a σ₁) (k τ)) :
    AlongSide R ((m >>= f) σ) (k τ) := by
  simp only [Bind.bind, StateT.bind, Except.bind, hm]
  exact h

theorem AlongSide.exists_eq_ok {b : β} (h : AlongSide R (m σ) (k τ)) (hk : k τ = .ok (b, τ₁)) :
    ∃ a σ₁, m σ = .ok (a, σ₁) ∧ R σ₁ τ₁ := by
  rw [hk] at h
  generalize m σ = x at h ⊢
  cases h with
  | finish a b h => exact ⟨a, _, rfl, h⟩

end AlongSide

/-- A group around a body, with a name of its own if it captures. -/
def GroupKind.close (kind : GroupKind) (body : Plan) (σ : Naming) : Plan × Naming :=
  match kind with
  | .capture index => σ.record index body
  | _ => (body, σ)

section Laws

variable {σ σ' : Naming} {p : Plan}

theorem plan_char_iff {c : Char} :
    (Node.char c).plan σ = .ok (p, σ') ↔ p = .texts [[c]] ∧ σ' = σ := by
  rw [Node.plan]
  exact run_pure_eq_ok

theorem plan_charClass_iff {k : CharClass} :
    (Node.charClass k).plan σ = .ok (p, σ') ↔
      p = .texts (k.resolve.toList.map fun c => [c]) ∧ σ' = σ := by
  rw [Node.plan]
  exact run_pure_eq_ok

theorem plan_anchor_iff {a : Anchor} :
    (Node.anchor a).plan σ = .ok (p, σ') ↔ p = .texts [[]] ∧ σ' = σ := by
  rw [Node.plan]
  exact run_pure_eq_ok

theorem plan_backreference_iff {index : Nat} :
    (Node.backreference index).plan σ = .ok (p, σ') ↔
      ∃ name, σ.name? index = some name ∧ p = .echo name ∧ σ' = σ := by
  rw [Node.plan, run_bind_eq_ok]
  constructor
  · rintro ⟨a, σ₁, hget, h⟩
    cases hget
    cases hname : σ.name? index with
    | none =>
      rw [hname] at h
      cases h
    | some name =>
      rw [hname] at h
      exact ⟨name, rfl, run_pure_eq_ok.1 h⟩
  · rintro ⟨name, hname, rfl, rfl⟩
    refine ⟨σ', σ', rfl, ?_⟩
    rw [hname]
    rfl

theorem plan_backreference_of_none {index : Nat} (h : σ.name? index = none) :
    (Node.backreference index).plan σ = .error ⟨index⟩ := by
  rw [Node.plan]
  simp only [bind, StateT.bind, get, getThe, MonadStateOf.get, StateT.get, pure, Except.pure,
    Except.bind, h]
  rfl

theorem plan_group_iff {kind : GroupKind} {branches : List (List Node)} :
    (Node.group kind branches).plan σ = .ok (p, σ') ↔
      ∃ ps σ₁, planBranches [] branches σ = .ok (ps, σ₁) ∧
        (p, σ') = kind.close (Plan.ofBranches ps) σ₁ := by
  rw [Node.plan, run_bind_eq_ok]
  refine exists_congr fun ps => exists_congr fun σ₁ => and_congr_right fun _ => ?_
  cases kind with
  | capture index =>
    change Except.ok (σ₁.record index (Plan.ofBranches ps)) = .ok (p, σ') ↔ _
    rw [Except.ok.injEq, eq_comm]
    rfl
  | plain =>
    change (pure (Plan.ofBranches ps) : Planning Plan) σ₁ = .ok (p, σ') ↔ _
    rw [run_pure_eq_ok]
    show _ ↔ (p, σ') = (Plan.ofBranches ps, σ₁)
    rw [Prod.mk.injEq]
  | lookahead negative =>
    change (pure (Plan.ofBranches ps) : Planning Plan) σ₁ = .ok (p, σ') ↔ _
    rw [run_pure_eq_ok]
    show _ ↔ (p, σ') = (Plan.ofBranches ps, σ₁)
    rw [Prod.mk.injEq]

theorem plan_times_iff {min : Nat} {max : Option Nat} {body : Node} :
    ((do return .times min max (← body.plan)) : Planning Plan) σ = .ok (p, σ') ↔
      ∃ b, body.plan σ = .ok (b, σ') ∧ p = .times min max b := by
  rw [run_bind_eq_ok]
  constructor
  · rintro ⟨b, σ₁, hb, h⟩
    obtain ⟨rfl, rfl⟩ := run_pure_eq_ok.1 h
    exact ⟨b, hb, rfl⟩
  · rintro ⟨b, hb, rfl⟩
    exact ⟨b, σ', hb, rfl⟩

theorem plan_marked_iff {min : Nat} {max : Option Nat} {body : Node} :
    (Node.repetition 0 (some 1) (.repetition min max body)).plan σ = .ok (p, σ') ↔
      ∃ b, body.plan σ = .ok (b, σ') ∧ p = .times min max b := by
  rw [Node.plan]
  exact plan_times_iff

theorem plan_repetition_iff {min : Nat} {max : Option Nat} {body : Node}
    (hm : ∀ min' max' body', min = 0 → max = some 1 → body = .repetition min' max' body' → False) :
    (Node.repetition min max body).plan σ = .ok (p, σ') ↔
      ∃ b, body.plan σ = .ok (b, σ') ∧ p = .times min max b := by
  rw [Node.plan]
  · exact plan_times_iff
  · exact hm

/-! ### Branches -/

variable {ps : List Plan} {n : Node} {b : Branch} {bs : List (List Node)} {seen : List Branch}

theorem planBranch_nil_iff : planBranch [] σ = .ok (ps, σ') ↔ ps = [] ∧ σ' = σ := by
  rw [planBranch]
  exact run_pure_eq_ok

theorem planBranch_skip (hn : n.isLookahead = true) (σ : Naming) :
    planBranch (n :: b) σ = planBranch b σ := by
  rw [planBranch, if_pos hn]

theorem planBranch_cons_iff (hn : n.isLookahead = false) :
    planBranch (n :: b) σ = .ok (ps, σ') ↔
      ∃ p σ₁ rest, n.plan σ = .ok (p, σ₁) ∧ planBranch b σ₁ = .ok (rest, σ') ∧ ps = p :: rest := by
  rw [planBranch, if_neg (by simp [hn]), run_bind_eq_ok]
  refine exists_congr fun p => exists_congr fun σ₁ => ?_
  rw [run_bind_eq_ok]
  constructor
  · rintro ⟨hp, rest, σ₂, hrest, h⟩
    obtain ⟨rfl, rfl⟩ := run_pure_eq_ok.1 h
    exact ⟨rest, hp, hrest, rfl⟩
  · rintro ⟨rest, hp, hrest, rfl⟩
    exact ⟨hp, rest, σ', hrest, rfl⟩

theorem planBranches_nil_iff : planBranches seen [] σ = .ok (ps, σ') ↔ ps = [] ∧ σ' = σ := by
  rw [planBranches]
  exact run_pure_eq_ok

/-- A branch like one before it is left out. -/
theorem planBranches_skip (hb : takingNodes b ∈ seen) (σ : Naming) :
    planBranches seen (b :: bs) σ = planBranches seen bs σ := by
  rw [planBranches, if_pos hb]

theorem planBranches_cons_iff (hb : takingNodes b ∉ seen) :
    planBranches seen (b :: bs) σ = .ok (ps, σ') ↔
      ∃ parts σ₁ rest, planBranch b σ = .ok (parts, σ₁) ∧
        planBranches (takingNodes b :: seen) bs σ₁ = .ok (rest, σ') ∧
        ps = .concat parts :: rest := by
  rw [planBranches, if_neg hb, run_bind_eq_ok]
  refine exists_congr fun parts => exists_congr fun σ₁ => ?_
  rw [run_bind_eq_ok]
  constructor
  · rintro ⟨hparts, rest, σ₂, hrest, h⟩
    obtain ⟨rfl, rfl⟩ := run_pure_eq_ok.1 h
    exact ⟨rest, hparts, hrest, rfl⟩
  · rintro ⟨rest, hparts, hrest, rfl⟩
    exact ⟨hparts, rest, σ', hrest, rfl⟩

/-! ### Trees -/

theorem Tree.plan_eq_ok_iff {tree : Tree} :
    tree.plan = .ok p ↔
      ∃ ps σ, planBranches [] tree.branches (.start tree.captures) = .ok (ps, σ) ∧
        p = .ofBranches ps := by
  unfold Tree.plan StateT.run
  constructor
  · intro h
    split at h
    · rename_i ps σ hps
      cases h
      exact ⟨ps, σ, hps, rfl⟩
    · cases h
  · rintro ⟨ps, σ, hps, rfl⟩
    rw [hps]

theorem Stream.ofTree_eq_ok_iff {cap : Nat} {tree : Tree} {stream : Stream} :
    Stream.ofTree cap tree = .ok stream ↔ ∃ p, tree.plan = .ok p ∧ stream = .ofPlan cap p := by
  unfold Stream.ofTree
  cases tree.plan with
  | error e => simp [Except.map]
  | ok p => simp [Except.map, eq_comm]

end Laws

/-! ## What planning leaves alone -/

/-- Whether planning a node gives fresh names, and only to groups with one of some indices. -/
def Node.PlansFreshly (indices : List Nat) (n : Node) : Prop :=
  ∀ σ p σ', n.plan σ = .ok (p, σ') → Naming.Extends indices p.names σ σ'

section Fresh

variable {σ σ' : Naming} {ps : List Plan} {indices : List Nat}

theorem planBranch_extends_of {branch : Branch}
    (h : ∀ n ∈ branch, n.isLookahead = false → n.PlansFreshly indices)
    (hp : planBranch branch σ = .ok (ps, σ')) : Naming.Extends indices (partsNames ps) σ σ' := by
  induction branch generalizing σ ps with
  | nil =>
    obtain ⟨rfl, rfl⟩ := planBranch_nil_iff.1 hp
    exact .refl σ'
  | cons n ns ih =>
    obtain ⟨hn, hns⟩ := List.forall_mem_cons.1 h
    by_cases hlook : n.isLookahead = true
    · rw [planBranch_skip hlook] at hp
      exact ih hns hp
    · rw [Bool.not_eq_true] at hlook
      obtain ⟨p, σ₁, rest, hfirst, hrest, rfl⟩ := (planBranch_cons_iff hlook).1 hp
      exact (hn hlook σ p σ₁ hfirst).trans (ih hns hrest)

theorem planBranches_extends_of {branches : List (List Node)} {seen : List Branch}
    (h : ∀ b ∈ branches, ∀ n ∈ b, n.isLookahead = false → n.PlansFreshly indices)
    (hp : planBranches seen branches σ = .ok (ps, σ')) :
    Naming.Extends indices (partsNames ps) σ σ' := by
  induction branches generalizing σ ps seen with
  | nil =>
    obtain ⟨rfl, rfl⟩ := planBranches_nil_iff.1 hp
    exact .refl σ'
  | cons b bs ih =>
    obtain ⟨hb, hbs⟩ := List.forall_mem_cons.1 h
    by_cases hseen : takingNodes b ∈ seen
    · rw [planBranches_skip hseen] at hp
      exact ih hbs hp
    · obtain ⟨parts, σ₁, rest, hparts, hrest, rfl⟩ := (planBranches_cons_iff hseen).1 hp
      exact (planBranch_extends_of hb hparts).trans (ih hbs hrest)

theorem names_ofBranches (ps : List Plan) : (Plan.ofBranches ps).names = partsNames ps := by
  unfold Plan.ofBranches
  split
  · simp [partsNames]
  · rfl

theorem plansFreshly_group {kind : GroupKind} {branches : List (List Node)}
    (h : ∀ b ∈ branches, ∀ n ∈ b, n.isLookahead = false → n.PlansFreshly indices)
    (hkind : ∀ index, kind = .capture index → index ∈ indices) :
    (Node.group kind branches).PlansFreshly indices := by
  intro σ p σ' hp
  obtain ⟨ps, σ₁, hps, hclose⟩ := plan_group_iff.1 hp
  have hext := planBranches_extends_of h hps
  rw [← names_ofBranches ps] at hext
  cases kind with
  | capture index =>
    obtain ⟨rfl, rfl⟩ := Prod.mk.inj hclose
    exact hext.record (hkind index rfl)
  | plain =>
    obtain ⟨rfl, rfl⟩ := Prod.mk.inj hclose
    exact hext
  | lookahead negative =>
    obtain ⟨rfl, rfl⟩ := Prod.mk.inj hclose
    exact hext

theorem plansFreshly_marked {body : Node} (h : body.PlansFreshly indices) (min : Nat)
    (max : Option Nat) :
    (Node.repetition 0 (some 1) (.repetition min max body)).PlansFreshly indices := by
  intro σ p σ' hp
  obtain ⟨b, hb, rfl⟩ := plan_marked_iff.1 hp
  exact h σ b σ' hb

theorem plansFreshly_repetition {min : Nat} {max : Option Nat} {body : Node}
    (hm : ∀ min' max' body', min = 0 → max = some 1 → body = .repetition min' max' body' → False)
    (h : body.PlansFreshly indices) : (Node.repetition min max body).PlansFreshly indices := by
  intro σ p σ' hp
  obtain ⟨b, hb, rfl⟩ := (plan_repetition_iff hm).1 hp
  exact h σ b σ' hb

theorem Node.plansFreshly_of (n : Node) (h : ∀ i ∈ captureIndices n.nodes, i ∈ indices) :
    n.PlansFreshly indices := by
  induction n with
  | char c =>
    intro σ p σ' hp
    obtain ⟨rfl, rfl⟩ := plan_char_iff.1 hp
    exact .refl σ'
  | charClass k =>
    intro σ p σ' hp
    obtain ⟨rfl, rfl⟩ := plan_charClass_iff.1 hp
    exact .refl σ'
  | anchor a =>
    intro σ p σ' hp
    obtain ⟨rfl, rfl⟩ := plan_anchor_iff.1 hp
    exact .refl σ'
  | backreference index =>
    intro σ p σ' hp
    obtain ⟨name, -, rfl, rfl⟩ := plan_backreference_iff.1 hp
    exact .refl σ'
  | group kind branches ih =>
    refine plansFreshly_group (fun b hb n hn _ => ih b hb n hn fun i hi => h i ?_) ?_
    · exact captureIndices_subset (fun m hm =>
        List.mem_cons_of_mem _ (mem_branchesNodes_of_mem hb hn hm)) i hi
    · rintro index rfl
      exact h index List.mem_cons_self
  | marked min max body ih => exact plansFreshly_marked (ih h) min max
  | repetition min max body hm ih => exact plansFreshly_repetition hm (ih h)

/-- **Planning a node gives fresh names to its own groups** and leaves all other indices as they
are. -/
theorem Node.plansFreshly (n : Node) : n.PlansFreshly (captureIndices n.nodes) :=
  n.plansFreshly_of fun _ => id

theorem planBranch_extends {branch : Branch} (hp : planBranch branch σ = .ok (ps, σ')) :
    Naming.Extends (captureIndices (branchNodes branch)) (partsNames ps) σ σ' :=
  planBranch_extends_of (fun n hn _ => n.plansFreshly_of (captureIndices_subset fun _ hm =>
    mem_branchNodes.2 ⟨n, hn, hm⟩)) hp

theorem planBranches_extends {branches : List (List Node)} {seen : List Branch}
    (hp : planBranches seen branches σ = .ok (ps, σ')) :
    Naming.Extends (captureIndices (branchesNodes branches)) (partsNames ps) σ σ' :=
  planBranches_extends_of (fun _ hb n hn _ => n.plansFreshly_of (captureIndices_subset fun _ hm =>
    mem_branchesNodes_of_mem hb hn hm)) hp

end Fresh

end SequenceConstraint
