import SequenceConstraint.Generation.Odometer
import SequenceConstraint.Proofs.Generation.Planning

/-!
# The layout of a machine

In the plan of a tree every name is given once, and an echo comes after the group that it echoes
(`Plan.WellNamed`). The machine of such a plan has the wheels of each part in one piece, in the
order of the parts, and the wheels that a name stands for lie before all its echoes
(`Plan.Placed`).

## Main statements

* `Tree.wellNamed_plan` — the plan of a tree is well named
* `Plan.placed_machine` — the machine of a well-named plan is laid out by it
* `Plan.descending_machine` — every wheel works on wheels before it
-/

namespace SequenceConstraint

/-! ## Well-named plans -/

mutual

/-- Whether a plan echoes names in `known` and its own, once they are given, and gives names that
have not been given. -/
def Plan.WellNamed (known : List Nat) : Plan → Prop
  | .texts _ => True
  | .concat parts => PartsWellNamed known parts
  | .choice branches => PartsWellNamed known branches
  | .times _ _ body => body.WellNamed known
  | .echo name => name ∈ known
  | .named name body => name ∉ known ∧ name ∉ body.names ∧ body.WellNamed known

def PartsWellNamed (known : List Nat) : List Plan → Prop
  | [] => True
  | p :: ps => p.WellNamed known ∧ PartsWellNamed (p.names ++ known) ps

end

/-- Whether the names of a naming are those in `known`. -/
structure Naming.Knows (σ : Naming) (known : List Nat) : Prop where
  recorded : ∀ index name, σ.name? index = some name → name ∈ known
  given : ∀ name ∈ known, name < σ.fresh

/-- Whether a node is planned well named. -/
def Node.PlansNamed (n : Node) : Prop :=
  ∀ σ p σ' known, n.plan σ = .ok (p, σ') → σ.Knows known →
    p.WellNamed known ∧ σ'.Knows (p.names ++ known)

section Planning

variable {σ σ' : Naming} {ps : List Plan} {known : List Nat}

theorem Naming.Knows.congr {known' : List Nat} (h : σ.Knows known)
    (hiff : ∀ n, n ∈ known ↔ n ∈ known') : σ.Knows known' where
  recorded index name hname := (hiff name).1 (h.recorded index name hname)
  given name hname := h.given name ((hiff name).2 hname)

theorem planBranch_named {branch : Branch}
    (h : ∀ n ∈ branch, n.isLookahead = false → n.PlansNamed)
    (hp : planBranch branch σ = .ok (ps, σ')) (hσ : σ.Knows known) :
    PartsWellNamed known ps ∧ σ'.Knows (partsNames ps ++ known) := by
  induction branch generalizing σ ps known with
  | nil =>
    obtain ⟨rfl, rfl⟩ := planBranch_nil_iff.1 hp
    exact ⟨trivial, hσ⟩
  | cons n ns ih =>
    obtain ⟨hn, hns⟩ := List.forall_mem_cons.1 h
    by_cases hlook : n.isLookahead = true
    · rw [planBranch_skip hlook] at hp
      exact ih hns hp hσ
    · rw [Bool.not_eq_true] at hlook
      obtain ⟨p, σ₁, rest, hfirst, hrest, rfl⟩ := (planBranch_cons_iff hlook).1 hp
      obtain ⟨hwell, hσ₁⟩ := hn hlook σ p σ₁ known hfirst hσ
      obtain ⟨hwells, hσ'⟩ := ih hns hrest hσ₁
      refine ⟨⟨hwell, hwells⟩, hσ'.congr fun name => ?_⟩
      simp only [partsNames, List.mem_append]
      tauto

theorem planBranches_named {branches : List (List Node)} {seen : List Branch}
    (h : ∀ b ∈ branches, ∀ n ∈ b, n.isLookahead = false → n.PlansNamed)
    (hp : planBranches seen branches σ = .ok (ps, σ')) (hσ : σ.Knows known) :
    PartsWellNamed known ps ∧ σ'.Knows (partsNames ps ++ known) := by
  induction branches generalizing σ ps seen known with
  | nil =>
    obtain ⟨rfl, rfl⟩ := planBranches_nil_iff.1 hp
    exact ⟨trivial, hσ⟩
  | cons b bs ih =>
    obtain ⟨hb, hbs⟩ := List.forall_mem_cons.1 h
    by_cases hseen : takingNodes b ∈ seen
    · rw [planBranches_skip hseen] at hp
      exact ih hbs hp hσ
    · obtain ⟨parts, σ₁, rest, hparts, hrest, rfl⟩ := (planBranches_cons_iff hseen).1 hp
      obtain ⟨hwell, hσ₁⟩ := planBranch_named hb hparts hσ
      obtain ⟨hwells, hσ'⟩ := ih hbs hrest hσ₁
      refine ⟨⟨hwell, hwells⟩, hσ'.congr fun name => ?_⟩
      simp only [partsNames, Plan.names, List.mem_append]
      tauto

theorem wellNamed_ofBranches (h : PartsWellNamed known ps) :
    (Plan.ofBranches ps).WellNamed known := by
  unfold Plan.ofBranches
  split
  · exact h.1
  · exact h

/-- A group that is complete gets a name that is new. -/
theorem wellNamed_close (kind : GroupKind) {body : Plan} (hwell : body.WellNamed known)
    (hσ : σ.Knows (body.names ++ known)) :
    (kind.close body σ).1.WellNamed known ∧
      (kind.close body σ).2.Knows ((kind.close body σ).1.names ++ known) := by
  cases kind with
  | plain => exact ⟨hwell, hσ⟩
  | lookahead negative => exact ⟨hwell, hσ⟩
  | capture index =>
    by_cases hindex : index ≤ σ.limit
    · have hrecord : GroupKind.close (.capture index) body σ = σ.record index body := rfl
      have hfresh : σ.fresh ∉ body.names ++ known := fun hmem =>
        Nat.lt_irrefl _ (hσ.given _ hmem)
      rw [List.mem_append, not_or] at hfresh
      rw [hrecord]
      refine ⟨?_, ?_, ?_⟩
      · rw [Naming.record, if_pos hindex]
        exact ⟨hfresh.2, hfresh.1, hwell⟩
      · intro i name hname
        rw [Naming.name?_record hindex] at hname
        rw [Naming.record, if_pos hindex]
        split at hname
        · cases hname
          exact List.mem_cons_self
        · exact List.mem_cons_of_mem _ (hσ.recorded i name hname)
      · rw [Naming.record, if_pos hindex]
        intro name hname
        rcases List.mem_cons.1 hname with rfl | hname
        · exact Nat.lt_succ_self _
        · exact Nat.lt_succ_of_lt (hσ.given name hname)
    · have hskip : GroupKind.close (.capture index) body σ = (body, σ) := by
        show σ.record index body = _
        rw [Naming.record, if_neg hindex]
      rw [hskip]
      exact ⟨hwell, hσ⟩

theorem Node.plansNamed (n : Node) : n.PlansNamed := by
  induction n with
  | char c =>
    intro σ p σ' known hp hσ
    obtain ⟨rfl, rfl⟩ := plan_char_iff.1 hp
    exact ⟨trivial, hσ⟩
  | charClass k =>
    intro σ p σ' known hp hσ
    obtain ⟨rfl, rfl⟩ := plan_charClass_iff.1 hp
    exact ⟨trivial, hσ⟩
  | anchor a =>
    intro σ p σ' known hp hσ
    obtain ⟨rfl, rfl⟩ := plan_anchor_iff.1 hp
    exact ⟨trivial, hσ⟩
  | backreference index =>
    intro σ p σ' known hp hσ
    obtain ⟨name, hname, rfl, rfl⟩ := plan_backreference_iff.1 hp
    exact ⟨hσ.recorded index name hname, hσ⟩
  | group kind branches ih =>
    intro σ p σ' known hp hσ
    obtain ⟨ps, σ₁, hps, hclose⟩ := plan_group_iff.1 hp
    obtain ⟨hwell, hσ₁⟩ := planBranches_named (fun b hb n hn _ => ih b hb n hn) hps hσ
    rw [← names_ofBranches] at hσ₁
    have hclosed := wellNamed_close kind (wellNamed_ofBranches hwell) hσ₁
    rwa [← hclose] at hclosed
  | marked min max body ih =>
    intro σ p σ' known hp hσ
    obtain ⟨b, hb, rfl⟩ := plan_marked_iff.1 hp
    exact ih σ b σ' known hb hσ
  | repetition min max body hm ih =>
    intro σ p σ' known hp hσ
    obtain ⟨b, hb, rfl⟩ := (plan_repetition_iff hm).1 hp
    exact ih σ b σ' known hb hσ

/-- **The plan of a tree is well named.** -/
theorem Tree.wellNamed_plan {tree : Tree} {p : Plan} (h : tree.plan = .ok p) :
    p.WellNamed [] := by
  obtain ⟨ps, σ, hps, rfl⟩ := Tree.plan_eq_ok_iff.1 h
  have hstart : (Naming.start tree.captures).Knows [] := by
    refine ⟨fun index name hname => ?_, fun name hname => by cases hname⟩
    cases hname
  exact wellNamed_ofBranches (planBranches_named (fun _ _ n _ _ => n.plansNamed) hps hstart).1

end Planning

/-! ## Where the wheels are -/

theorem le_past_of {ps : List Plan} (h : ∀ p ∈ ps, ∀ first, first ≤ p.root first) (first : Nat) :
    first ≤ past first ps := by
  induction ps generalizing first with
  | nil => exact Nat.le_refl _
  | cons p ps ih =>
    obtain ⟨hp, hps⟩ := List.forall_mem_cons.1 h
    have hp := hp first
    have hps := ih hps (p.root first + 1)
    rw [past]
    omega

theorem Plan.le_root (p : Plan) (first : Nat) : first ≤ p.root first := by
  induction p generalizing first with
  | texts values => exact Nat.le_refl _
  | concat parts ih => exact le_past_of ih first
  | choice branches ih => exact le_past_of ih first
  | times min max body ih => exact Nat.le_succ_of_le (ih first)
  | echo name => exact Nat.le_refl _
  | named name body ih => exact ih first

theorem le_past (ps : List Plan) (first : Nat) : first ≤ past first ps :=
  le_past_of (fun p _ => p.le_root) first

theorem past_append (ps qs : List Plan) (first : Nat) :
    past first (ps ++ qs) = past (past first ps) qs := by
  induction ps generalizing first with
  | nil => rfl
  | cons p ps ih => exact ih _

theorem root_lt_past (first : Nat) (ps : List Plan) (p : Plan) (qs : List Plan) :
    p.root (past first ps) < past first (ps ++ p :: qs) := by
  rw [past_append]
  exact le_past qs _

theorem roots_append (ps qs : List Plan) (first : Nat) :
    roots first (ps ++ qs) = roots first ps ++ roots (past first ps) qs := by
  induction ps generalizing first with
  | nil => rfl
  | cons p ps ih => exact congrArg (p.root first :: ·) (ih _)

theorem length_roots (ps : List Plan) (first : Nat) : (roots first ps).length = ps.length := by
  induction ps generalizing first with
  | nil => rfl
  | cons p ps ih => exact congrArg (· + 1) (ih _)

/-- The wheel of the branch after some branches. -/
theorem getElem?_roots_append (ps qs : List Plan) (first : Nat) :
    (roots first (ps ++ qs))[ps.length]? = (roots (past first ps) qs).head? := by
  rw [roots_append, ← length_roots ps first, List.getElem?_append_right (Nat.le_refl _),
    Nat.sub_self, List.head?_eq_getElem?]

theorem mem_roots_lt {ps : List Plan} {first i : Nat} (h : i ∈ roots first ps) :
    i < past first ps := by
  induction ps generalizing first with
  | nil => cases h
  | cons p ps ih =>
    rcases List.mem_cons.1 h with rfl | h
    · exact le_past ps _
    · exact ih h

mutual

/-- Whether the wheels of a plan stand in a machine from `first` on, those that names stand for are
given by `place`, and all is well named. -/
def Plan.Placed (m : Machine) (cap : Nat) (place : Nat → Nat) (known : List Nat) (first : Nat) :
    Plan → Prop
  | .texts values => m[first]? = some ⟨.texts values, first⟩
  | .concat parts =>
    PartsPlaced m cap place known first parts ∧
      m[past first parts]? = some ⟨.row (roots first parts), first⟩
  | .choice branches =>
    PartsPlaced m cap place known first branches ∧
      m[past first branches]? = some ⟨.choice (roots first branches), first⟩
  | .times min max body =>
    body.Placed m cap place known first ∧
      m[body.root first + 1]? = some ⟨.times min (Plan.limit cap min max) (body.root first), first⟩
  | .echo name => name ∈ known ∧ m[first]? = some ⟨.echo (place name), first⟩
  | .named name body =>
    name ∉ known ∧ name ∉ body.names ∧ place name = body.root first ∧
      body.Placed m cap place known first

def PartsPlaced (m : Machine) (cap : Nat) (place : Nat → Nat) (known : List Nat) (first : Nat) :
    List Plan → Prop
  | [] => True
  | p :: ps =>
    p.Placed m cap place known first ∧
      PartsPlaced m cap place (p.names ++ known) (p.root first + 1) ps

end

section Placed

variable {m : Machine} {cap : Nat} {place : Nat → Nat} {known : List Nat} {first : Nat}

/-! ### Names -/

theorem place_mem_parts_of {ps : List Plan} {n : Nat}
    (h : ∀ p ∈ ps, ∀ {known first}, p.Placed m cap place known first → n ∈ p.names →
      first ≤ place n ∧ place n ≤ p.root first)
    (hps : PartsPlaced m cap place known first ps) (hn : n ∈ partsNames ps) :
    first ≤ place n ∧ place n < past first ps := by
  induction ps generalizing known first with
  | nil => cases hn
  | cons p ps ih =>
    obtain ⟨hp, hrest⟩ := List.forall_mem_cons.1 h
    have hroot := p.le_root first
    have hpast := le_past ps (p.root first + 1)
    rw [past]
    rcases List.mem_append.1 hn with hn | hn
    · have := hp hps.1 hn
      omega
    · have := ih hrest hps.2 hn
      omega

/-- **The wheels that the names of a plan stand for are its own.** -/
theorem Plan.Placed.place_mem {p : Plan} (h : p.Placed m cap place known first) {n : Nat}
    (hn : n ∈ p.names) : first ≤ place n ∧ place n ≤ p.root first := by
  induction p generalizing known first with
  | texts values => cases hn
  | concat parts ih =>
    have := place_mem_parts_of ih h.1 hn
    exact ⟨this.1, Nat.le_of_lt this.2⟩
  | choice branches ih =>
    have := place_mem_parts_of ih h.1 hn
    exact ⟨this.1, Nat.le_of_lt this.2⟩
  | times min max body ih =>
    have := ih h.1 hn
    exact ⟨this.1, Nat.le_succ_of_le this.2⟩
  | echo name => cases hn
  | named name body ih =>
    obtain ⟨-, -, hplace, hbody⟩ := h
    rcases List.mem_cons.1 hn with rfl | hn
    · rw [hplace]
      exact ⟨body.le_root first, Nat.le_refl _⟩
    · exact ih hbody hn

theorem PartsPlaced.place_mem {ps : List Plan} (h : PartsPlaced m cap place known first ps)
    {n : Nat} (hn : n ∈ partsNames ps) : first ≤ place n ∧ place n < past first ps :=
  place_mem_parts_of (fun _ _ _ _ hp => hp.place_mem) h hn

/-! ### Wheels -/

/-- Whether a wheel works on wheels before the one with a number only. -/
def Gear.Below (i : Nat) : Gear → Prop
  | .texts _ => True
  | .row parts => ∀ part ∈ parts, part < i
  | .choice branches => ∀ branch ∈ branches, branch < i
  | .times _ _ child => child < i
  | .echo target => target < i

/-- Whether every wheel works on wheels before it. -/
def Machine.Descending (m : Machine) : Prop :=
  ∀ (i : Nat) (w : Wheel), m[i]? = some w → w.gear.Below i

theorem parts_wheel_of {ps : List Plan} {i : Nat} {w : Wheel}
    (h : ∀ p ∈ ps, ∀ {known first}, p.Placed m cap place known first →
      (∀ n ∈ known, place n < first) → first ≤ i → i ≤ p.root first →
      first ≤ w.first ∧ w.gear.Below i)
    (hps : PartsPlaced m cap place known first ps) (hknown : ∀ n ∈ known, place n < first)
    (hfirst : first ≤ i) (hi : i < past first ps) : first ≤ w.first ∧ w.gear.Below i := by
  induction ps generalizing known first with
  | nil => exact absurd hi (Nat.not_lt_of_le hfirst)
  | cons p ps ih =>
    obtain ⟨hp, hrest⟩ := List.forall_mem_cons.1 h
    by_cases hroot : i ≤ p.root first
    · exact hp hps.1 hknown hfirst hroot
    · have hle := p.le_root first
      have hknown' : ∀ n ∈ p.names ++ known, place n < p.root first + 1 := by
        intro n hn
        rcases List.mem_append.1 hn with hn | hn
        · exact Nat.lt_succ_of_le (hps.1.place_mem hn).2
        · have := hknown n hn
          omega
      obtain ⟨hwfirst, hbelow⟩ := ih hrest hps.2 hknown' (Nat.lt_of_not_le hroot) hi
      exact ⟨by omega, hbelow⟩

/-- **The wheels of a plan are made of wheels of the plan,** and work on wheels before them. -/
theorem Plan.Placed.wheel {p : Plan} (h : p.Placed m cap place known first)
    (hknown : ∀ n ∈ known, place n < first) {i : Nat} {w : Wheel} (hw : m[i]? = some w)
    (hfirst : first ≤ i) (hi : i ≤ p.root first) : first ≤ w.first ∧ w.gear.Below i := by
  induction p generalizing known first with
  | texts values =>
    cases Nat.le_antisymm hfirst hi
    cases h.symm.trans hw
    exact ⟨Nat.le_refl _, trivial⟩
  | concat parts ih =>
    rcases Nat.lt_or_eq_of_le hi with hi | rfl
    · exact parts_wheel_of ih h.1 hknown hfirst hi
    · cases h.2.symm.trans hw
      exact ⟨Nat.le_refl _, fun _ => mem_roots_lt⟩
  | choice branches ih =>
    rcases Nat.lt_or_eq_of_le hi with hi | rfl
    · exact parts_wheel_of ih h.1 hknown hfirst hi
    · cases h.2.symm.trans hw
      exact ⟨Nat.le_refl _, fun _ => mem_roots_lt⟩
  | times min max body ih =>
    rcases Nat.lt_or_eq_of_le hi with hi | rfl
    · exact ih h.1 hknown hfirst (Nat.le_of_lt_succ hi)
    · cases h.2.symm.trans hw
      exact ⟨Nat.le_refl _, Nat.lt_succ_self _⟩
  | echo name =>
    cases Nat.le_antisymm hfirst hi
    cases h.2.symm.trans hw
    exact ⟨Nat.le_refl _, hknown name h.1⟩
  | named name body ih => exact ih h.2.2.2 hknown hfirst hi

theorem PartsPlaced.wheel {ps : List Plan} (h : PartsPlaced m cap place known first ps)
    (hknown : ∀ n ∈ known, place n < first) {i : Nat} {w : Wheel} (hw : m[i]? = some w)
    (hfirst : first ≤ i) (hi : i < past first ps) : first ≤ w.first ∧ w.gear.Below i :=
  parts_wheel_of (fun _ _ _ _ hp hknown => hp.wheel hknown hw) h hknown hfirst hi

/-- The wheel of a plan is made of its wheels, from the first on. -/
theorem Plan.Placed.exists_root {p : Plan} (h : p.Placed m cap place known first) :
    ∃ gear, m[p.root first]? = some ⟨gear, first⟩ := by
  induction p with
  | texts values => exact ⟨_, h⟩
  | concat parts ih => exact ⟨_, h.2⟩
  | choice branches ih => exact ⟨_, h.2⟩
  | times min max body ih => exact ⟨_, h.2⟩
  | echo name => exact ⟨_, h.2⟩
  | named name body ih => exact ih h.2.2.2

end Placed

/-! ## The machine of a plan is laid out by it -/

section Machine

variable {m : Machine} {cap : Nat} {place : Nat → Nat}

theorem length_partsWheels_of {ps : List Plan}
    (h : ∀ p ∈ ps, ∀ first, first + (p.wheels cap place first).length = p.root first + 1)
    (first : Nat) : first + (partsWheels cap place first ps).length = past first ps := by
  induction ps generalizing first with
  | nil => rfl
  | cons p ps ih =>
    obtain ⟨hp, hps⟩ := List.forall_mem_cons.1 h
    rw [partsWheels, past, ← ih hps, ← hp, List.length_append, Nat.add_assoc]

theorem Plan.length_wheels (p : Plan) (first : Nat) :
    first + (p.wheels cap place first).length = p.root first + 1 := by
  induction p generalizing first with
  | texts values => rfl
  | concat parts ih =>
    rw [wheels, root, ← length_partsWheels_of ih, List.length_append, ← Nat.add_assoc]
    rfl
  | choice branches ih =>
    rw [wheels, root, ← length_partsWheels_of ih, List.length_append, ← Nat.add_assoc]
    rfl
  | times min max body ih =>
    rw [wheels, root, ← ih, List.length_append, ← Nat.add_assoc]
    rfl
  | echo name => rfl
  | named name body ih => exact ih first

theorem length_partsWheels (ps : List Plan) (first : Nat) :
    first + (partsWheels cap place first ps).length = past first ps :=
  length_partsWheels_of (fun p _ => p.length_wheels) first

/-- Whether a machine has some wheels from `first` on. -/
def Machine.HasFrom (m : Machine) (first : Nat) (ws : List Wheel) : Prop :=
  ∀ k w, ws[k]? = some w → m[first + k]? = some w

theorem Machine.HasFrom.left {first : Nat} {ws vs : List Wheel} (h : m.HasFrom first (ws ++ vs)) :
    m.HasFrom first ws := by
  intro k w hw
  obtain ⟨hk, -⟩ := List.getElem?_eq_some_iff.1 hw
  exact h k w ((List.getElem?_append_left hk).trans hw)

theorem Machine.HasFrom.right {first second : Nat} {ws vs : List Wheel}
    (h : m.HasFrom first (ws ++ vs)) (hsecond : first + ws.length = second) :
    m.HasFrom second vs := by
  intro k w hw
  have hget := h (ws.length + k) w
  rw [List.getElem?_append_right (Nat.le_add_right _ _), Nat.add_sub_cancel_left,
    ← Nat.add_assoc, hsecond] at hget
  exact hget hw

theorem Machine.HasFrom.head {first : Nat} {w : Wheel} (h : m.HasFrom first [w]) :
    m[first]? = some w := h 0 w rfl

theorem partsPlaced_of {ps : List Plan} {known : List Nat} {first : Nat}
    (h : ∀ p ∈ ps, ∀ known first, p.WellNamed known → m.HasFrom first (p.wheels cap place first) →
      (∀ x ∈ p.places first, place x.1 = x.2) → p.Placed m cap place known first)
    (hwell : PartsWellNamed known ps) (hwheels : m.HasFrom first (partsWheels cap place first ps))
    (hplaces : ∀ x ∈ partsPlaces first ps, place x.1 = x.2) :
    PartsPlaced m cap place known first ps := by
  induction ps generalizing known first with
  | nil => trivial
  | cons p ps ih =>
    obtain ⟨hp, hps⟩ := List.forall_mem_cons.1 h
    rw [partsPlaces, List.forall_mem_append] at hplaces
    exact ⟨hp known first hwell.1 hwheels.left hplaces.1,
      ih hps hwell.2 (hwheels.right (p.length_wheels first)) hplaces.2⟩

theorem Plan.placed_of (p : Plan) {known : List Nat} {first : Nat} (hwell : p.WellNamed known)
    (hwheels : m.HasFrom first (p.wheels cap place first))
    (hplaces : ∀ x ∈ p.places first, place x.1 = x.2) : p.Placed m cap place known first := by
  induction p generalizing known first with
  | texts values => exact hwheels.head
  | concat parts ih =>
    exact ⟨partsPlaced_of (fun p hp _ _ => ih p hp) hwell hwheels.left hplaces,
      (hwheels.right (length_partsWheels parts first)).head⟩
  | choice branches ih =>
    exact ⟨partsPlaced_of (fun p hp _ _ => ih p hp) hwell hwheels.left hplaces,
      (hwheels.right (length_partsWheels branches first)).head⟩
  | times min max body ih =>
    exact ⟨ih hwell hwheels.left hplaces, (hwheels.right (body.length_wheels first)).head⟩
  | echo name => exact ⟨hwell, hwheels.head⟩
  | named name body ih =>
    obtain ⟨hplace, hplaces⟩ := List.forall_mem_cons.1 hplaces
    exact ⟨hwell.1, hwell.2.1, hplace, ih hwell.2.2 hwheels hplaces⟩

/-! ### Names are given once -/

theorem partsPlaces_names_of {ps : List Plan}
    (h : ∀ p ∈ ps, ∀ first, (p.places first).map Prod.fst = p.names) (first : Nat) :
    (partsPlaces first ps).map Prod.fst = partsNames ps := by
  induction ps generalizing first with
  | nil => rfl
  | cons p ps ih =>
    obtain ⟨hp, hps⟩ := List.forall_mem_cons.1 h
    rw [partsPlaces, partsNames, List.map_append, hp, ih hps]

theorem Plan.places_names (p : Plan) (first : Nat) :
    (p.places first).map Prod.fst = p.names := by
  induction p generalizing first with
  | texts values => rfl
  | concat parts ih => exact partsPlaces_names_of ih first
  | choice branches ih => exact partsPlaces_names_of ih first
  | times min max body ih => exact ih first
  | echo name => rfl
  | named name body ih => exact congrArg (name :: ·) (ih first)

theorem partsNames_nodup_of {ps : List Plan} {known : List Nat}
    (h : ∀ p ∈ ps, ∀ known, p.WellNamed known → p.names.Nodup ∧ ∀ n ∈ p.names, n ∉ known)
    (hwell : PartsWellNamed known ps) :
    (partsNames ps).Nodup ∧ ∀ n ∈ partsNames ps, n ∉ known := by
  induction ps generalizing known with
  | nil => exact ⟨List.nodup_nil, fun n hn => by cases hn⟩
  | cons p ps ih =>
    obtain ⟨hp, hps⟩ := List.forall_mem_cons.1 h
    obtain ⟨hnodup, hnew⟩ := hp known hwell.1
    obtain ⟨hnodups, hnews⟩ := ih hps hwell.2
    simp only [List.mem_append, not_or] at hnews
    refine ⟨List.nodup_append.2 ⟨hnodup, hnodups, ?_⟩, fun n hn => ?_⟩
    · rintro n hn _ hn' rfl
      exact (hnews n hn').1 hn
    · rcases List.mem_append.1 hn with hn | hn
      · exact hnew n hn
      · exact (hnews n hn).2

theorem Plan.WellNamed.nodup {p : Plan} {known : List Nat} (h : p.WellNamed known) :
    p.names.Nodup ∧ ∀ n ∈ p.names, n ∉ known := by
  induction p generalizing known with
  | texts values => exact ⟨List.nodup_nil, fun n hn => by cases hn⟩
  | concat parts ih => exact partsNames_nodup_of (fun p hp _ => ih p hp) h
  | choice branches ih => exact partsNames_nodup_of (fun p hp _ => ih p hp) h
  | times min max body ih => exact ih h
  | echo name => exact ⟨List.nodup_nil, fun n hn => by cases hn⟩
  | named name body ih =>
    obtain ⟨hnodup, hnew⟩ := ih h.2.2
    exact ⟨List.nodup_cons.2 ⟨h.2.1, hnodup⟩, List.forall_mem_cons.2 ⟨h.1, hnew⟩⟩

theorem lookup_of_nodup {l : List (Nat × Nat)} (h : (l.map Prod.fst).Nodup) {x : Nat × Nat}
    (hx : x ∈ l) : l.lookup x.1 = some x.2 := by
  induction l with
  | nil => cases hx
  | cons y l ih =>
    obtain ⟨hy, hl⟩ := List.nodup_cons.1 h
    rw [List.lookup_cons]
    rcases List.mem_cons.1 hx with rfl | hx
    · rw [beq_self_eq_true]
    · have hne : x.1 ≠ y.1 := fun he => hy (he ▸ List.mem_map_of_mem hx)
      rw [beq_eq_false_iff_ne.2 hne]
      exact ih hl hx

/-- **The machine of a well-named plan is laid out by the plan.** -/
theorem Plan.placed_machine {p : Plan} (h : p.WellNamed []) :
    p.Placed (p.machine cap) cap p.place [] 0 := by
  refine p.placed_of h (fun k w hw => ?_) fun x hx => ?_
  · rw [Nat.zero_add, Plan.machine, List.getElem?_toArray]
    exact hw
  · have hnodup : ((p.places 0).map Prod.fst).Nodup := by
      rw [p.places_names]
      exact h.nodup.1
    rw [Plan.place, lookup_of_nodup hnodup hx]
    rfl

/-- The wheels of a machine are those up to its root. -/
theorem Odometer.size_machine (cap : Nat) (p : Plan) : (p.machine cap).size = p.root 0 + 1 := by
  have hlength : 0 + (p.wheels cap p.place 0).length = p.root 0 + 1 := p.length_wheels 0
  rw [Plan.machine, List.size_toArray, ← hlength, Nat.zero_add]

/-- **Every wheel of a machine works on wheels before it.** -/
theorem Plan.descending_machine {p : Plan} (h : p.WellNamed []) : (p.machine cap).Descending := by
  intro i w hw
  obtain ⟨hi, -⟩ := Array.getElem?_eq_some_iff.1 hw
  rw [Odometer.size_machine] at hi
  have hplaced : p.Placed (p.machine cap) cap p.place [] 0 := p.placed_machine h
  exact (hplaced.wheel (by simp) hw (Nat.zero_le i) (Nat.le_of_lt_succ hi)).2

end Machine

end SequenceConstraint
