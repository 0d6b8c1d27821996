import SequenceConstraint.Proofs.Generation.Planning

/-!
# Empty texts

A plan that shows the empty text shows it of all its groups. Which nodes can have a plan that shows
the empty text can be told from the tree, if only from one side: a node that is not among them
(`Node.mayBeEmpty`) never has one.

## Main statements

* `Plan.Shows.groups_eq_nil` — the groups of an empty text are empty
* `exists_branch_of_anyShows` — what a choice shows, one of the branches of the tree shows
* `Node.text_ne_nil` — a node that takes characters in every way shows no empty text
-/

namespace SequenceConstraint

variable {cap : Nat} {env : Bindings} {σ σ' : Naming} {p : Plan} {r : Shown}

/-! ## Groups of an empty text -/

namespace Plan

theorem partsShow_groups_eq_nil {parts : List Plan}
    (h : ∀ p ∈ parts, ∀ env r, p.Shows cap env r → r.text = [] → ∀ g ∈ r.groups, g.2 = [])
    (hr : PartsShow cap env parts r) (htext : r.text = []) : ∀ g ∈ r.groups, g.2 = [] := by
  induction parts generalizing env r with
  | nil =>
    obtain rfl : r = ⟨[], []⟩ := hr
    exact fun g hg => absurd hg List.not_mem_nil
  | cons p ps ih =>
    obtain ⟨hp, hps⟩ := List.forall_mem_cons.1 h
    obtain ⟨a, b, ha, hb, rfl⟩ := hr
    obtain ⟨hatext, hbtext⟩ := List.append_eq_nil_iff.1 htext
    exact List.forall_mem_append.2 ⟨ih hps hb hbtext, hp _ _ ha hatext⟩

theorem anyShows_groups_eq_nil {branches : List Plan}
    (h : ∀ p ∈ branches, ∀ env r, p.Shows cap env r → r.text = [] → ∀ g ∈ r.groups, g.2 = [])
    (hr : AnyShows cap env branches r) (htext : r.text = []) : ∀ g ∈ r.groups, g.2 = [] := by
  induction branches generalizing env with
  | nil => exact hr.elim
  | cons p ps ih =>
    obtain ⟨hp, hps⟩ := List.forall_mem_cons.1 h
    rcases hr with hr | hr
    · exact hp _ _ hr htext
    · exact ih hps hr

/-- **The groups of an empty text are empty.** -/
theorem Shows.groups_eq_nil (h : p.Shows cap env r) (htext : r.text = []) :
    ∀ g ∈ r.groups, g.2 = [] := by
  induction p generalizing env r with
  | texts values =>
    obtain ⟨v, -, rfl⟩ := shows_texts.1 h
    exact fun g hg => absurd hg List.not_mem_nil
  | concat parts ih =>
    exact partsShow_groups_eq_nil (fun p hp env r => ih p hp) (shows_concat.1 h) htext
  | choice branches ih =>
    exact anyShows_groups_eq_nil (fun p hp env r => ih p hp) (anyShows_of_shows h) htext
  | times min max body ih =>
    obtain ⟨rs, hrs, -, -, rfl⟩ := shows_times.1 h
    cases hlast : rs.getLast? with
    | none => simp [ofRepeats, hlast]
    | some b =>
      have hb : b ∈ rs := List.mem_of_getLast? hlast
      have hgroups := ih (hrs b hb) (List.flatMap_eq_nil_iff.1 htext b hb)
      simpa [ofRepeats, hlast] using hgroups
  | echo name =>
    obtain rfl := shows_echo.1 h
    exact fun g hg => absurd hg List.not_mem_nil
  | named name body ih =>
    obtain ⟨b, hb, rfl⟩ := shows_named.1 h
    exact List.forall_mem_cons.2 ⟨htext, ih hb htext⟩

end Plan

/-! ## Branches that are shown -/

/-- **What a choice shows, one of the branches of the tree shows.** It has been planned after the
branches before it, and sees what they are left with. -/
theorem exists_branch_of_anyShows {branches : List (List Node)} {seen : List Branch}
    {ps : List Plan} (hplan : planBranches seen branches σ = .ok (ps, σ'))
    (hr : Plan.AnyShows cap env ps r) :
    ∃ before b after names names' σ₁ σ₂ parts left,
      branches = before ++ b :: after ∧
        Naming.Extends (captureIndices (branchesNodes before)) names σ σ₁ ∧
        (∀ g ∈ left, g.1 ∈ names) ∧ planBranch b σ₁ = .ok (parts, σ₂) ∧
        Plan.PartsShow cap (left ++ env) parts r ∧
        Naming.Extends (captureIndices (branchesNodes after)) names' σ₂ σ' := by
  induction branches generalizing σ seen ps env with
  | nil =>
    obtain ⟨rfl, -⟩ := planBranches_nil_iff.1 hplan
    exact hr.elim
  | cons b bs ih =>
    by_cases hseen : takingNodes b ∈ seen
    · -- without a plan the branch gives no names
      rw [planBranches_skip hseen] at hplan
      obtain ⟨before, b', after, names, names', σ₁, σ₂, parts, left, rfl, hext, hrest⟩ :=
        ih hplan hr
      refine ⟨b :: before, b', after, names, names', σ₁, σ₂, parts, left, rfl, ?_, hrest⟩
      refine hext.mono fun i hi => ?_
      rw [branchesNodes, captureIndices_append]
      exact List.mem_append_right _ hi
    · obtain ⟨parts, σ₁, rest, hparts, hrest, rfl⟩ := (planBranches_cons_iff hseen).1 hplan
      rcases hr with hr | hr
      · exact ⟨[], b, bs, [], _, σ, σ₁, parts, [], rfl, .refl σ, by simp, hparts,
          Plan.shows_concat.1 hr, planBranches_extends hrest⟩
      · obtain ⟨before, b', after, names, names', σ₂, σ₃, parts', left, rfl, hext, hleft, hplan',
          hshow, hafter⟩ := ih hrest hr
        refine ⟨b :: before, b', after, partsNames parts ++ names, names', σ₂, σ₃, parts',
          left ++ (Plan.concat parts).leftover cap env, rfl, ?_, ?_, hplan', ?_, hafter⟩
        · rw [branchesNodes, captureIndices_append]
          exact (planBranch_extends hparts).append hext
        · rw [List.forall_mem_append]
          exact ⟨fun g hg => List.mem_append_right _ (hleft g hg),
            fun g hg => List.mem_append_left _ (Plan.leftover_names g hg)⟩
        · rwa [List.append_assoc]

/-! ## Nodes that take characters -/

mutual

/-- Whether a node may show the empty text, as far as can be told from the tree. -/
def Node.mayBeEmpty : Node → Bool
  | .char _ => false
  | .charClass _ => false
  | .anchor _ => true
  | .backreference _ => true
  | .group (.lookahead _) _ => true
  | .group _ branches => branchesMayBeEmpty branches
  | .repetition 0 (some 1) (.repetition min _ body) => min == 0 || body.mayBeEmpty
  | .repetition min _ body => min == 0 || body.mayBeEmpty

def branchMayBeEmpty : List Node → Bool
  | [] => true
  | n :: ns => n.mayBeEmpty && branchMayBeEmpty ns

def branchesMayBeEmpty : List (List Node) → Bool
  | [] => false
  | b :: bs => branchMayBeEmpty b || branchesMayBeEmpty bs

end

/-- Whether a node shows no empty text, whatever its surroundings. -/
def Node.Taking (n : Node) : Prop :=
  ∀ cap env σ p σ' r, n.plan σ = .ok (p, σ') → p.Shows cap env r → r.text ≠ []

theorem branch_text_ne_nil {branch : List Node} {parts : List Plan}
    (h : ∀ n ∈ branch, n.mayBeEmpty = false → n.Taking) (hempty : branchMayBeEmpty branch = false)
    (hplan : planBranch branch σ = .ok (parts, σ')) (hr : Plan.PartsShow cap env parts r) :
    r.text ≠ [] := by
  induction branch generalizing σ parts env r with
  | nil => cases hempty
  | cons n ns ih =>
    obtain ⟨hn, hns⟩ := List.forall_mem_cons.1 h
    rw [branchMayBeEmpty, Bool.and_eq_false_iff] at hempty
    by_cases hlook : n.isLookahead = true
    · -- a group that looks ahead is no part of the plan, and may be empty
      have hn : n.mayBeEmpty = true := by
        cases n with
        | group kind branches =>
          cases kind with
          | lookahead negative => rw [Node.mayBeEmpty]
          | _ => cases hlook
        | _ => cases hlook
      rw [planBranch_skip hlook] at hplan
      exact ih hns (hempty.resolve_left (by simp [hn])) hplan hr
    · obtain ⟨p, σ₁, rest, hp, hrest, rfl⟩ :=
        (planBranch_cons_iff (Bool.eq_false_iff.2 hlook)).1 hplan
      obtain ⟨a, b, ha, hb, rfl⟩ := hr
      rw [Ne, List.append_eq_nil_iff, not_and_or]
      rcases hempty with hempty | hempty
      · exact .inl (hn hempty cap env σ p σ₁ a hp ha)
      · exact .inr (ih hns hempty hrest hb)

theorem branches_text_ne_nil {branches : List (List Node)} {ps : List Plan}
    (h : ∀ b ∈ branches, ∀ n ∈ b, n.mayBeEmpty = false → n.Taking)
    (hempty : branchesMayBeEmpty branches = false)
    (hplan : planBranches [] branches σ = .ok (ps, σ'))
    (hr : (Plan.ofBranches ps).Shows cap env r) : r.text ≠ [] := by
  have hall : ∀ b ∈ branches, branchMayBeEmpty b = false := by
    clear h hplan
    induction branches with
    | nil => exact fun b hb => absurd hb List.not_mem_nil
    | cons b bs ih =>
      rw [branchesMayBeEmpty, Bool.or_eq_false_iff] at hempty
      exact List.forall_mem_cons.2 ⟨hempty.1, ih hempty.2⟩
  obtain ⟨before, b, after, names, names', σ₁, σ₂, parts, left, rfl, -, -, hparts, hshow, -⟩ :=
    exists_branch_of_anyShows hplan (Plan.anyShows_of_shows_ofBranches hr)
  have hb : b ∈ before ++ b :: after := List.mem_append_right before List.mem_cons_self
  exact branch_text_ne_nil (h b hb) (hall b hb) hparts hshow

/-- A repetition that has to repeat what takes characters takes characters. -/
theorem times_text_ne_nil {body : Node} {b : Plan} {min : Nat} {max : Option Nat}
    (h : body.mayBeEmpty = false → body.Taking)
    (hempty : (min == 0 || body.mayBeEmpty) = false) (hplan : body.plan σ = .ok (b, σ'))
    (hr : (Plan.times min max b).Shows cap env r) : r.text ≠ [] := by
  rw [Bool.or_eq_false_iff, beq_eq_false_iff_ne] at hempty
  obtain ⟨rs, hrs, hmin, -, rfl⟩ := Plan.shows_times.1 hr
  cases rs with
  | nil => exact absurd (Nat.le_zero.1 hmin) hempty.1
  | cons a rs =>
    intro htext
    refine h hempty.2 cap env σ b σ' a hplan (hrs a List.mem_cons_self) ?_
    exact List.flatMap_eq_nil_iff.1 htext a List.mem_cons_self

/-- A group shows the texts of its body. -/
theorem exists_shows_of_close {kind : GroupKind} {body : Plan} (h : (p, σ') = kind.close body σ)
    (hr : p.Shows cap env r) : ∃ b, body.Shows cap env b ∧ r.text = b.text := by
  cases kind with
  | capture index =>
    rw [GroupKind.close, Naming.record] at h
    split at h
    · obtain ⟨rfl, -⟩ := Prod.mk.inj h
      obtain ⟨b, hb, rfl⟩ := Plan.shows_named.1 hr
      exact ⟨b, hb, rfl⟩
    · obtain ⟨rfl, -⟩ := Prod.mk.inj h
      exact ⟨r, hr, rfl⟩
  | plain =>
    obtain ⟨rfl, -⟩ := Prod.mk.inj h
    exact ⟨r, hr, rfl⟩
  | lookahead negative =>
    obtain ⟨rfl, -⟩ := Prod.mk.inj h
    exact ⟨r, hr, rfl⟩

/-- **A node that takes characters in every way** shows no empty text. -/
theorem Node.text_ne_nil {n : Node} (h : n.mayBeEmpty = false) : n.Taking := by
  induction n with
  | char c =>
    intro cap env σ p σ' r hplan hr
    obtain ⟨rfl, -⟩ := plan_char_iff.1 hplan
    obtain ⟨v, hv, rfl⟩ := Plan.shows_texts.1 hr
    rw [List.mem_singleton.1 hv]
    exact List.cons_ne_nil c []
  | charClass k =>
    intro cap env σ p σ' r hplan hr
    obtain ⟨rfl, -⟩ := plan_charClass_iff.1 hplan
    obtain ⟨v, hv, rfl⟩ := Plan.shows_texts.1 hr
    obtain ⟨c, -, rfl⟩ := List.mem_map.1 hv
    exact List.cons_ne_nil c []
  | anchor a => cases h
  | backreference index => cases h
  | group kind branches ih =>
    intro cap env σ p σ' r hplan hr
    obtain ⟨ps, σ₁, hps, hclose⟩ := plan_group_iff.1 hplan
    obtain ⟨b, hb, htext⟩ := exists_shows_of_close hclose hr
    have hempty : branchesMayBeEmpty branches = false := by
      cases kind with
      | capture index => rwa [Node.mayBeEmpty] at h; exact nofun
      | plain => rwa [Node.mayBeEmpty] at h; exact nofun
      | lookahead negative => simp [Node.mayBeEmpty] at h
    rw [htext]
    exact branches_text_ne_nil ih hempty hps hb
  | marked min max body ih =>
    intro cap env σ p σ' r hplan hr
    obtain ⟨b, hb, rfl⟩ := plan_marked_iff.1 hplan
    rw [Node.mayBeEmpty] at h
    exact times_text_ne_nil ih h hb hr
  | repetition min max body hm ih =>
    intro cap env σ p σ' r hplan hr
    obtain ⟨b, hb, rfl⟩ := (plan_repetition_iff hm).1 hplan
    rw [Node.mayBeEmpty] at h
    · exact times_text_ne_nil ih h hb hr
    · exact hm

end SequenceConstraint
