import SequenceConstraint.Proofs.Generation.Planning
import SequenceConstraint.Proofs.Pattern.Compilation
import SequenceConstraint.Proofs.Pattern.Invalid
import SequenceConstraint.Proofs.Syntax.Enclosed

/-!
# References in the combinations

A symbol with a backreference in it takes the backreference along into the combinations, where the
groups of the pattern are gone. There is one group only, around everything, and it is complete only
after the last symbol; so the backreference finds nothing, and no combination is ever listed.

## Main statements

* `Node.plansUnreferring` — without groups, a node with a backreference cannot be planned
* `invalidSequences_dangling_iff` — the invalid sequences fail just if a symbol refers to a group
* `not_forall_invalidSequences_ne_dangling` — they may fail although the valid sequences do not
-/

namespace SequenceConstraint

/-! ## Planning without groups -/

section Groupless

variable {σ σ' : Naming} {ps : List Plan}

/-- Whether planning a node that has no groups, with nothing recorded, tells that there are no
backreferences in it. -/
def Node.PlansUnreferring (n : Node) : Prop :=
  Groupless n.nodes → ∀ σ p σ', (∀ index, σ.name? index = none) → n.plan σ = .ok (p, σ') →
    σ' = σ ∧ ∀ index, .backreference index ∉ n.nodes

/-- **Without groups a node with a backreference cannot be planned.** -/
theorem Node.plansUnreferring (n : Node) : n.PlansUnreferring := by
  intro hgroups σ p σ' hσ hp
  induction n generalizing p with
  | char c =>
    obtain ⟨-, rfl⟩ := plan_char_iff.1 hp
    exact ⟨rfl, by simp [Node.nodes]⟩
  | charClass k =>
    obtain ⟨-, rfl⟩ := plan_charClass_iff.1 hp
    exact ⟨rfl, by simp [Node.nodes]⟩
  | anchor a =>
    obtain ⟨-, rfl⟩ := plan_anchor_iff.1 hp
    exact ⟨rfl, by simp [Node.nodes]⟩
  | backreference index =>
    obtain ⟨name, hname, -, -⟩ := plan_backreference_iff.1 hp
    rw [hσ index] at hname
    cases hname
  | group kind branches ih => exact absurd (Node.self_mem_nodes _) (hgroups kind branches)
  | marked min max body ih =>
    obtain ⟨b, hb, -⟩ := plan_marked_iff.1 hp
    have hbody : Groupless body.nodes := hgroups.subset fun m hm =>
      List.mem_cons_of_mem _ (List.mem_cons_of_mem _ hm)
    obtain ⟨hkept, hnone⟩ := ih hbody b hb
    exact ⟨hkept, fun index hmem => hnone index (by simpa [Node.nodes] using hmem)⟩
  | repetition min max body hm ih =>
    obtain ⟨b, hb, -⟩ := (plan_repetition_iff hm).1 hp
    have hbody : Groupless body.nodes := hgroups.subset (List.subset_cons_self _ _)
    obtain ⟨hkept, hnone⟩ := ih hbody b hb
    exact ⟨hkept, fun index hmem => hnone index (by simpa [Node.nodes] using hmem)⟩

theorem isLookahead_eq_false {n : Node} (h : Groupless n.nodes) : n.isLookahead = false := by
  cases n with
  | group kind branches => exact absurd (Node.self_mem_nodes _) (h kind branches)
  | _ => rfl

theorem notMem_of_planBranch {b : Branch} (hgroups : Groupless (branchNodes b))
    (hσ : ∀ index, σ.name? index = none) (hp : planBranch b σ = .ok (ps, σ')) :
    σ' = σ ∧ ∀ index, .backreference index ∉ branchNodes b := by
  induction b generalizing ps with
  | nil =>
    obtain ⟨-, rfl⟩ := planBranch_nil_iff.1 hp
    exact ⟨rfl, fun _ => List.not_mem_nil⟩
  | cons n ns ih =>
    have hn : Groupless n.nodes := hgroups.subset (List.subset_append_left _ _)
    have hns : Groupless (branchNodes ns) := hgroups.subset (List.subset_append_right _ _)
    obtain ⟨p, σ₁, rest, hfirst, hrest, -⟩ := (planBranch_cons_iff (isLookahead_eq_false hn)).1 hp
    obtain ⟨rfl, hnone⟩ := n.plansUnreferring hn σ p σ₁ hσ hfirst
    obtain ⟨hkept, hnones⟩ := ih hns hrest
    refine ⟨hkept, fun index hmem => ?_⟩
    exact (List.mem_append.1 hmem).elim (hnone index) (hnones index)

theorem notMem_of_planBranches {branches : List (List Node)} {seen : List Branch}
    (hgroups : Groupless (branchesNodes branches)) (hσ : ∀ index, σ.name? index = none)
    (hp : planBranches seen branches σ = .ok (ps, σ')) :
    ∀ b ∈ branches, b ∉ seen → ∀ index, .backreference index ∉ branchNodes b := by
  induction branches generalizing seen ps with
  | nil => exact fun b hb => absurd hb List.not_mem_nil
  | cons b bs ih =>
    have hb : Groupless (branchNodes b) := hgroups.subset (List.subset_append_left _ _)
    have hbs : Groupless (branchesNodes bs) := hgroups.subset (List.subset_append_right _ _)
    -- no node of the branch is left out
    have htaking : takingNodes b = b := by
      refine List.filter_eq_self.2 fun n hn => ?_
      have hnode : Groupless n.nodes := hb.subset fun m hm => mem_branchNodes.2 ⟨n, hn, hm⟩
      rw [isLookahead_eq_false hnode]
      rfl
    by_cases hseen : takingNodes b ∈ seen
    · rw [planBranches_skip hseen] at hp
      rw [htaking] at hseen
      exact List.forall_mem_cons.2 ⟨fun hnew => absurd hseen hnew, ih hbs hp⟩
    · obtain ⟨parts, σ₁, rest, hparts, hrest, -⟩ := (planBranches_cons_iff hseen).1 hp
      obtain ⟨rfl, hnone⟩ := notMem_of_planBranch hb hσ hparts
      refine List.forall_mem_cons.2 ⟨fun _ => hnone, fun c hc hnew => ?_⟩
      by_cases hsame : c = b
      · rw [hsame]
        exact hnone
      · refine ih hbs hrest c hc fun hmem => ?_
        rw [htaking] at hmem
        exact (List.mem_cons.1 hmem).elim hsame hnew

/-- **A group around everything** is complete too late for the backreferences in it. -/
theorem Tree.notMem_of_plan_group {tree : Tree} {kind : GroupKind} {branches : List (List Node)}
    {min : Nat} {max : Option Nat} (hmin : 0 < min)
    (htree : tree.branches = [[.repetition min max (.group kind branches)]])
    (hgroups : Groupless (branchesNodes branches)) {plan : Plan}
    (hplan : tree.plan = .ok plan) (index : Nat) : .backreference index ∉ tree.nodes := by
  obtain ⟨ps, σ, hps, -⟩ := Tree.plan_eq_ok_iff.1 hplan
  rw [htree] at hps
  obtain ⟨parts, σ₁, -, hparts, -⟩ := (planBranches_cons_iff List.not_mem_nil).1 hps
  obtain ⟨p, σ₂, -, hrepetition, -⟩ := (planBranch_cons_iff rfl).1 hparts
  have hunmarked : ∀ min' max' body', min = 0 → max = some 1 →
      Node.group kind branches = .repetition min' max' body' → False := by
    rintro _ _ _ rfl
    cases hmin
  obtain ⟨b, hgroup, -⟩ := (plan_repetition_iff hunmarked).1 hrepetition
  obtain ⟨qs, σ₃, hqs, -⟩ := plan_group_iff.1 hgroup
  have hnone := notMem_of_planBranches hgroups (fun _ => rfl) hqs
  rw [Tree.nodes, htree]
  intro hmem
  simp only [branchesNodes, branchNodes, Node.nodes, List.append_nil, List.mem_cons,
    reduceCtorEq, false_or] at hmem
  obtain ⟨b, hb, hmem⟩ := mem_branchesNodes.1 hmem
  exact hnone b hb List.not_mem_nil index hmem

end Groupless

/-! ## Where references are written -/

/-- Two characters in a row, neither of them a delimiter, stand before it or after it. -/
theorem pair_infix_append_cons {x y d : Char} {front rest : List Char} (hx : x ≠ d) (hy : y ≠ d)
    (h : [x, y] <:+: front ++ d :: rest) : [x, y] <:+: front ∨ [x, y] <:+: rest := by
  induction front with
  | nil =>
    rcases List.infix_cons_iff.1 h with hbegins | hrest
    · exact absurd (List.cons_prefix_cons.1 hbegins).1 hx
    · exact .inr hrest
  | cons z front ih =>
    rcases List.infix_cons_iff.1 h with hbegins | hrest
    · obtain ⟨rfl, hsecond⟩ := List.cons_prefix_cons.1 hbegins
      cases front with
      | nil => exact absurd (List.cons_prefix_cons.1 hsecond).1 hy
      | cons w front =>
        obtain ⟨rfl, -⟩ := List.cons_prefix_cons.1 hsecond
        exact .inl ⟨[], front, rfl⟩
    · exact (ih hrest).imp_left fun hfront => hfront.trans (List.suffix_cons z front).isInfix

/-- Two characters in a row that are no bars stand in one of the texts between bars. -/
theorem exists_infix_pair {x y : Char} {ws : List (List Char)} (hx : x ≠ '|') (hy : y ≠ '|')
    (h : [x, y] <:+: ['|'].intercalate ws) : ∃ w ∈ ws, [x, y] <:+: w := by
  induction ws with
  | nil => exact absurd h.length_le (by simp)
  | cons w ws ih =>
    cases ws with
    | nil =>
      rw [List.intercalate_singleton] at h
      exact ⟨w, List.mem_cons_self, h⟩
    | cons v ws =>
      rw [List.intercalate_cons_cons, List.append_assoc] at h
      rcases pair_infix_append_cons hx hy h with hw | hws
      · exact ⟨w, List.mem_cons_self, hw⟩
      · obtain ⟨u, hu, hwithin⟩ := ih hws
        exact ⟨u, List.mem_cons_of_mem w hu, hwithin⟩

namespace Pattern

open Syntax

variable {source : String} {p : Pattern}

/-- The text of the combinations has one pair of parentheses only. -/
theorem paren_notMem_intercalate {symbols : List (List Char)} {op : Char} (hop : op ≠ '|')
    (h : ∀ w ∈ symbols, op ∉ w) : op ∉ ['|'].intercalate symbols := by
  induction symbols with
  | nil => exact List.not_mem_nil
  | cons w ws ih =>
    obtain ⟨hw, hws⟩ := List.forall_mem_cons.1 h
    cases ws with
    | nil =>
      rw [List.intercalate_singleton]
      exact hw
    | cons v ws =>
      rw [List.intercalate_cons_cons]
      simp [hw, hop, ih hws]

/-- **The combinations cannot be planned** if there is a backreference in them. -/
theorem notMem_combinations_of_plan (hp : compile source = .ok p) {plan : Plan}
    (hplan : p.combinations.plan = .ok plan) (index : Nat) :
    .backreference index ∉ p.combinations.nodes := by
  obtain ⟨-, -, -, -, hparse⟩ := compile_eq_ok_iff.1 hp
  rw [symbolsOf, combinationsOf_eq] at hparse
  have hops : ∀ op ∈ Dotted.operators, ∀ w ∈ Dotted.symbols source.toList, op ∉ w :=
    fun op hop w hw => (Dotted.infix_of_mem_symbols hw).2 op hop
  obtain ⟨kind, branches, htree, hgroups⟩ := exists_group_of_parse
    (paren_notMem_intercalate (by decide) (hops '(' (by decide)))
    (paren_notMem_intercalate (by decide) (hops ')' (by decide))) hparse
  exact Tree.notMem_of_plan_group Nat.one_pos htree hgroups hplan index

/-- A backreference in the combinations is written in the pattern. -/
theorem exists_infix_of_backreference (hp : compile source = .ok p) {index : Nat}
    (h : .backreference index ∈ p.combinations.nodes) :
    ∃ d : Char, d.isDigit = true ∧ d ≠ '0' ∧ ['\\', d] <:+: source.toList := by
  obtain ⟨-, -, -, -, hparse⟩ := compile_eq_ok_iff.1 hp
  rw [symbolsOf, combinationsOf_eq] at hparse
  obtain ⟨c, more, left, hsuffix, hread⟩ := Tree.exists_readToken_of_parse hparse h trivial
  obtain ⟨d, more, rfl, rfl, hdigit, hzero⟩ := backreference_readToken hread
  rw [String.toList_ofList] at hsuffix
  have hne : ∀ x : Char, x.isDigit = false → d ≠ x := by
    rintro x hx rfl
    rw [hdigit] at hx
    cases hx
  have htext : ['\\', d] <:+: [] ++ '(' ::
      (['|'].intercalate (Dotted.symbols source.toList) ++ ')' :: ['+']) :=
    List.IsInfix.trans ⟨[], more, rfl⟩ hsuffix.isInfix
  -- it stands neither before the parenthesis nor behind the other
  rcases pair_infix_append_cons (by decide) (hne '(' rfl) htext with hnone | hinner
  · exact absurd hnone.length_le (by simp)
  · rcases pair_infix_append_cons (by decide) (hne ')' rfl) hinner with hsymbols | hend
    · obtain ⟨w, hw, hwithin⟩ := exists_infix_pair (by decide) (hne '|' rfl) hsymbols
      exact ⟨d, hdigit, hzero, hwithin.trans (Dotted.infix_of_mem_symbols hw).1⟩
    · exact absurd hend.length_le (by simp)

/-- **The invalid sequences fail just if there is a backreference in the combinations,** for every
number of symbols. That backreference is written in the pattern, as a backslash and a digit. -/
theorem invalidSequences_dangling_iff (hp : compile source = .ok p) :
    (∀ n, (∃ e, p.invalidSequences n = .error (.dangling e)) ↔
      ∃ index, .backreference index ∈ p.combinations.nodes) ∧
    ((∃ index, .backreference index ∈ p.combinations.nodes) →
      ∃ d : Char, d.isDigit = true ∧ d ≠ '0' ∧ ['\\', d] <:+: source.toList) := by
  refine ⟨fun n => ⟨?_, ?_⟩, fun ⟨index, h⟩ => exists_infix_of_backreference hp h⟩
  · rintro ⟨e, he⟩
    by_contra hnone
    obtain ⟨plan, hplan, -⟩ := Tree.exists_plan fun index h => hnone ⟨index, h⟩
    rw [invalidSequences_eq hplan] at he
    have hbudget := select_error (map_eq_error_iff.1 he)
    cases hbudget
  · rintro ⟨index, h⟩
    cases hplan : p.combinations.plan with
    | error e =>
      refine ⟨e, ?_⟩
      unfold invalidSequences invalidTexts planOf
      rw [hplan]
      rfl
    | ok plan => exact absurd h (notMem_combinations_of_plan hp hplan index)

/-- The pattern `(S|M).C.\1`, compiled. -/
def repeatedChoice : Pattern where
  source := "(S|M).C.\\1"
  symbols := ["C", "M", "S", "\\1"]
  tree := ⟨[[.group (.capture 1) [[.char 'S'], [.char 'M']], .char 'C', .backreference 1]], 1⟩
  combinations := ⟨[[.repetition 1 none (.group (.capture 1)
    [[.char 'C'], [.char 'M'], [.char 'S'], [.backreference 1]])]], 1⟩

theorem repeatedChoice_compile : compile "(S|M).C.\\1" = .ok repeatedChoice := by decide +kernel

theorem repeatedChoice_invalidSequences :
    compile "(S|M).C.\\1" = .ok repeatedChoice ∧
      ∃ e, repeatedChoice.invalidSequences 2 = .error (.dangling e) :=
  ⟨repeatedChoice_compile, ((invalidSequences_dangling_iff repeatedChoice_compile).1 2).2
    ⟨1, by decide⟩⟩

/-- **The invalid sequences may fail although the valid ones do not:** the pattern `(S|M).C.\1` has
two valid sequences, but its symbol `\1` refers to nothing in the combinations. -/
theorem not_forall_invalidSequences_ne_dangling :
    ¬ ∀ (source : String) (p : Pattern) (n : Nat), compile source = .ok p →
      (∀ e, p.validSequences n ≠ .error (.dangling e)) →
        ∀ e, p.invalidSequences n ≠ .error (.dangling e) := by
  intro h
  have hvalid : repeatedChoice.validSequences 0 = .ok ["M.C.M", "S.C.S"] := by decide +kernel
  have hinvalid : repeatedChoice.invalidSequences 0 = .error (.dangling ⟨1⟩) := by decide +kernel
  refine h _ _ 0 repeatedChoice_compile (fun e => ?_) ⟨1⟩ hinvalid
  rw [hvalid]
  exact nofun

end Pattern

end SequenceConstraint
