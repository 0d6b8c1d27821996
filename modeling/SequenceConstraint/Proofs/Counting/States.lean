import SequenceConstraint.Proofs.Counting.Choices
import SequenceConstraint.Proofs.Counting.Failures
import SequenceConstraint.Proofs.Order.Trees

/-!
# Counting the states

Each choice of a tree leads its plan to one state, or to none: of the states of one alternation that
show the same text only the first is kept. So a plan has at most as many states as there are
choices, and just as many if no alternation has branches to choose from (`Tree.Unbranched`).

## Main statements

* `Node.countsStates` — the states of a plan and the choices of its node
* `Tree.exists_stream_of_languageSize` — a finite count bounds the texts of a stream
-/

namespace SequenceConstraint

/-- Whether no alternation of a tree keeps several branches. -/
def Tree.Unbranched (tree : Tree) : Prop :=
  ∀ branches, (branches = tree.branches ∨ ∃ kind, .group kind branches ∈ tree.nodes) →
    (keptBranches [] branches).length ≤ 1

/-! ## Bounds that may be exact -/

/-- Whether a number is at most another one, and the same if `exact` holds. -/
structure UpTo (exact : Prop) (a b : Nat) : Prop where
  le : a ≤ b
  eq : exact → a = b

section UpTo

variable {exact : Prop} {a a' b b' : Nat}

theorem UpTo.refl (a : Nat) : UpTo exact a a := ⟨Nat.le_refl a, fun _ => rfl⟩

theorem UpTo.add (h : UpTo exact a b) (h' : UpTo exact a' b') : UpTo exact (a + a') (b + b') :=
  ⟨Nat.add_le_add h.le h'.le, fun he => congrArg₂ (· + ·) (h.eq he) (h'.eq he)⟩

theorem UpTo.sum_pow (h : UpTo exact a b) (s : Finset Nat) :
    UpTo exact (∑ k ∈ s, a ^ k) (∑ k ∈ s, b ^ k) :=
  ⟨Finset.sum_le_sum fun k _ => Nat.pow_le_pow_left h.le k, fun he => by rw [h.eq he]⟩

/-- Each value of a list leads to about as many others. -/
theorem upTo_flatMap {α β : Type} {l : List α} {f : α → List β} (hl : UpTo exact l.length a)
    (hf : ∀ x ∈ l, UpTo exact (f x).length b) : UpTo exact (l.flatMap f).length (a * b) := by
  have hvalues : UpTo exact (l.flatMap f).length (l.length * b) := by
    induction l generalizing a with
    | nil => simpa using UpTo.refl 0
    | cons x xs ih =>
      obtain ⟨hx, hxs⟩ := List.forall_mem_cons.1 hf
      rw [List.flatMap_cons, List.length_append, List.length_cons, Nat.succ_mul, Nat.add_comm]
      exact (ih (UpTo.refl _) hxs).add hx
  exact ⟨hvalues.le.trans (Nat.mul_le_mul_right b hl.le), fun he => by rw [hvalues.eq he, hl.eq he]⟩

end UpTo

/-! ## Lengths of listings -/

theorem length_wordsOf {α : Type} (letters : List α) (k : Nat) :
    (wordsOf letters k).length = letters.length ^ k := by
  induction k with
  | zero => rfl
  | succ k ih =>
    simp only [wordsOf, List.length_flatMap, List.length_map, List.map_const',
      List.sum_replicate_nat, ih, Nat.pow_succ]

theorem length_repeated (min limit : Nat) (rs : List Shown) :
    (repeated min limit rs).length = ∑ k ∈ Finset.Icc min limit, rs.length ^ k := by
  simp only [repeated, List.length_flatMap, List.length_map, length_wordsOf, Nat.Icc_eq_range']
  rfl

theorem keepFirst_sublist (seen : List (List Char)) (rs : List Shown) :
    (keepFirst seen rs).Sublist rs := by
  induction rs generalizing seen with
  | nil => exact .slnil
  | cons r rs ih =>
    rw [keepFirst]
    split
    · exact (ih seen).cons r
    · exact (ih _).cons_cons r

/-- An alternation shows at most what its branches show, and all of it if there is one at most. -/
theorem upTo_alternation {exact : Prop} {listings : List (List Shown)} {b : Nat}
    (h : UpTo exact listings.flatten.length b) (hlone : exact → listings.length ≤ 1) :
    UpTo exact (alternation listings).length b := by
  have halternation : UpTo exact (alternation listings).length listings.flatten.length := by
    match listings with
    | [] => exact .refl 0
    | [listing] =>
      rw [alternation, List.flatten_singleton]
      exact .refl _
    | listing :: listing' :: listings =>
      refine ⟨(keepFirst_sublist [] _).length_le, fun he => ?_⟩
      have := hlone he
      simp only [List.length_cons] at this
      omega
  exact ⟨halternation.le.trans h.le, fun he => (halternation.eq he).trans (h.eq he)⟩

/-- A group has the states of what stands in it. -/
theorem length_listing_close (kind : GroupKind) (body : Plan) (σ : Naming) (cap : Nat)
    (env : Bindings) :
    ((kind.close body σ).1.listing cap env).length = (body.listing cap env).length := by
  cases kind with
  | capture index =>
    show ((σ.record index body).1.listing cap env).length = _
    unfold Naming.record
    split
    · rw [Plan.listing_named, List.length_map]
    · rfl
  | plain => rfl
  | lookahead negative => rfl

theorem length_branchListings (cap : Nat) (env : Bindings) (ps : List Plan) :
    (Plan.branchListings cap env ps).length = ps.length := by
  induction ps generalizing env with
  | nil => rfl
  | cons p ps ih => rw [Plan.branchListings, List.length_cons, List.length_cons, ih]

theorem length_planBranches {seen : List Branch} {branches : List (List Node)} {ps : List Plan}
    {σ σ' : Naming} (hplan : planBranches seen branches σ = .ok (ps, σ')) :
    ps.length = (keptBranches seen branches).length := by
  induction branches generalizing seen ps σ with
  | nil =>
    obtain ⟨rfl, -⟩ := planBranches_nil_iff.1 hplan
    rfl
  | cons b bs ih =>
    rw [keptBranches]
    by_cases hseen : takingNodes b ∈ seen
    · rw [planBranches_skip hseen] at hplan
      rw [if_pos (List.contains_iff_mem.2 hseen), ih hplan]
    · obtain ⟨parts, σ₁, rest, -, hrest, rfl⟩ := (planBranches_cons_iff hseen).1 hplan
      rw [if_neg (mt List.contains_iff_mem.1 hseen), List.length_cons, List.length_cons, ih hrest]

/-! ## States and choices -/

/-- Whether the plan of a node has at most as many states as the node has choices, wherever it is
planned. -/
def Node.CountsStates (exact : Prop) (cap : Nat) (n : Node) : Prop :=
  ∀ σ p σ' env, n.plan σ = .ok (p, σ') → UpTo exact (p.listing cap env).length (n.choices cap)

section States

variable {exact : Prop} {cap : Nat} {σ σ' : Naming} {ps : List Plan}

theorem upTo_branch {branch : List Node} (hnodes : ∀ n ∈ branch, n.CountsStates exact cap)
    (hplan : planBranch branch σ = .ok (ps, σ')) (env : Bindings) :
    UpTo exact (Plan.partsListing cap env ps).length (branchChoices cap branch) := by
  induction branch generalizing σ ps env with
  | nil =>
    obtain ⟨rfl, -⟩ := planBranch_nil_iff.1 hplan
    rw [Plan.partsListing, branchChoices]
    exact .refl 1
  | cons n ns ih =>
    obtain ⟨hn, hns⟩ := List.forall_mem_cons.1 hnodes
    by_cases hlook : n.isLookahead = true
    · rw [planBranch_skip hlook] at hplan
      rw [branchChoices_skip hlook]
      exact ih hns hplan env
    · rw [Bool.not_eq_true] at hlook
      obtain ⟨p, σ₁, rest, hp, hrest, rfl⟩ := (planBranch_cons_iff hlook).1 hplan
      rw [Plan.partsListing, branchChoices_cons hlook]
      refine upTo_flatMap (hn σ p σ₁ env hp) fun a _ => ?_
      rw [List.length_map]
      exact ih hns hrest _

theorem upTo_flatten {branches : List (List Node)} {seen : List Branch}
    (hnodes : ∀ b ∈ branches, ∀ n ∈ b, n.CountsStates exact cap)
    (hplan : planBranches seen branches σ = .ok (ps, σ')) (env : Bindings) :
    UpTo exact (Plan.branchListings cap env ps).flatten.length
      (branchesChoices cap seen branches) := by
  induction branches generalizing σ seen ps env with
  | nil =>
    obtain ⟨rfl, -⟩ := planBranches_nil_iff.1 hplan
    rw [Plan.branchListings, branchesChoices]
    exact .refl 0
  | cons b bs ih =>
    obtain ⟨hb, hbs⟩ := List.forall_mem_cons.1 hnodes
    by_cases hseen : takingNodes b ∈ seen
    · rw [planBranches_skip hseen] at hplan
      rw [branchesChoices_skip hseen]
      exact ih hbs hplan env
    · obtain ⟨parts, σ₁, rest, hparts, hrest, rfl⟩ := (planBranches_cons_iff hseen).1 hplan
      rw [Plan.branchListings, branchesChoices_cons hseen, List.flatten_cons, List.length_append,
        Plan.listing_concat]
      exact (upTo_branch hb hparts env).add (ih hbs hrest _)

theorem upTo_branches {branches : List (List Node)}
    (hnodes : ∀ b ∈ branches, ∀ n ∈ b, n.CountsStates exact cap)
    (hlone : exact → (keptBranches [] branches).length ≤ 1)
    (hplan : planBranches [] branches σ = .ok (ps, σ')) (env : Bindings) :
    UpTo exact ((Plan.ofBranches ps).listing cap env).length (branchesChoices cap [] branches) := by
  rw [listing_ofBranches]
  refine upTo_alternation (upTo_flatten hnodes hplan env) fun he => ?_
  rw [length_branchListings, length_planBranches hplan]
  exact hlone he

theorem upTo_times {body : Node} {b : Plan} (hbody : body.CountsStates exact cap)
    (hplan : body.plan σ = .ok (b, σ')) (min : Nat) (max : Option Nat) (env : Bindings) :
    UpTo exact ((Plan.times min max b).listing cap env).length
      (∑ k ∈ Finset.Icc min (Plan.limit cap min max), body.choices cap ^ k) := by
  rw [Plan.listing_times, length_repeated]
  exact (hbody σ b σ' env hplan).sum_pow _

end States

/-- **The plan of a node has at most as many states as the node has choices,** and as many if
nothing branches. -/
theorem Node.countsStates {tree : Tree} (cap : Nat) (n : Node)
    (htree : ∀ m ∈ n.nodes, m ∈ tree.nodes) : n.CountsStates tree.Unbranched cap := by
  induction n with
  | char c =>
    intro σ p σ' env hplan
    obtain ⟨rfl, -⟩ := plan_char_iff.1 hplan
    rw [Plan.listing_texts, Node.choices]
    exact .refl 1
  | charClass k =>
    intro σ p σ' env hplan
    obtain ⟨rfl, -⟩ := plan_charClass_iff.1 hplan
    rw [Plan.listing_texts, Node.choices, List.length_map, List.length_map]
    exact .refl _
  | anchor a =>
    intro σ p σ' env hplan
    obtain ⟨rfl, -⟩ := plan_anchor_iff.1 hplan
    rw [Plan.listing_texts, Node.choices]
    exact .refl 1
  | backreference index =>
    intro σ p σ' env hplan
    obtain ⟨name, -, rfl, -⟩ := plan_backreference_iff.1 hplan
    rw [Plan.listing_echo, Node.choices]
    exact .refl 1
  | group kind branches ih =>
    intro σ p σ' env hplan
    obtain ⟨ps, σ₁, hps, hclose⟩ := plan_group_iff.1 hplan
    have hlone : tree.Unbranched → (keptBranches [] branches).length ≤ 1 := fun hunbranched =>
      hunbranched branches (.inr ⟨kind, htree _ (Node.self_mem_nodes _)⟩)
    have hbranches := upTo_branches (fun b hb n hn => ih b hb n hn fun m hm =>
      htree m (List.mem_cons_of_mem _ (mem_branchesNodes_of_mem hb hn hm))) hlone hps env
    have hp : p = (kind.close (Plan.ofBranches ps) σ₁).1 := congrArg Prod.fst hclose
    rw [Node.choices, hp, length_listing_close]
    exact hbranches
  | marked min max body ih =>
    intro σ p σ' env hplan
    obtain ⟨b, hb, rfl⟩ := plan_marked_iff.1 hplan
    have hbody := ih fun m hm => htree m (List.mem_cons_of_mem _ (List.mem_cons_of_mem _ hm))
    rw [choices_marked]
    exact upTo_times hbody hb min max env
  | repetition min max body hm ih =>
    intro σ p σ' env hplan
    obtain ⟨b, hb, rfl⟩ := (plan_repetition_iff hm).1 hplan
    have hbody := ih fun m hm => htree m (List.mem_cons_of_mem _ hm)
    rw [choices_repetition hm]
    exact upTo_times hbody hb min max env

/-- **A finite count bounds the texts of a stream:** a tree with such a count has a stream, and the
stream hands out at most as many texts before it is exhausted, whatever the cap. They are just as
many if nothing branches. -/
theorem Tree.exists_stream_of_languageSize {tree : Tree} {k : Nat}
    (h : tree.languageSize = .ok (.finite k)) (cap : Nat) :
    ∃ stream, Stream.ofTree cap tree = .ok stream ∧ stream.toList.length ≤ k ∧
      (tree.Unbranched → stream.toList.length = k) := by
  obtain ⟨c, p, -, hp⟩ := tree.failsAlike.resolve_left (by simp [h])
  refine ⟨.ofPlan cap p, Stream.ofTree_eq_ok_iff.2 ⟨p, hp, rfl⟩, ?_⟩
  obtain ⟨ps, σ, hps, rfl⟩ := Tree.plan_eq_ok_iff.1 hp
  have hstates := upTo_branches
    (fun b hb n hn => n.countsStates cap fun m hm => mem_branchesNodes_of_mem hb hn hm)
    (fun hunbranched => hunbranched tree.branches (.inl rfl)) hps []
  have hchoices : branchesChoices cap [] tree.branches = k := Tree.choices_eq h cap
  rw [hchoices, Plan.listing, List.length_map] at hstates
  rw [Stream.toList_ofPlan, List.length_map]
  exact ⟨hstates.le, hstates.eq⟩

/-- The tree of `([AB]C?){2}\1[^ -~]*`. -/
def twoByTwo : Tree :=
  ⟨[[.repetition 2 (some 2) (.group (.capture 1) [[.charClass ⟨false, [.interval 'A' 'B']⟩,
      .repetition 0 (some 1) (.char 'C')]]),
    .backreference 1, .repetition 0 none (.charClass ⟨true, [.interval ' ' '~']⟩)]], 1⟩

theorem twoByTwo_unbranched : twoByTwo.Unbranched := by
  intro branches h
  rcases h with rfl | ⟨kind, h⟩
  · decide
  · simp [twoByTwo, Tree.nodes, branchesNodes, branchNodes, Node.nodes] at h
    obtain ⟨rfl, rfl⟩ := h
    decide

theorem twoByTwo_exists_stream :
    twoByTwo.languageSize = .ok (.finite 16) ∧ twoByTwo.Unbranched ∧
      ∃ stream, Stream.ofTree 5 twoByTwo = .ok stream ∧ stream.toList.length = 16 := by
  have hsize : twoByTwo.languageSize = .ok (.finite 16) := by decide +kernel
  obtain ⟨stream, hstream, -, hexact⟩ := Tree.exists_stream_of_languageSize hsize 5
  exact ⟨hsize, twoByTwo_unbranched, stream, hstream, hexact twoByTwo_unbranched⟩

end SequenceConstraint
