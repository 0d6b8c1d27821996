import SequenceConstraint.Proofs.Agreement.States

/-!
# Nodes that generator and matcher read alike

From states that agree, a node leads the matcher over just the texts that its plan shows, and to
states that agree again (`Simulates`). The proof goes through a tree node by node, with the
references that are still to come.

A repetition and an alternation of several branches are *barriers*: what they capture is not
referred to from outside (`Tree.Keeps`). So it does not matter which round of a repetition comes
last, nor that of branches with one text the generator shows only the first.

## Main statements

* `simulates_rounds` — repetitions
* `simulates_branches` — alternations
* `Node.simulated` — all nodes of an admissible tree
-/

namespace SequenceConstraint

open Matching

/-! ## Admissible trees -/

/-- Whether every backreference to a group in a part of a tree stands in that part too. -/
def Tree.Keeps (tree : Tree) (part : List Node) : Prop :=
  ∀ index ∈ captureIndices part,
    (referenceIndices part).count index = (referenceIndices tree.nodes).count index

instance (tree : Tree) (part : List Node) : Decidable (tree.Keeps part) :=
  inferInstanceAs (Decidable (∀ index ∈ captureIndices part, _))

/-- Trees on which generator and matcher agree. -/
structure Tree.Admissible (tree : Tree) : Prop where
  noLookahead : ∀ n ∈ tree.nodes, n.isLookahead = false
  noAnchor : ∀ a, .anchor a ∉ tree.nodes
  distinct : (captureIndices tree.nodes).Nodup
  inRange : ∀ index ∈ captureIndices tree.nodes, 1 ≤ index ∧ index ≤ tree.captures
  unbounded : ∀ min body, .repetition min none body ∈ tree.nodes → min ≤ 1
  bodies : ∀ min max body, .repetition min max body ∈ tree.nodes → tree.Keeps body.nodes
  alternatives : ∀ branches,
    (branches = tree.branches ∨ ∃ kind, .group kind branches ∈ tree.nodes) →
      1 < branches.length → ∀ b ∈ branches, tree.Keeps (branchNodes b)

/-- A part of a tree where it stands: some nodes, the references after it, and the names given
before it. -/
structure Fits (tree : Tree) (part : List Node) (later : List Nat) (σ : Naming) : Prop where
  mem : ∀ n ∈ part, n ∈ tree.nodes
  count : ∀ index, (referenceIndices part).count index + later.count index ≤
    (referenceIndices tree.nodes).count index
  distinct : (captureIndices part).Nodup
  unnamed : ∀ index ∈ captureIndices part, σ.name? index = none
  limit : σ.limit = tree.captures

namespace Fits

variable {tree : Tree} {part rest : List Node} {later names : List Nat} {σ σ' : Naming}

/-- What stands within a part. -/
theorem within (h : Fits tree part later σ) (hsub : rest.Sublist part) :
    Fits tree rest later σ where
  mem n hn := h.mem n (hsub.subset hn)
  count index := by
    have hle : (referenceIndices rest).count index ≤ (referenceIndices part).count index :=
      (hsub.filterMap _).count_le index
    have := h.count index
    omega
  distinct := h.distinct.sublist (hsub.filterMap _)
  unnamed index hi := h.unnamed index ((hsub.filterMap _).subset hi)
  limit := h.limit

/-- The first of two parts; the references of the second come after it. -/
theorem first (h : Fits tree (part ++ rest) later σ) :
    Fits tree part (referenceIndices rest ++ later) σ where
  mem n hn := h.mem n (List.mem_append_left rest hn)
  count index := by
    have := h.count index
    simp only [referenceIndices_append, List.count_append] at this ⊢
    omega
  distinct := by
    have := h.distinct
    rw [captureIndices_append, List.nodup_append] at this
    exact this.1
  unnamed index hi := h.unnamed index (by simp [hi])
  limit := h.limit

/-- The second of two parts, after the groups of the first have been named. -/
theorem second (h : Fits tree (part ++ rest) later σ)
    (hext : Naming.Extends (captureIndices part) names σ σ') : Fits tree rest later σ' where
  mem n hn := h.mem n (List.mem_append_right part hn)
  count index := by
    have := h.count index
    simp only [referenceIndices_append, List.count_append] at this
    omega
  distinct := by
    have := h.distinct
    rw [captureIndices_append, List.nodup_append] at this
    exact this.2.1
  unnamed index hi := by
    have hdistinct := h.distinct
    rw [captureIndices_append, List.nodup_append] at hdistinct
    have hout : index ∉ captureIndices part := fun hm => hdistinct.2.2 index hm index hi rfl
    rw [hext.kept index hout]
    exact h.unnamed index (by simp [hi])
  limit := hext.limit.trans h.limit

/-- What a part that keeps its references captures is not referred to after it. -/
theorem not_captured (h : Fits tree part later σ) (hkeeps : tree.Keeps part) :
    ∀ index ∈ later, index ∉ captureIndices part := by
  intro index hi hcaptured
  have hcount := h.count index
  rw [hkeeps index hcaptured] at hcount
  have hpos := List.count_pos_iff.2 hi
  omega

/-- If every branch keeps its references, so does the whole alternation. -/
theorem keeps_branches {branches : List (List Node)}
    (h : Fits tree (branchesNodes branches) later σ)
    (hkeeps : ∀ b ∈ branches, tree.Keeps (branchNodes b)) :
    tree.Keeps (branchesNodes branches) := by
  intro index hi
  obtain ⟨n, hn, hindex⟩ := List.mem_filterMap.1 hi
  obtain ⟨b, hb, hn⟩ := mem_branchesNodes.1 hn
  have hkept := hkeeps b hb index (List.mem_filterMap.2 ⟨n, hn, hindex⟩)
  have hle : (referenceIndices (branchNodes b)).count index ≤
      (referenceIndices (branchesNodes branches)).count index :=
    ((branchNodes_sublist hb).filterMap _).count_le index
  have hcount := h.count index
  omega

/-- No branch of an admissible tree loses a node. -/
theorem takingNodes_eq {branches : List (List Node)} {b : Branch}
    (h : Fits tree (branchesNodes branches) later σ) (htree : tree.Admissible)
    (hb : b ∈ branches) : takingNodes b = b := by
  refine List.filter_eq_self.2 fun n hn => ?_
  rw [htree.noLookahead n (h.mem n (mem_branchesNodes_of_mem hb hn n.self_mem_nodes))]
  rfl

end Fits

/-! ## Simulation -/

/-- Whether, from states that agree, the matcher can go over just the texts that the generator
shows, to states that agree on the references after it. -/
structure Simulates (text : Array Char) (cap : Nat) (later : List Nat) (σ' : Naming)
    (env : Bindings) (s : MatchState) (shows : Shown → Prop) (leads : MatchState → Prop) :
    Prop where
  sound : ∀ r q, shows r → Reads text s.position q r.text →
    ∃ t, leads t ∧ t.position = q ∧ Agree text later σ' (r.groups ++ env) t
  complete : text.size ≤ cap → ∀ t, leads t →
    ∃ r, shows r ∧ Reads text s.position t.position r.text ∧
      Agree text later σ' (r.groups ++ env) t

section Simulation

variable {text : Array Char} {cap : Nat} {tree : Tree} {later : List Nat} {σ σ' : Naming}
  {env : Bindings} {s : MatchState}

/-- Nodes that take one of some texts and capture nothing. -/
theorem simulates_texts {shows : Shown → Prop} {leads : MatchState → Prop} {W : List Char → Prop}
    (h : Agree text later σ env s) (hshows : ∀ r, shows r ↔ ∃ w, W w ∧ r = ⟨w, []⟩)
    (hleads : ∀ t, leads t ↔
      ∃ w, W w ∧ Reads text s.position t.position w ∧ t.captures = s.captures) :
    Simulates text cap later σ env s shows leads where
  sound r q hr hreads := by
    obtain ⟨w, hw, rfl⟩ := (hshows r).1 hr
    refine ⟨⟨q, s.captures⟩, (hleads _).2 ⟨w, hw, hreads, rfl⟩, rfl, ?_⟩
    exact h.advance hreads.inside rfl
  complete _ t ht := by
    obtain ⟨w, hw, hreads, hcaptures⟩ := (hleads t).1 ht
    refine ⟨⟨w, []⟩, (hshows _).2 ⟨w, hw, rfl⟩, hreads, ?_⟩
    exact h.advance hreads.inside hcaptures

/-- **What keeps its references is no barrier:** whatever way has been taken through it, the states
after it agree on the references after it. -/
theorem Fits.agree {part : List Node} {names : List Nat} {groups : Bindings} {t : MatchState}
    (hfits : Fits tree part later σ) (hkeeps : tree.Keeps part)
    (hext : Naming.Extends (captureIndices part) names σ σ')
    (hfollows : Follows text (captureIndices part) s t) (hgroups : ∀ g ∈ groups, g.1 ∈ names)
    (h : Agree text (referenceIndices part ++ later) σ env s) :
    Agree text later σ' (groups ++ env) t := by
  refine h.frame (fun i hi => List.mem_append_right _ hi) (fun i hi hcaptured => ?_) hext hfollows
    hgroups
  exact absurd hcaptured (hfits.not_captured hkeeps i hi)

/-- Whether a node is simulated wherever it stands in a tree. -/
def Node.Simulated (text : Array Char) (cap : Nat) (tree : Tree) (n : Node) : Prop :=
  ∀ later σ p σ' env s, Fits tree n.nodes later σ → n.plan σ = .ok (p, σ') →
    Agree text (referenceIndices n.nodes ++ later) σ env s →
      Simulates text cap later σ' env s (p.Shows cap env) (Leads text n s)

/-! ### Repetitions -/

/-- **A repetition is simulated** if its body is, from any state that one round leads to. -/
theorem simulates_rounds {body : Node} {b : Plan} {min : Nat} {max : Option Nat}
    (hbody : body.Simulated text cap tree) (htree : tree.Admissible)
    (hself : .repetition min max body ∈ tree.nodes) (hfits : Fits tree body.nodes later σ)
    (hplan : body.plan σ = .ok (b, σ'))
    (h : Agree text (referenceIndices body.nodes ++ later) σ env s) :
    Simulates text cap later σ' env s ((Plan.times min max b).Shows cap env)
      (Repeated (Leads text body) min (max.getD (text.size + 1)) s) := by
  have hext := body.plansFreshly σ b σ' hplan
  have hkeeps := htree.bodies min max body hself
  -- every round begins in a state that agrees on what the body refers to
  let I : MatchState → Prop := Agree text (referenceIndices body.nodes ++ later) σ env
  let Q : Nat → Nat → Prop := fun p q => ∃ r, b.Shows cap env r ∧ Reads text p q r.text
  have forward : ∀ s t, Leads text body s t → s.position ≤ t.position :=
    fun s t hst => hst.follows.forward
  have again : ∀ s t, I s → Leads text body s t → I t := by
    intro s t hs hst
    have hframe : Agree text (referenceIndices body.nodes ++ later) σ ([] ++ env) t := by
      refine hs.frame (fun i hi => hi) (fun i _ hi => ?_) (Naming.Extends.refl σ) hst.follows
        (fun _ => List.not_mem_nil.elim)
      exact hfits.unnamed i hi
    exact hframe
  have finish : ∀ k t (r : Shown), Rounds (Leads text body) min 0 k s t →
      (Plan.times min max b).Shows cap env r → Agree text later σ' (r.groups ++ env) t := by
    intro k t r hrounds hr
    exact hfits.agree hkeeps hext (Follows.rounds (fun s t => Leads.follows) hrounds) hr.names h
  constructor
  · -- the repeats are as many rounds, and rounds that stay where they are can be left out
    intro r q hr hreads
    obtain ⟨rs, hrs, hle, hlimit, rfl⟩ := Plan.shows_times.1 hr
    have htimes : Times Q rs.length s.position q :=
      (times_reads_iff h.inside).2 ⟨rs, rfl, hrs, hreads⟩
    have lead : ∀ s q, I s → Q s.position q → ∃ t, Leads text body s t ∧ I t ∧ t.position = q := by
      rintro s q hs ⟨r, hr, hq⟩
      obtain ⟨t, ht, hposition, -⟩ := (hbody later σ b σ' env s hfits hplan hs).sound r q hr hq
      exact ⟨t, ht, again s t hs ht, hposition⟩
    have hle : min ≤ 0 + rs.length := by omega
    obtain ⟨k, t, hk, hmin', hbound, -, hrounds, -, rfl⟩ := exists_rounds forward lead h htimes hle
    refine ⟨t, ⟨k, by omega, ?_, hrounds⟩, rfl, finish k t _ hrounds hr⟩
    cases max with
    | none =>
      have hone := htree.unbounded min body hself
      have hinside := hreads.inside
      simp only [Option.getD_none]
      omega
    | some m => exact Nat.le_trans hk hlimit
  · -- the rounds are as many repeats, no more than the cap allows
    rintro hcap t ⟨k, hk, hmost, hrounds⟩
    have reach : ∀ s t, I s → Leads text body s t → Q s.position t.position ∧ I t := by
      intro s t hs hst
      obtain ⟨r, hr, hq, -⟩ := (hbody later σ b σ' env s hfits hplan hs).complete hcap t hst
      exact ⟨⟨r, hr, hq⟩, again s t hs hst⟩
    obtain ⟨htimes, hI⟩ := times_of_rounds reach h hrounds
    obtain ⟨rs, hlength, hrs, hreads⟩ := (times_reads_iff h.inside).1 htimes
    have hlimit : rs.length ≤ Plan.limit cap min max := by
      cases max with
      | none =>
        have hbound := (length_rounds_le forward hrounds).2
        have hinside : t.position ≤ text.size := hI.inside
        show rs.length ≤ min + cap
        omega
      | some m =>
        rw [hlength]
        exact hmost
    have hr : (Plan.times min max b).Shows cap env (Plan.ofRepeats rs) :=
      Plan.shows_times.2 ⟨rs, hrs, by omega, hlimit, rfl⟩
    exact ⟨_, hr, hreads, finish k t _ hrounds hr⟩

/-! ### Branches -/

/-- Nodes one after the other. -/
theorem simulates_branch {branch : List Node} {ps : List Plan}
    (hnodes : ∀ n ∈ branch, n.Simulated text cap tree) (htree : tree.Admissible)
    (hfits : Fits tree (branchNodes branch) later σ) (hplan : planBranch branch σ = .ok (ps, σ'))
    (h : Agree text (referenceIndices (branchNodes branch) ++ later) σ env s) :
    Simulates text cap later σ' env s (Plan.PartsShow cap env ps) (BranchLeads text branch s) := by
  induction branch generalizing σ ps env s with
  | nil =>
    obtain ⟨rfl, rfl⟩ := planBranch_nil_iff.1 hplan
    refine simulates_texts (W := (· = [])) h (fun r => ?_) (fun t => ?_)
    · simp [Plan.PartsShow]
    · simp only [BranchLeads, exists_eq_left, reads_nil_iff h.inside]
      constructor
      · rintro rfl
        exact ⟨rfl, rfl⟩
      · rintro ⟨hposition, hcaptures⟩
        obtain ⟨position, captures⟩ := t
        obtain rfl : position = s.position := hposition
        obtain rfl : captures = s.captures := hcaptures
        rfl
  | cons n ns ih =>
    obtain ⟨hn, hns⟩ := List.forall_mem_cons.1 hnodes
    have hmem : n ∈ tree.nodes := hfits.mem n (List.mem_append_left _ n.self_mem_nodes)
    obtain ⟨p, σ₁, rest, hp, hrest, rfl⟩ :=
      (planBranch_cons_iff (htree.noLookahead n hmem)).1 hplan
    have hfirst := hfits.first
    have hsecond := hfits.second (n.plansFreshly σ p σ₁ hp)
    have h' : Agree text
        (referenceIndices n.nodes ++ (referenceIndices (branchNodes ns) ++ later)) σ env s := by
      simpa [branchNodes] using h
    have hsim := hn _ σ p σ₁ env s hfirst hp h'
    constructor
    · rintro r q ⟨a, b, ha, hb, rfl⟩ hreads
      obtain ⟨k, hka, hkb⟩ := reads_append_iff.1 hreads
      obtain ⟨u, hu, rfl, hagree⟩ := hsim.sound a k ha hka
      obtain ⟨t, ht, hq, hagree⟩ := (ih hns hsecond hrest hagree).sound b q hb hkb
      refine ⟨t, ⟨u, hu, ht⟩, hq, ?_⟩
      rwa [List.append_assoc]
    · rintro hcap t ⟨u, hu, ht⟩
      obtain ⟨a, ha, hka, hagree⟩ := hsim.complete hcap u hu
      obtain ⟨b, hb, hkb, hagree⟩ := (ih hns hsecond hrest hagree).complete hcap t ht
      refine ⟨_, ⟨a, b, ha, hb, rfl⟩, reads_append hka hkb, ?_⟩
      rwa [List.append_assoc]

/-! ### Alternations -/

/-- A branch that is passed over changes nothing for the branches after it. -/
theorem agree_leftover {branch : Branch} {ps : List Plan}
    (hfits : Fits tree (branchNodes branch) later σ)
    (hkeeps : tree.Keeps (branchNodes branch)) (hplan : planBranch branch σ = .ok (ps, σ'))
    (h : Agree text (referenceIndices (branchNodes branch) ++ later) σ env s) :
    Agree text later σ' ((Plan.concat ps).leftover cap env ++ env) s :=
  hfits.agree hkeeps (planBranch_extends hplan) (Follows.refl s) Plan.leftover_names h

theorem exists_anyLeads_of_anyShows {branches : List (List Node)} {seen : List Branch}
    {ps : List Plan} {r : Shown} {q : Nat}
    (hnodes : ∀ b ∈ branches, ∀ n ∈ b, n.Simulated text cap tree) (htree : tree.Admissible)
    (hkeeps : ∀ b ∈ branches, tree.Keeps (branchNodes b))
    (hfits : Fits tree (branchesNodes branches) later σ)
    (hplan : planBranches seen branches σ = .ok (ps, σ'))
    (h : Agree text (referenceIndices (branchesNodes branches) ++ later) σ env s)
    (hr : Plan.AnyShows cap env ps r) (hreads : Reads text s.position q r.text) :
    ∃ t, AnyLeads text branches s t ∧ t.position = q := by
  induction branches generalizing σ seen ps env with
  | nil =>
    obtain ⟨rfl, -⟩ := planBranches_nil_iff.1 hplan
    exact hr.elim
  | cons b bs ih =>
    obtain ⟨hb, hbs⟩ := List.forall_mem_cons.1 hnodes
    obtain ⟨hkeep, hkeeps⟩ := List.forall_mem_cons.1 hkeeps
    have h' : Agree text
        (referenceIndices (branchNodes b) ++ (referenceIndices (branchesNodes bs) ++ later)) σ env
        s := by
      simpa [branchesNodes] using h
    by_cases hseen : takingNodes b ∈ seen
    · -- without a plan the branch gives no names
      rw [planBranches_skip hseen] at hplan
      have hsecond := hfits.second (Naming.Extends.refl σ)
      obtain ⟨t, ht, hq⟩ := ih hbs hkeeps hsecond hplan
        (h'.mono fun i hi => List.mem_append_right _ hi) hr
      exact ⟨t, .inr ht, hq⟩
    · obtain ⟨parts, σ₁, rest, hparts, hrest, rfl⟩ := (planBranches_cons_iff hseen).1 hplan
      rcases hr with hr | hr
      · obtain ⟨t, ht, hq, -⟩ := (simulates_branch hb htree hfits.first hparts h').sound r q
          (Plan.shows_concat.1 hr) hreads
        exact ⟨t, .inl ht, hq⟩
      · have hsecond := hfits.second (planBranch_extends hparts)
        obtain ⟨t, ht, hq⟩ := ih hbs hkeeps hsecond hrest
          (agree_leftover hfits.first hkeep hparts h') hr
        exact ⟨t, .inr ht, hq⟩

/-- The way of a branch is shown, by the branch itself or by one like it before. -/
theorem exists_anyShows_of_branchLeads {branches : List (List Node)} {seen : List Branch}
    {ps : List Plan} {b : Branch} {t : MatchState}
    (hnodes : ∀ b ∈ branches, ∀ n ∈ b, n.Simulated text cap tree) (htree : tree.Admissible)
    (hkeeps : ∀ b ∈ branches, tree.Keeps (branchNodes b))
    (hfits : Fits tree (branchesNodes branches) later σ)
    (hplan : planBranches seen branches σ = .ok (ps, σ'))
    (h : Agree text (referenceIndices (branchesNodes branches) ++ later) σ env s)
    (hcap : text.size ≤ cap) (hmem : b ∈ branches) (hseen : takingNodes b ∉ seen)
    (ht : BranchLeads text b s t) :
    ∃ r, Plan.AnyShows cap env ps r ∧ Reads text s.position t.position r.text := by
  induction branches generalizing σ seen ps env with
  | nil => cases hmem
  | cons c cs ih =>
    obtain ⟨hc, hcs⟩ := List.forall_mem_cons.1 hnodes
    obtain ⟨hkeep, hkeeps⟩ := List.forall_mem_cons.1 hkeeps
    have h' : Agree text
        (referenceIndices (branchNodes c) ++ (referenceIndices (branchesNodes cs) ++ later)) σ env
        s := by
      simpa [branchesNodes] using h
    by_cases hskip : takingNodes c ∈ seen
    · rw [planBranches_skip hskip] at hplan
      have hsecond := hfits.second (Naming.Extends.refl σ)
      refine ih hcs hkeeps hsecond hplan (h'.mono fun i hi => List.mem_append_right _ hi) ?_ hseen
      rcases List.mem_cons.1 hmem with rfl | hmem
      · exact absurd hskip hseen
      · exact hmem
    · obtain ⟨parts, σ₁, rest, hparts, hrest, rfl⟩ := (planBranches_cons_iff hskip).1 hplan
      by_cases hsame : takingNodes b = takingNodes c
      · -- the two branches are the same, since no lookahead has been left out of either
        rw [hfits.takingNodes_eq htree hmem, hfits.takingNodes_eq htree List.mem_cons_self] at hsame
        subst hsame
        obtain ⟨r, hr, hreads, -⟩ :=
          (simulates_branch hc htree hfits.first hparts h').complete hcap t ht
        exact ⟨r, .inl (Plan.shows_concat.2 hr), hreads⟩
      · have hsecond := hfits.second (planBranch_extends hparts)
        have hmem' : b ∈ cs := by
          rcases List.mem_cons.1 hmem with rfl | hmem
          · exact absurd rfl hsame
          · exact hmem
        obtain ⟨r, hr, hreads⟩ := ih hcs hkeeps hsecond hrest
          (agree_leftover hfits.first hkeep hparts h') hmem'
          (fun hin => (List.mem_cons.1 hin).elim hsame hseen)
        exact ⟨r, .inr hr, hreads⟩

theorem keeps_of_not_lone {branches : List (List Node)}
    (hkeeps : 1 < branches.length → ∀ b ∈ branches, tree.Keeps (branchNodes b))
    (hlone : ¬∃ b, branches = [b]) : ∀ b ∈ branches, tree.Keeps (branchNodes b) := by
  intro b hb
  refine hkeeps ?_ b hb
  rcases branches with - | ⟨c, - | ⟨d, cs⟩⟩
  · cases hb
  · exact absurd ⟨c, rfl⟩ hlone
  · simp

/-- **An alternation is simulated** if the nodes in it are. -/
theorem simulates_branches {branches : List (List Node)} {ps : List Plan}
    (hnodes : ∀ b ∈ branches, ∀ n ∈ b, n.Simulated text cap tree) (htree : tree.Admissible)
    (hkeeps : 1 < branches.length → ∀ b ∈ branches, tree.Keeps (branchNodes b))
    (hfits : Fits tree (branchesNodes branches) later σ)
    (hplan : planBranches [] branches σ = .ok (ps, σ'))
    (h : Agree text (referenceIndices (branchesNodes branches) ++ later) σ env s) :
    Simulates text cap later σ' env s ((Plan.ofBranches ps).Shows cap env)
      (AnyLeads text branches s) := by
  by_cases hlone : ∃ b, branches = [b]
  · -- a lone branch is no barrier
    obtain ⟨b, rfl⟩ := hlone
    obtain ⟨parts, σ₁, rest, hparts, hrest, rfl⟩ :=
      (planBranches_cons_iff List.not_mem_nil).1 hplan
    obtain ⟨rfl, rfl⟩ := planBranches_nil_iff.1 hrest
    simp only [branchesNodes, List.append_nil] at hfits h
    have hb := simulates_branch (hnodes b List.mem_cons_self) htree hfits hparts h
    constructor
    · intro r q hr hreads
      obtain ⟨t, ht, hq⟩ := hb.sound r q (Plan.shows_concat.1 hr) hreads
      exact ⟨t, .inl ht, hq⟩
    · rintro hcap t (ht | ht)
      · obtain ⟨r, hr, hreads⟩ := hb.complete hcap t ht
        exact ⟨r, Plan.shows_concat.2 hr, hreads⟩
      · exact ht.elim
  · have hkeeps := keeps_of_not_lone hkeeps hlone
    have hext := planBranches_extends hplan
    have finish : ∀ (r : Shown) t, (Plan.ofBranches ps).Shows cap env r →
        AnyLeads text branches s t → Agree text later σ' (r.groups ++ env) t := by
      intro r t hr ht
      have hnames := hr.names
      rw [names_ofBranches] at hnames
      exact hfits.agree (hfits.keeps_branches hkeeps) hext ht.follows hnames h
    constructor
    · intro r q hr hreads
      obtain ⟨t, ht, hq⟩ := exists_anyLeads_of_anyShows hnodes htree hkeeps hfits hplan h
        (Plan.anyShows_of_shows_ofBranches hr) hreads
      exact ⟨t, ht, hq, finish r t hr ht⟩
    · intro hcap t ht
      obtain ⟨b, hb, hbt⟩ := anyLeads_iff.1 ht
      obtain ⟨r, hr, hreads⟩ := exists_anyShows_of_branchLeads hnodes htree hkeeps hfits hplan h
        hcap hb List.not_mem_nil hbt
      obtain ⟨r', hr', hsame⟩ := Plan.exists_shows_ofBranches hr
      rw [← hsame] at hreads
      exact ⟨r', hr', hreads, finish r' t hr' ht⟩

/-- **A group is simulated** if what stands in it is: a capturing one is completed on both
sides. -/
theorem simulates_group {kind : GroupKind} {branches : List (List Node)} {p : Plan}
    (hnodes : ∀ b ∈ branches, ∀ n ∈ b, n.Simulated text cap tree) (htree : tree.Admissible)
    (hfits : Fits tree (Node.group kind branches).nodes later σ)
    (hplan : (Node.group kind branches).plan σ = .ok (p, σ'))
    (h : Agree text (referenceIndices (Node.group kind branches).nodes ++ later) σ env s) :
    Simulates text cap later σ' env s (p.Shows cap env) (Leads text (.group kind branches) s) := by
  have hself := hfits.mem _ (Node.self_mem_nodes _)
  obtain ⟨ps, σ₁, hps, hclose⟩ := plan_group_iff.1 hplan
  have hbranches := simulates_branches hnodes htree
    (htree.alternatives branches (.inr ⟨kind, hself⟩)) (hfits.within (List.sublist_cons_self _ _))
    hps h
  cases kind with
  | capture index =>
    have hext := planBranches_extends hps
    have hindex : index ≤ σ₁.limit := by
      rw [hext.limit, hfits.limit]
      exact (htree.inRange index (List.mem_filterMap.2 ⟨_, hself, rfl⟩)).2
    have hrecord := hclose
    rw [GroupKind.close, Naming.record, if_pos hindex] at hrecord
    obtain ⟨rfl, -⟩ := Prod.mk.inj hrecord
    obtain ⟨-, rfl⟩ := Prod.mk.inj hclose
    constructor
    · intro r q hr hreads
      obtain ⟨b, hb, rfl⟩ := Plan.shows_named.1 hr
      obtain ⟨u, hu, rfl, hagree⟩ := hbranches.sound b q hb hreads
      refine ⟨s.capture index u, ?_, rfl, hagree.record hreads hindex⟩
      rw [Leads]
      exact ⟨u, hu, rfl⟩
    · intro hcap t ht
      rw [Leads] at ht
      obtain ⟨u, hu, rfl⟩ := ht
      obtain ⟨b, hb, hreads, hagree⟩ := hbranches.complete hcap u hu
      exact ⟨_, Plan.shows_named.2 ⟨b, hb, rfl⟩, hreads, hagree.record hreads hindex⟩
  | plain =>
    obtain ⟨rfl, rfl⟩ := Prod.mk.inj hclose
    simpa only [Leads] using hbranches
  | lookahead negative => cases htree.noLookahead _ hself

/-! ### All nodes -/

/-- **All nodes of an admissible tree are simulated.** -/
theorem Node.simulated (text : Array Char) (cap : Nat) (htree : tree.Admissible) (n : Node) :
    n.Simulated text cap tree := by
  induction n with
  | char c =>
    intro later σ p σ' env s hfits hplan h
    obtain ⟨rfl, rfl⟩ := plan_char_iff.1 hplan
    refine simulates_texts h (fun r => Plan.shows_texts) (fun t => ?_)
    rw [Leads, mem_consume_iff]
    simp
  | charClass k =>
    intro later σ p σ' env s hfits hplan h
    obtain ⟨rfl, rfl⟩ := plan_charClass_iff.1 hplan
    refine simulates_texts h (fun r => Plan.shows_texts) (fun t => ?_)
    rw [Leads, mem_consume_iff]
    simp only [List.mem_map, ← Charset.mem_def, CharClass.mem_resolve]
    constructor
    · rintro ⟨c, hc, ht⟩
      exact ⟨[c], ⟨c, hc, rfl⟩, ht⟩
    · rintro ⟨_, ⟨c, hc, rfl⟩, ht⟩
      exact ⟨c, hc, ht⟩
  | anchor a =>
    intro later σ p σ' env s hfits hplan h
    exact absurd (hfits.mem _ (Node.self_mem_nodes _)) (htree.noAnchor a)
  | backreference index =>
    intro later σ p σ' env s hfits hplan h
    obtain ⟨name, hname, rfl, rfl⟩ := plan_backreference_iff.1 hplan
    obtain ⟨span, hspan, hreads⟩ := h.reads index List.mem_cons_self name hname
    refine simulates_texts (W := (· = env.text name)) (h.mono fun i hi => ?_) (fun r => ?_)
      (fun t => ?_)
    · exact List.mem_append_right _ hi
    · rw [Plan.shows_echo]
      simp
    · rw [Leads, mem_repeatCaptured_iff hspan hreads]
      simp
  | group kind branches ih =>
    intro later σ p σ' env s hfits hplan h
    exact simulates_group ih htree hfits hplan h
  | marked min max body ih =>
    intro later σ p σ' env s hfits hplan h
    obtain ⟨b, hb, rfl⟩ := plan_marked_iff.1 hplan
    have hself := hfits.mem _ (List.mem_cons_of_mem _ (Node.self_mem_nodes _))
    have hbody := hfits.within ((List.sublist_cons_self _ _).trans (List.sublist_cons_self _ _))
    rw [leads_marked]
    exact simulates_rounds ih htree hself hbody hb h
  | repetition min max body hm ih =>
    intro later σ p σ' env s hfits hplan h
    obtain ⟨b, hb, rfl⟩ := (plan_repetition_iff hm).1 hplan
    have hself := hfits.mem _ (Node.self_mem_nodes _)
    have hbody := hfits.within (List.sublist_cons_self _ _)
    rw [leads_repetition hm]
    exact simulates_rounds ih htree hself hbody hb h

end Simulation

end SequenceConstraint
