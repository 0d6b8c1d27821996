import SequenceConstraint.Proofs.Agreement.Recall

/-!
# References after repetitions

A reference may follow a repetition that its group stands in. The generator then takes the group
from the last round, the matcher from the last round that has captured it; they differ where a later
round can leave the group out. In trees whose groups cannot be left out that way (`Tree.Settled`)
the matcher goes over every text that the generator shows.

## Main statements

* `traces_rounds` — repetitions
* `traces_branches` — alternations
* `Node.traced` — all nodes of a settled tree
* `Tree.Settled.matches?_ne_false` — the generator shows no text that is rejected
* `not_forall_apart` — it may show one where a round leaves out what an earlier one captured
-/

namespace SequenceConstraint

open Matching

/-! ## Settled trees -/

mutual

/-- The parts of a node that can be left out although the node takes part: what repeats, if it need
not, and the branches of an alternation. -/
def Node.optionalParts : Node → List (List Node)
  | .group _ branches =>
    (if 1 < branches.length then [branchesNodes branches] else []) ++
      branchesOptionalParts branches
  | .repetition 0 (some 1) (.repetition min _ body) =>
    (if min = 0 then [body.nodes] else []) ++ body.optionalParts
  | .repetition min _ body => (if min = 0 then [body.nodes] else []) ++ body.optionalParts
  | _ => []

def branchOptionalParts : List Node → List (List Node)
  | [] => []
  | n :: ns => n.optionalParts ++ branchOptionalParts ns

def branchesOptionalParts : List (List Node) → List (List Node)
  | [] => []
  | b :: bs => branchOptionalParts b ++ branchesOptionalParts bs

end

/-- Trees without conditions on positions and without bounds that are missing, whose groups are
distinct and not referred to from within an alternation that they stand in. -/
structure Tree.Apart (tree : Tree) : Prop where
  noLookahead : ∀ n ∈ tree.nodes, n.isLookahead = false
  noAnchor : ∀ a, .anchor a ∉ tree.nodes
  bounded : ∀ min body, .repetition min none body ∉ tree.nodes
  distinct : (captureIndices tree.nodes).Nodup
  alternatives : ∀ branches,
    (branches = tree.branches ∨ ∃ kind, .group kind branches ∈ tree.nodes) →
      1 < branches.length → ∀ index ∈ captureIndices (branchesNodes branches),
        index ∉ referenceIndices (branchesNodes branches)

/-- Trees in which no round of a repetition leaves out a group that an earlier one may have captured
and that is referred to afterwards. -/
structure Tree.Settled (tree : Tree) : Prop extends tree.Apart where
  optional : ∀ min max body, .repetition min (some max) body ∈ tree.nodes → 1 < max →
    ∀ part ∈ body.optionalParts, tree.Keeps part
  emptyRounds : ∀ min max body, .repetition min (some max) body ∈ tree.nodes → 1 < max →
    min < max → body.mayBeEmpty = true → tree.Keeps body.nodes

/-- Whether a part of a tree is entered for the only time, with nothing in it captured, or leaves
out nothing that is referred to from outside. -/
def Tree.Ready (tree : Tree) (nodes : List Node) (parts : List (List Node)) (s : MatchState) :
    Prop :=
  (∀ i ∈ captureIndices nodes, s.captured? i = none) ∨ ∀ part ∈ parts, tree.Keeps part

namespace Tree.Ready

variable {text : Array Char} {tree : Tree} {nodes rest : List Node}
  {parts parts' : List (List Node)} {s t : MatchState}

theorem within (h : tree.Ready nodes parts s) (hnodes : ∀ n ∈ rest, n ∈ nodes)
    (hparts : ∀ part ∈ parts', part ∈ parts) : tree.Ready rest parts' s :=
  h.imp (fun hunset i hi => hunset i (captureIndices_subset hnodes i hi))
    fun hkeeps part hp => hkeeps part (hparts part hp)

/-- What comes before a part captures nothing in it. -/
theorem after {indices : List Nat} (h : tree.Ready nodes parts s)
    (hfollows : Follows text indices s t) (hdisjoint : ∀ i ∈ captureIndices nodes, i ∉ indices) :
    tree.Ready nodes parts t :=
  h.imp_left fun hunset i hi => (hfollows.kept i (hdisjoint i hi)).trans (hunset i hi)

/-- What can be left out has not been captured, or is not referred to afterwards. -/
theorem unset {later : List Nat} {σ : Naming} {part : List Node} (h : tree.Ready nodes parts s)
    (hpart : part ∈ parts) (hnodes : ∀ n ∈ part, n ∈ nodes) (hfits : Fits tree part later σ) :
    ∀ i ∈ later, i ∈ captureIndices part → s.captured? i = none := by
  intro i hi hcaptured
  rcases h with hunset | hkeeps
  · exact hunset i (captureIndices_subset hnodes i hcaptured)
  · exact absurd hcaptured (hfits.not_captured (hkeeps part hpart) i hi)

end Tree.Ready

/-- References that come after a part can be left aside. -/
theorem Fits.restrict {tree : Tree} {part : List Node} {later later' : List Nat} {σ : Naming}
    (h : Fits tree part later σ) (hsub : later'.Sublist later) : Fits tree part later' σ where
  mem := h.mem
  count index := by
    have := h.count index
    have := hsub.count_le index
    omega
  distinct := h.distinct
  unnamed := h.unnamed
  limit := h.limit

/-! ## Tracing -/

/-- Whether the matcher can go over a text that the generator shows, to a state that recalls the
same groups. -/
def Traces (text : Array Char) (later : List Nat) (σ' : Naming) (env : Bindings) (r : Shown)
    (q : Nat) (leads : MatchState → Prop) : Prop :=
  ∃ t, leads t ∧ t.position = q ∧ Recalls text later σ' (r.groups ++ env) t

/-- Whether every text that a node can show is traced, wherever the node stands in a tree. -/
def Node.Traced (text : Array Char) (cap : Nat) (tree : Tree) (n : Node) : Prop :=
  ∀ later σ p σ' env s r q, Fits tree n.nodes later σ → n.plan σ = .ok (p, σ') →
    Recalls text (referenceIndices n.nodes ++ later) σ env s →
      tree.Ready n.nodes n.optionalParts s → p.Shows cap env r → Reads text s.position q r.text →
        Traces text later σ' env r q (Leads text n s)

section Tracing

variable {text : Array Char} {cap : Nat} {tree : Tree} {later : List Nat} {σ σ' : Naming}
  {env : Bindings} {s : MatchState} {r : Shown} {q : Nat}

/-! ### Repetitions -/

/-- A round begins as the one before it has begun: what stands in the body has no names yet. -/
theorem Recalls.again {body : Node} {t : MatchState} (hfits : Fits tree body.nodes later σ)
    (h : Recalls text (referenceIndices body.nodes ++ later) σ env s)
    (ht : Leads text body s t) :
    Recalls text (referenceIndices body.nodes ++ later) σ env t := by
  have hframe : Recalls text (referenceIndices body.nodes ++ later) σ ([] ++ env) t := by
    refine h.frame (fun i hi => hi) (fun i _ hi => ?_) (Naming.Extends.refl σ) ht.follows
      (fun _ => List.not_mem_nil.elim)
    exact hfits.unnamed i hi
  exact hframe

/-- **Rounds that are all made.** They move on, or there are not too many of them. -/
theorem traces_all_rounds {body : Node} {b : Plan} {min count : Nat} {rs : List Shown}
    (hbody : body.Traced text cap tree)
    (hready : ∀ s, tree.Ready body.nodes body.optionalParts s)
    (hfits : Fits tree body.nodes later σ) (hplan : body.plan σ = .ok (b, σ'))
    (h : Recalls text (referenceIndices body.nodes ++ later) σ env s) (hne : rs ≠ [])
    (hrs : ∀ a ∈ rs, b.Shows cap env a)
    (hmove : count + rs.length ≤ min ∨ ∀ a ∈ rs, a.text ≠ [])
    (hreads : Reads text s.position q (rs.flatMap Shown.text)) :
    Traces text later σ' env (Plan.ofRepeats rs) q
      (Rounds (Leads text body) min count rs.length s) := by
  induction rs generalizing count s with
  | nil => exact absurd rfl hne
  | cons a rs ih =>
    obtain ⟨ha, hrest⟩ := List.forall_mem_cons.1 hrs
    obtain ⟨k, hka, hkb⟩ := reads_append_iff.1 hreads
    obtain ⟨u, hu, rfl, hrecalls⟩ := hbody later σ b σ' env s a k hfits hplan h (hready s) ha hka
    have hmoves : u.position ≠ s.position ∨ count < min := by
      rcases hmove with hmove | hmove
      · simp only [List.length_cons] at hmove
        exact .inr (by omega)
      · refine .inl fun heq => hmove a List.mem_cons_self ?_
        rw [heq] at hka
        have hlength := hka.length
        rwa [Nat.sub_self, List.length_eq_zero_iff] at hlength
    cases rs with
    | nil =>
      obtain rfl := (reads_nil_iff hrecalls.inside).1 hkb
      exact ⟨u, ⟨u, hu, hmoves, rfl⟩, rfl, hrecalls⟩
    | cons a' rs =>
      have hmove' : count + 1 + (a' :: rs).length ≤ min ∨ ∀ a ∈ a' :: rs, a.text ≠ [] := by
        refine hmove.imp (fun hle => ?_) fun hall => (List.forall_mem_cons.1 hall).2
        simp only [List.length_cons] at hle ⊢
        omega
      obtain ⟨t, ht, hq, hrecalls'⟩ :=
        ih (h.again hfits hu) (List.cons_ne_nil a' rs) hrest hmove' hkb
      exact ⟨t, ⟨u, hu, hmoves, ht⟩, hq, hrecalls'⟩

/-- Rounds of a body that nothing outside refers to: those that stay where they are can be left
out. -/
theorem traces_kept_rounds {body : Node} {b : Plan} {min : Nat} {rs : List Shown}
    (hbody : body.Traced text cap tree) (hkeeps : tree.Keeps body.nodes)
    (hready : ∀ s, tree.Ready body.nodes body.optionalParts s)
    (hfits : Fits tree body.nodes later σ) (hplan : body.plan σ = .ok (b, σ'))
    (h : Recalls text (referenceIndices body.nodes ++ later) σ env s)
    (hrs : ∀ a ∈ rs, b.Shows cap env a) (hmin : min ≤ rs.length)
    (hgroups : ∀ g ∈ r.groups, g.1 ∈ b.names)
    (hreads : Reads text s.position q (rs.flatMap Shown.text)) :
    Traces text later σ' env r q (Repeated (Leads text body) min rs.length s) := by
  let I : MatchState → Prop := Recalls text (referenceIndices body.nodes ++ later) σ env
  have lead : ∀ s q, I s → (∃ a, b.Shows cap env a ∧ Reads text s.position q a.text) →
      ∃ t, Leads text body s t ∧ I t ∧ t.position = q := by
    rintro s q hs ⟨a, ha, hq⟩
    obtain ⟨t, ht, hposition, -⟩ := hbody later σ b σ' env s a q hfits hplan hs (hready s) ha hq
    exact ⟨t, ht, hs.again hfits ht, hposition⟩
  have hmin : min ≤ 0 + rs.length := by omega
  obtain ⟨k, t, hk, hmin', -, -, hrounds, -, hq⟩ :=
    exists_rounds (fun s t hst => hst.follows.forward) lead h
      ((times_reads_iff h.inside).2 ⟨rs, rfl, hrs, hreads⟩) hmin
  refine ⟨t, ⟨k, by omega, hk, hrounds⟩, hq, ?_⟩
  refine h.frame (fun i hi => List.mem_append_right _ hi) (fun i hi hcaptured => ?_)
    (body.plansFreshly σ b σ' hplan) (Follows.rounds (fun s t => Leads.follows) hrounds) hgroups
  exact absurd hcaptured (hfits.not_captured hkeeps i hi)

/-- **A repetition is traced** if its body is. -/
theorem traces_rounds {body : Node} {b : Plan} {min max : Nat} (htree : tree.Settled)
    (hbody : body.Traced text cap tree) (hself : .repetition min (some max) body ∈ tree.nodes)
    (hready : tree.Ready body.nodes
      ((if min = 0 then [body.nodes] else []) ++ body.optionalParts) s)
    (hfits : Fits tree body.nodes later σ) (hplan : body.plan σ = .ok (b, σ'))
    (h : Recalls text (referenceIndices body.nodes ++ later) σ env s)
    (hr : (Plan.times min (some max) b).Shows cap env r) (hreads : Reads text s.position q r.text) :
    Traces text later σ' env r q (Repeated (Leads text body) min max s) := by
  obtain ⟨rs, hrs, hmin, hmax, rfl⟩ := Plan.shows_times.1 hr
  have hmax : rs.length ≤ max := hmax
  have hext := body.plansFreshly σ b σ' hplan
  have hlater : ∀ i ∈ later, i ∈ referenceIndices body.nodes ++ later := fun i hi =>
    List.mem_append_right _ hi
  have hunset : min = 0 → ∀ i ∈ later, i ∈ captureIndices body.nodes → s.captured? i = none := by
    rintro rfl
    exact hready.unset (by simp) (fun n hn => hn) hfits
  have hbegin : tree.Ready body.nodes body.optionalParts s :=
    hready.within (fun n hn => hn) fun part hp => List.mem_append_right _ hp
  rcases rs with - | ⟨a, - | ⟨a', rs⟩⟩
  · -- no round is made
    have hzero : min = 0 := Nat.le_zero.1 hmin
    obtain rfl := (reads_nil_iff h.inside).1 hreads
    refine ⟨s, ⟨0, Nat.le_of_eq hzero, Nat.zero_le _, rfl⟩, rfl, ?_⟩
    exact h.leftOut hlater hfits.unnamed (hunset hzero) hext fun g hg => absurd hg List.not_mem_nil
  · -- one round, which the matcher does not make if it need not and stays where it is
    have ha := hrs a List.mem_cons_self
    have hreads : Reads text s.position q a.text := by simpa [Plan.ofRepeats] using hreads
    by_cases hmove : a.text ≠ [] ∨ 0 < min
    · obtain ⟨t, ht, rfl, hrecalls⟩ := hbody later σ b σ' env s a q hfits hplan h hbegin ha hreads
      refine ⟨t, ⟨1, hmin, hmax, t, ht, ?_, rfl⟩, rfl, hrecalls⟩
      refine hmove.imp_left fun hne heq => hne ?_
      have hlength := hreads.length
      rwa [heq, Nat.sub_self, List.length_eq_zero_iff] at hlength
    · obtain ⟨htext, hzero⟩ := not_or.1 hmove
      have htext := not_not.1 htext
      have hzero : min = 0 := by omega
      rw [htext] at hreads
      obtain rfl := (reads_nil_iff h.inside).1 hreads
      refine ⟨s, ⟨0, Nat.le_of_eq hzero, Nat.zero_le _, rfl⟩, rfl, ?_⟩
      refine h.leftOut hlater hfits.unnamed (hunset hzero) hext fun g hg => ?_
      exact ⟨ha.names g hg, ha.groups_eq_nil htext g hg⟩
  · -- several rounds
    have hmany : 1 < max := by
      simp only [List.length_cons] at hmax
      omega
    have hall : ∀ s, tree.Ready body.nodes body.optionalParts s := fun s =>
      .inr (htree.optional min max body hself hmany)
    by_cases hkeeps : tree.Keeps body.nodes
    · obtain ⟨t, ⟨k, hk, hle, hrounds⟩, ht⟩ :=
        traces_kept_rounds hbody hkeeps hall hfits hplan h hrs hmin hr.names hreads
      exact ⟨t, ⟨k, hk, Nat.le_trans hle hmax, hrounds⟩, ht⟩
    · have hmove : 0 + (a :: a' :: rs).length ≤ min ∨ ∀ c ∈ a :: a' :: rs, c.text ≠ [] := by
        by_cases hle : (a :: a' :: rs).length ≤ min
        · exact .inl (by omega)
        · refine .inr fun c hc => ?_
          have hempty : body.mayBeEmpty = false := Bool.eq_false_iff.2 fun hempty =>
            hkeeps (htree.emptyRounds min max body hself hmany (by omega) hempty)
          exact Node.text_ne_nil hempty cap env σ b σ' c hplan (hrs c hc)
      obtain ⟨t, ht, hq⟩ := traces_all_rounds hbody hall hfits hplan h (List.cons_ne_nil _ _) hrs
        hmove hreads
      exact ⟨t, ⟨_, hmin, hmax, ht⟩, hq⟩

/-! ### Branches -/

/-- Nodes one after the other. -/
theorem traces_branch {branch : List Node} {ps : List Plan} (htree : tree.Apart)
    (hnodes : ∀ n ∈ branch, n.Traced text cap tree)
    (hready : tree.Ready (branchNodes branch) (branchOptionalParts branch) s)
    (hfits : Fits tree (branchNodes branch) later σ) (hplan : planBranch branch σ = .ok (ps, σ'))
    (h : Recalls text (referenceIndices (branchNodes branch) ++ later) σ env s)
    (hr : Plan.PartsShow cap env ps r) (hreads : Reads text s.position q r.text) :
    Traces text later σ' env r q (BranchLeads text branch s) := by
  induction branch generalizing σ ps env s r with
  | nil =>
    obtain ⟨rfl, rfl⟩ := planBranch_nil_iff.1 hplan
    obtain rfl : r = ⟨[], []⟩ := hr
    obtain rfl := (reads_nil_iff h.inside).1 hreads
    exact ⟨s, rfl, rfl, h⟩
  | cons n ns ih =>
    obtain ⟨hn, hns⟩ := List.forall_mem_cons.1 hnodes
    have hmem : n ∈ tree.nodes := hfits.mem n (List.mem_append_left _ n.self_mem_nodes)
    obtain ⟨p, σ₁, rest, hp, hrest, rfl⟩ :=
      (planBranch_cons_iff (htree.noLookahead n hmem)).1 hplan
    obtain ⟨a, b, ha, hb, rfl⟩ := hr
    obtain ⟨k, hka, hkb⟩ := reads_append_iff.1 hreads
    have hfirst := hfits.first
    have hsecond := hfits.second (n.plansFreshly σ p σ₁ hp)
    have h' : Recalls text
        (referenceIndices n.nodes ++ (referenceIndices (branchNodes ns) ++ later)) σ env s := by
      simpa [branchNodes] using h
    obtain ⟨u, hu, rfl, hrecalls⟩ := hn _ σ p σ₁ env s a k hfirst hp h'
      (hready.within (fun m hm => List.mem_append_left _ hm)
        fun part hpart => List.mem_append_left _ hpart) ha hka
    have hready' : tree.Ready (branchNodes ns) (branchOptionalParts ns) u := by
      refine (hready.within (fun m hm => List.mem_append_right _ hm)
        fun part hpart => List.mem_append_right _ hpart).after hu.follows fun i hi hmem => ?_
      have hdistinct := hfits.distinct
      rw [branchNodes, captureIndices_append, List.nodup_append] at hdistinct
      exact hdistinct.2.2 i hmem i hi rfl
    obtain ⟨t, ht, hq, hrecalls⟩ := ih hns hready' hsecond hrest hrecalls hb hkb
    refine ⟨t, ⟨u, hu, ht⟩, hq, ?_⟩
    rwa [List.append_assoc]

/-! ### Alternations -/

theorem branchOptionalParts_subset {branches : List (List Node)} {b : List Node}
    (hb : b ∈ branches) :
    ∀ part ∈ branchOptionalParts b, part ∈ branchesOptionalParts branches := by
  induction branches with
  | nil => cases hb
  | cons c cs ih =>
    intro part hpart
    rcases List.mem_cons.1 hb with rfl | hb
    · exact List.mem_append_left _ hpart
    · exact List.mem_append_right _ (ih hb part hpart)

/-- A group in another branch makes an alternation of several branches. -/
theorem one_lt_length_of_captured {before after : List (List Node)} {b : List Node} {i : Nat}
    (h : i ∈ captureIndices (branchesNodes before) ∨ i ∈ captureIndices (branchesNodes after)) :
    1 < (before ++ b :: after).length := by
  rw [List.length_append, List.length_cons]
  rcases h with h | h
  · cases before with
    | nil => cases h
    | cons => rw [List.length_cons]; omega
  · cases after with
    | nil => cases h
    | cons => rw [List.length_cons]; omega

/-- A branch of an alternation that is entered. -/
theorem Tree.Ready.branch {branches : List (List Node)} {b : List Node}
    (h : tree.Ready (branchesNodes branches)
      ((if 1 < branches.length then [branchesNodes branches] else []) ++
        branchesOptionalParts branches) s)
    (hb : b ∈ branches) : tree.Ready (branchNodes b) (branchOptionalParts b) s := by
  refine h.within (fun n hn => mem_branchesNodes.2 ⟨b, hb, hn⟩) fun part hpart => ?_
  exact List.mem_append_right _ (branchOptionalParts_subset hb part hpart)

/-- The other branches are left out, and nothing in them has been captured that is referred to
afterwards. -/
theorem Tree.Ready.other_branches {before after : List (List Node)} {b : List Node}
    (h : tree.Ready (branchesNodes (before ++ b :: after))
      ((if 1 < (before ++ b :: after).length then [branchesNodes (before ++ b :: after)] else []) ++
        branchesOptionalParts (before ++ b :: after)) s)
    (hfits : Fits tree (branchesNodes (before ++ b :: after)) later σ) :
    ∀ i ∈ later, i ∈ captureIndices (branchesNodes before) ∨
      i ∈ captureIndices (branchesNodes after) → s.captured? i = none := by
  intro i hi hcaptured
  refine h.unset ?_ (fun n hn => hn) hfits i hi ?_
  · rw [if_pos (one_lt_length_of_captured hcaptured)]
    exact List.mem_append_left _ List.mem_cons_self
  · simp only [branchesNodes_append, branchesNodes, captureIndices_append, List.mem_append]
    exact hcaptured.imp_right .inr

/-- What is recalled of a group that does not stand in the branch that is taken: the branches before
and after that branch are left out. -/
theorem Recalls.past_branch {indices₁ indices₂ indices₃ names₁ names₂ names₃ : List Nat}
    {σ₁ σ₂ : Naming} {groups : Bindings} {t : MatchState} {index : Nat}
    (h : Recalls text [index] σ env s) (hindex : index ∉ indices₂)
    (hext₁ : Naming.Extends indices₁ names₁ σ σ₁) (hext₂ : Naming.Extends indices₂ names₂ σ₁ σ₂)
    (hext₃ : Naming.Extends indices₃ names₃ σ₂ σ') (hunnamed₁ : ∀ i ∈ indices₁, σ.name? i = none)
    (hunnamed₃ : ∀ i ∈ indices₃, σ₂.name? i = none)
    (hunset : index ∈ indices₁ ∨ index ∈ indices₃ → s.captured? index = none)
    (hfollows : Follows text indices₂ s t) (hgroups : ∀ g ∈ groups, g.1 ∈ names₂) :
    Recalls text [index] σ' (groups ++ env) t := by
  have hnone : ∀ names : List Nat, ∀ g ∈ ([] : Bindings), g.1 ∈ names ∧ g.2 = [] :=
    fun _ _ hg => absurd hg List.not_mem_nil
  have hbefore : Recalls text [index] σ₁ ([] ++ env) s := by
    refine h.leftOut (fun i hi => hi) hunnamed₁ (fun i hi hmem => ?_) hext₁ (hnone _)
    obtain rfl := List.mem_singleton.1 hi
    exact hunset (.inl hmem)
  have htaken : Recalls text [index] σ₂ (groups ++ env) t := by
    refine hbefore.frame (fun i hi => hi) (fun i hi hmem => ?_) hext₂ hfollows hgroups
    obtain rfl := List.mem_singleton.1 hi
    exact absurd hmem hindex
  have hafter : Recalls text [index] σ' ([] ++ (groups ++ env)) t := by
    refine htaken.leftOut (fun i hi => hi) hunnamed₃ (fun i hi hmem => ?_) hext₃ (hnone _)
    obtain rfl := List.mem_singleton.1 hi
    exact (hfollows.kept i hindex).trans (hunset (.inr hmem))
  exact hafter

/-- What is recalled of the groups of the branch that is taken: what the branches before it are left
with has other names, and the branches after it have other groups. -/
theorem Recalls.own_branch {own indices names : List Nat} {σ₂ : Naming} {groups left : Bindings}
    {t : MatchState} (h : Recalls text own σ₂ (groups ++ (left ++ env)) t)
    (hleft : ∀ g ∈ left, ∀ i ∈ own, σ₂.name? i ≠ some g.1)
    (hext : Naming.Extends indices names σ₂ σ') (hout : ∀ i ∈ own, i ∉ indices) :
    Recalls text own σ' (groups ++ env) t where
  inside := h.inside
  places := by rw [h.places, hext.limit]
  valid := hext.valid h.valid
  bound g hg := by
    refine Nat.lt_of_lt_of_le (h.bound g ?_) hext.fresh
    exact (List.mem_append.1 hg).elim (List.mem_append_left _)
      fun hg => List.mem_append_right _ (List.mem_append_right _ hg)
  recalled i hi name hname := by
    rw [hext.kept i (hout i hi)] at hname
    have hrecalled := h.recalled i hi name hname
    rwa [Bindings.text_append_append] at hrecalled
    rintro g hg rfl
    exact hleft g hg i hi hname

/-- **An alternation is traced** if the nodes in it are: the branch that is shown is taken, those
before and after it are left out. -/
theorem traces_branches {branches : List (List Node)} {ps : List Plan} (htree : tree.Apart)
    (hnodes : ∀ b ∈ branches, ∀ n ∈ b, n.Traced text cap tree)
    (hapart : 1 < branches.length → ∀ index ∈ captureIndices (branchesNodes branches),
      index ∉ referenceIndices (branchesNodes branches))
    (hready : tree.Ready (branchesNodes branches)
      ((if 1 < branches.length then [branchesNodes branches] else []) ++
        branchesOptionalParts branches) s)
    (hfits : Fits tree (branchesNodes branches) later σ)
    (hplan : planBranches [] branches σ = .ok (ps, σ'))
    (h : Recalls text (referenceIndices (branchesNodes branches) ++ later) σ env s)
    (hr : (Plan.ofBranches ps).Shows cap env r) (hreads : Reads text s.position q r.text) :
    Traces text later σ' env r q (AnyLeads text branches s) := by
  obtain ⟨before, b, after, names, names', σ₁, σ₂, parts, left, rfl, hext₁, hleft, hparts, hshow,
    hext₃⟩ := exists_branch_of_anyShows hplan (Plan.anyShows_of_shows_ofBranches hr)
  have hb : b ∈ before ++ b :: after := List.mem_append_right before List.mem_cons_self
  have hext₂ := planBranch_extends hparts
  have hgroups : ∀ g ∈ r.groups, g.1 ∈ partsNames parts := (Plan.shows_concat.2 hshow).names
  have hunset := hready.other_branches hfits
  have hbegin := hready.branch hb
  have hother : ∀ i ∈ referenceIndices (branchNodes b),
      i ∉ captureIndices (branchesNodes before) := by
    intro i hi hcaptured
    refine hapart (one_lt_length_of_captured (.inl hcaptured)) i ?_ ?_
    · simp only [branchesNodes_append, captureIndices_append, List.mem_append]
      exact .inl hcaptured
    · simp only [branchesNodes_append, branchesNodes, referenceIndices_append, List.mem_append]
      exact .inr (.inl hi)
  rw [branchesNodes_append, branchesNodes] at hfits h
  have hdistinct := hfits.distinct
  simp only [captureIndices_append, List.nodup_append] at hdistinct
  have hfits₂ := hfits.second hext₁
  have hfits₃ := hfits₂.second hext₂
  -- the branch is traced with the references to its own groups
  let own := later.filter (· ∈ captureIndices (branchNodes b))
  have hcapturedOwn : ∀ i ∈ own, i ∈ captureIndices (branchNodes b) := fun i hi => by
    simpa using List.of_mem_filter hi
  have hfitsOwn : Fits tree (branchNodes b) own σ₁ :=
    (hfits₂.within (List.sublist_append_left _ _)).restrict List.filter_sublist
  have hleftOver : Recalls text (referenceIndices (branchNodes b) ++ own) σ₁ (left ++ env) s := by
    refine h.frame (fun i hi => ?_) (fun i hi hcaptured => ?_) hext₁ (Follows.refl s) hleft
    · simp only [referenceIndices_append, List.mem_append] at hi ⊢
      exact hi.imp (fun hi => .inr (.inl hi)) fun hi => List.mem_of_mem_filter hi
    · rcases List.mem_append.1 hi with hi | hi
      · exact absurd hcaptured (hother i hi)
      · refine absurd rfl (hdistinct.2.2 i hcaptured i ?_)
        exact List.mem_append_left _ (hcapturedOwn i hi)
  obtain ⟨t, ht, hq, htrace⟩ :=
    traces_branch htree (hnodes b hb) hbegin hfitsOwn hparts hleftOver hshow hreads
  have hown : Recalls text own σ' (r.groups ++ env) t := by
    refine htrace.own_branch (fun g hg i hi hname => ?_) hext₃ fun i hi hcaptured => ?_
    · have hold := (hext₁.names g.1 (hleft g hg)).2
      rcases hext₂.given i g.1 hname with hgiven | ⟨hnew, -⟩
      · rw [hfitsOwn.unnamed i (hcapturedOwn i hi)] at hgiven
        cases hgiven
      · omega
    · exact hdistinct.2.1.2.2 i (hcapturedOwn i hi) i hcaptured rfl
  have hnone : Recalls text [] σ' (r.groups ++ env) t := hown.mono fun _ => List.not_mem_nil.elim
  refine ⟨t, anyLeads_iff.2 ⟨b, hb, ht⟩, hq, .of_forall hnone fun i hi => ?_⟩
  by_cases hmem : i ∈ captureIndices (branchNodes b)
  · refine hown.mono fun j hj => ?_
    obtain rfl := List.mem_singleton.1 hj
    exact List.mem_filter.2 ⟨hi, by simpa using hmem⟩
  · have hlone : Recalls text [i] σ env s := h.mono (by simp [hi])
    exact hlone.past_branch hmem hext₁ hext₂ hext₃
      (fun j hj => hfits.unnamed j (by simp [hj])) hfits₃.unnamed (hunset i hi)
      (BranchLeads.follows (fun n _ s t => Leads.follows) (fun j hj => hj) ht) hgroups

/-- **A group is traced** if what stands in it is: a capturing one is completed on both sides, or
has no place on either. -/
theorem traces_group {kind : GroupKind} {branches : List (List Node)} {p : Plan}
    (htree : tree.Apart) (hnodes : ∀ b ∈ branches, ∀ n ∈ b, n.Traced text cap tree)
    (hready : tree.Ready (Node.group kind branches).nodes
      (Node.group kind branches).optionalParts s)
    (hfits : Fits tree (Node.group kind branches).nodes later σ)
    (hplan : (Node.group kind branches).plan σ = .ok (p, σ'))
    (h : Recalls text (referenceIndices (Node.group kind branches).nodes ++ later) σ env s)
    (hr : p.Shows cap env r) (hreads : Reads text s.position q r.text) :
    Traces text later σ' env r q (Leads text (.group kind branches) s) := by
  have hself := hfits.mem _ (Node.self_mem_nodes _)
  obtain ⟨ps, σ₁, hps, hclose⟩ := plan_group_iff.1 hplan
  have hbranches : ∀ b : Shown, (Plan.ofBranches ps).Shows cap env b →
      Reads text s.position q b.text → Traces text later σ₁ env b q (AnyLeads text branches s) := by
    intro b hb hreads
    refine traces_branches htree hnodes (htree.alternatives branches (.inr ⟨kind, hself⟩)) ?_
      (hfits.within (List.sublist_cons_self _ _)) hps h hb hreads
    refine hready.within (fun n hn => List.mem_cons_of_mem _ hn) fun part hpart => ?_
    rwa [Node.optionalParts]
  cases kind with
  | capture index =>
    have hclose : (p, σ') = σ₁.record index (Plan.ofBranches ps) := hclose
    by_cases hindex : index ≤ σ₁.limit
    · have hrecord : p = .named σ₁.fresh (Plan.ofBranches ps) := by
        rw [Naming.record, if_pos hindex] at hclose
        exact (Prod.mk.inj hclose).1
      subst hrecord
      obtain ⟨-, rfl⟩ := Prod.mk.inj hclose
      obtain ⟨b, hb, rfl⟩ := Plan.shows_named.1 hr
      obtain ⟨u, hu, rfl, hrecalls⟩ := hbranches b hb hreads
      refine ⟨s.capture index u, ?_, rfl, hrecalls.record hreads hindex⟩
      rw [Leads]
      exact ⟨u, hu, rfl⟩
    · -- an index without a place is ignored on both sides
      rw [Naming.record, if_neg hindex] at hclose
      obtain ⟨rfl, rfl⟩ := Prod.mk.inj hclose
      obtain ⟨u, hu, rfl, hrecalls⟩ := hbranches r hr hreads
      have hsame : s.capture index u = u := by
        have hplaces := hrecalls.places
        rw [MatchState.capture, List.set_eq_of_length_le (by omega)]
      refine ⟨u, ?_, rfl, hrecalls⟩
      rw [Leads]
      exact ⟨u, hu, hsame.symm⟩
  | plain =>
    obtain ⟨rfl, rfl⟩ := Prod.mk.inj hclose
    obtain ⟨t, ht, hrest⟩ := hbranches r hr hreads
    refine ⟨t, ?_, hrest⟩
    rw [Leads]
    exact ht
  | lookahead negative => cases htree.noLookahead _ hself

/-! ### All nodes -/

/-- Nodes that show one of some texts and capture nothing. -/
theorem traces_text {leads : MatchState → Prop} (h : Recalls text later σ env s)
    (hgroups : r.groups = []) (hreads : Reads text s.position q r.text)
    (hleads : leads ⟨q, s.captures⟩) : Traces text later σ env r q leads := by
  refine ⟨⟨q, s.captures⟩, hleads, rfl, ?_⟩
  rw [hgroups]
  exact h.advance hreads.inside rfl

/-- **All nodes of a settled tree are traced.** -/
theorem Node.traced (text : Array Char) (cap : Nat) (htree : tree.Settled) (n : Node) :
    n.Traced text cap tree := by
  induction n with
  | char c =>
    intro later σ p σ' env s r q hfits hplan h hready hr hreads
    obtain ⟨rfl, rfl⟩ := plan_char_iff.1 hplan
    obtain ⟨v, hv, rfl⟩ := Plan.shows_texts.1 hr
    obtain rfl := List.mem_singleton.1 hv
    refine traces_text h rfl hreads ?_
    rw [Leads, mem_consume_iff]
    exact ⟨c, beq_self_eq_true c, hreads, rfl⟩
  | charClass k =>
    intro later σ p σ' env s r q hfits hplan h hready hr hreads
    obtain ⟨rfl, rfl⟩ := plan_charClass_iff.1 hplan
    obtain ⟨v, hv, rfl⟩ := Plan.shows_texts.1 hr
    obtain ⟨c, hc, rfl⟩ := List.mem_map.1 hv
    refine traces_text h rfl hreads ?_
    rw [Leads, mem_consume_iff]
    exact ⟨c, CharClass.mem_resolve.1 hc, hreads, rfl⟩
  | anchor a =>
    intro later σ p σ' env s r q hfits
    exact absurd (hfits.mem _ (Node.self_mem_nodes _)) (htree.noAnchor a)
  | backreference index =>
    intro later σ p σ' env s r q hfits hplan h hready hr hreads
    obtain ⟨name, hname, rfl, rfl⟩ := plan_backreference_iff.1 hplan
    obtain rfl := Plan.shows_echo.1 hr
    have hrecalled := h.recalled index List.mem_cons_self name hname
    refine traces_text (h.mono fun i hi => List.mem_append_right _ hi) rfl hreads ?_
    rw [Leads]
    exact exists_repeatCaptured hrecalled hreads
  | group kind branches ih =>
    intro later σ p σ' env s r q hfits hplan h hready hr hreads
    exact traces_group htree.toApart ih hready hfits hplan h hr hreads
  | marked min max body ih =>
    intro later σ p σ' env s r q hfits hplan h hready hr hreads
    obtain ⟨b, hb, rfl⟩ := plan_marked_iff.1 hplan
    have hself := hfits.mem _ (List.mem_cons_of_mem _ (Node.self_mem_nodes _))
    have hbody := hfits.within ((List.sublist_cons_self _ _).trans (List.sublist_cons_self _ _))
    rw [Node.optionalParts] at hready
    have hready := hready.within
      (fun n hn => List.mem_cons_of_mem _ (List.mem_cons_of_mem _ hn)) fun part hpart => hpart
    rw [leads_marked]
    cases max with
    | none => exact absurd hself (htree.bounded min body)
    | some max => exact traces_rounds htree ih hself hready hbody hb h hr hreads
  | repetition min max body hm ih =>
    intro later σ p σ' env s r q hfits hplan h hready hr hreads
    obtain ⟨b, hb, rfl⟩ := (plan_repetition_iff hm).1 hplan
    have hself := hfits.mem _ (Node.self_mem_nodes _)
    have hbody := hfits.within (List.sublist_cons_self _ _)
    rw [Node.optionalParts] at hready
    · have hready := hready.within (fun n hn => List.mem_cons_of_mem _ hn) fun part hpart => hpart
      rw [leads_repetition hm]
      cases max with
      | none => exact absurd hself (htree.bounded min body)
      | some max => exact traces_rounds htree ih hself hready hbody hb h hr hreads
    · exact hm

end Tracing

/-! ## Whole trees -/

/-- **A settled tree shows no text that is rejected.** -/
theorem Tree.Settled.matches?_ne_false {tree : Tree} (h : tree.Settled) {cap : Nat}
    {stream : Stream} (hstream : Stream.ofTree cap tree = .ok stream) {w : List Char}
    (hw : w ∈ stream.toList) : tree.matches? w ≠ some false := by
  obtain ⟨p, hp, rfl⟩ := Stream.ofTree_eq_ok_iff.1 hstream
  obtain ⟨ps, σ, hps, rfl⟩ := Tree.plan_eq_ok_iff.1 hp
  obtain ⟨r, hr, rfl⟩ := Stream.mem_toList_ofPlan.1 hw
  have hfits : Fits tree tree.nodes [] (.start tree.captures) :=
    ⟨fun n hn => hn, fun index => Nat.le_refl _, h.distinct, fun index _ => rfl, rfl⟩
  have hstart : Recalls r.text.toArray (referenceIndices tree.nodes ++ []) (.start tree.captures) []
      (.start tree.captures) := by
    refine ⟨Nat.zero_le _, List.length_replicate, Naming.valid_start _, nofun, ?_⟩
    intro index _ name hname
    cases hname
  -- nothing has been captured yet
  have hready : tree.Ready tree.nodes ((if 1 < tree.branches.length then
      [branchesNodes tree.branches] else []) ++ branchesOptionalParts tree.branches)
      (.start tree.captures) := by
    refine .inl fun i _ => ?_
    simp only [MatchState.captured?, MatchState.start, List.getElem?_replicate]
    split
    · rfl
    · rfl
  obtain ⟨t, ht, hposition, -⟩ := traces_branches h.toApart (fun b _ n _ => n.traced _ cap h)
    (h.alternatives tree.branches (.inl rfl)) hready hfits hps hstart hr (reads_whole_iff.2 rfl)
  intro hmatch
  exact absurd ((matches?_eq_some hmatch).2 ⟨t, ht, hposition⟩) Bool.false_ne_true

/-- The tree of `(A|B){2}\1`. -/
def lastOfTwo : Tree :=
  ⟨[[.repetition 2 (some 2) (.group (.capture 1) [[.char 'A'], [.char 'B']]), .backreference 1]], 1⟩

theorem lastOfTwo_settled : lastOfTwo.Settled where
  noLookahead := by decide
  noAnchor := by simp [lastOfTwo, Tree.nodes, branchesNodes, branchNodes, Node.nodes]
  bounded := by simp [lastOfTwo, Tree.nodes, branchesNodes, branchNodes, Node.nodes]
  distinct := by decide
  alternatives branches h hmany := by
    rcases h with rfl | ⟨kind, h⟩
    · simp [lastOfTwo] at hmany
    · simp [lastOfTwo, Tree.nodes, branchesNodes, branchNodes, Node.nodes] at h
      obtain ⟨rfl, rfl⟩ := h
      decide
  optional min max body h hmany := by
    simp [lastOfTwo, Tree.nodes, branchesNodes, branchNodes, Node.nodes] at h
    obtain ⟨rfl, rfl, rfl⟩ := h
    decide
  emptyRounds min max body h hmany hlt := by
    simp [lastOfTwo, Tree.nodes, branchesNodes, branchNodes, Node.nodes] at h
    omega

theorem lastOfTwo_matches : lastOfTwo.Settled ∧ ∃ stream, Stream.ofTree 0 lastOfTwo = .ok stream ∧
    ['A', 'B', 'B'] ∈ stream.toList ∧ lastOfTwo.matches? ['A', 'B', 'B'] ≠ some false := by
  have hmem : ['A', 'B', 'B'] ∈ (Stream.ofPlan 0 (.concat [.times 2 (some 2) (.named 0
      (.choice [.concat [.texts [['A']]], .concat [.texts [['B']]]])), .echo 0])).toList := by
    decide +kernel
  exact ⟨lastOfTwo_settled, _, rfl, hmem, lastOfTwo_settled.matches?_ne_false rfl hmem⟩

/-- The tree of `(?:(A)|B){2}\1`. In `AB` the last round leaves out the group, and the reference
shows nothing; the matcher still looks for the `A` of the first round. -/
def oneOfTwo : Tree :=
  ⟨[[.repetition 2 (some 2) (.group .plain [[.group (.capture 1) [[.char 'A']]], [.char 'B']]),
    .backreference 1]], 1⟩

theorem oneOfTwo_apart : oneOfTwo.Apart where
  noLookahead := by decide
  noAnchor := by simp [oneOfTwo, Tree.nodes, branchesNodes, branchNodes, Node.nodes]
  bounded := by simp [oneOfTwo, Tree.nodes, branchesNodes, branchNodes, Node.nodes]
  distinct := by decide
  alternatives branches h hmany := by
    rcases h with rfl | ⟨kind, h⟩
    · simp [oneOfTwo] at hmany
    · simp [oneOfTwo, Tree.nodes, branchesNodes, branchNodes, Node.nodes] at h
      rcases h with ⟨-, rfl⟩ | ⟨-, rfl⟩
      · decide
      · decide

/-- Without more, what the generator shows may be rejected. -/
theorem not_forall_apart : ¬∀ tree : Tree, tree.Apart → ∀ cap stream,
    Stream.ofTree cap tree = .ok stream → ∀ w ∈ stream.toList, tree.matches? w ≠ some false := by
  intro h
  have hmem : ['A', 'B'] ∈ (Stream.ofPlan 0 (.concat [.times 2 (some 2) (.choice [.concat
      [.named 0 (.concat [.texts [['A']]])], .concat [.texts [['B']]]]), .echo 0])).toList := by
    decide +kernel
  exact h oneOfTwo oneOfTwo_apart 0 _ rfl ['A', 'B'] hmem (by decide +kernel)

end SequenceConstraint
