import SequenceConstraint.Proofs.Order.Trees

/-!
# Counterparts in two listings

A tree is listed twice, with two caps. Every entry of the one listing may have a counterpart in the
other: one with the same text, say, or with a shorter one. What is asked of the two texts is a
relation that can be put together (`TextRelation`), and whether there are counterparts is settled
node by node. A backreference shows related texts because its group has shown related ones. Past an
alternation of several branches only the texts it has shown matter (`Tree.Confined`).

Caps show in repetitions only. What becomes of the words of a repetition is not settled here; a
theorem about one relation brings a proof of it (`TextRelation.CarriesRepeats`).

## Main statements

* `Node.hasCounterparts` — the entries of a node have counterparts
* `Tree.Confined.exists_counterpart` — so have those of a tree
-/

namespace SequenceConstraint

/-- A relation of texts that holds of every text and itself, and of texts put together from related
ones. -/
structure TextRelation where
  Holds : List Char → List Char → Prop
  refl : ∀ t, Holds t t
  append : ∀ {t t' u u'}, Holds t t' → Holds u u' → Holds (t ++ u) (t' ++ u')

namespace TextRelation

/-- Whether the texts of the indices in `live` are related. -/
def Between (rel : TextRelation) (live : List Nat) (env env' : Bindings) : Prop :=
  ∀ index ∈ live, rel.Holds (env.text index) (env'.text index)

namespace Between

variable {rel : TextRelation} {live later : List Nat} {env env' groups groups' : Bindings}

theorem mono (h : rel.Between live env env') (hlive : ∀ i ∈ later, i ∈ live) :
    rel.Between later env env' :=
  fun i hi => h i (hlive i hi)

/-- What comes between leaves the indices alone that it does not capture. -/
theorem frame {indices : List Nat} (h : rel.Between live env env') (hlive : ∀ i ∈ later, i ∈ live)
    (hout : ∀ i ∈ later, i ∉ indices) (hgroups : ∀ g ∈ groups, g.1 ∈ indices)
    (hgroups' : ∀ g ∈ groups', g.1 ∈ indices) :
    rel.Between later (groups ++ env) (groups' ++ env') := by
  intro index hi
  rw [Bindings.text_append, Bindings.text_append]
  · exact h index (hlive index hi)
  · rintro g hg rfl
    exact hout g.1 hi (hgroups' g hg)
  · rintro g hg rfl
    exact hout g.1 hi (hgroups g hg)

theorem cons {text text' : List Char} (h : rel.Between live env env') (index : Nat)
    (htext : rel.Holds text text') :
    rel.Between live ((index, text) :: env) ((index, text') :: env') := by
  intro i hi
  rw [Bindings.text_cons, Bindings.text_cons]
  split
  · exact htext
  · exact h i hi

end Between

/-- Whether two entries have related texts, and the indices in `later` have related texts after
them. -/
structure Counterpart (rel : TextRelation) (later : List Nat) (env env' : Bindings)
    (r r' : Shown) : Prop where
  text : rel.Holds r.text r'.text
  groups : rel.Between later (r.groups ++ env) (r'.groups ++ env')

/-- Whether every entry of a listing has a counterpart in another listing. -/
def Carries (rel : TextRelation) (later : List Nat) (env env' : Bindings) (l l' : List Shown) :
    Prop :=
  ∀ r ∈ l, ∃ r' ∈ l', rel.Counterpart later env env' r r'

end TextRelation

/-- Whether the entries of a node have counterparts wherever it stands in a tree. -/
def Node.HasCounterparts (rel : TextRelation) (cap cap' : Nat) (tree : Tree) (n : Node) : Prop :=
  ∀ later σ env env', Fits tree n.nodes later σ →
    rel.Between (referenceIndices n.nodes ++ later) env env' →
      rel.Carries later env env' (n.listing cap env) (n.listing cap' env')

/-- Whether the words of each repetition in a tree have counterparts if the entries of its body
do. -/
def TextRelation.CarriesRepeats (rel : TextRelation) (cap cap' : Nat) (tree : Tree) : Prop :=
  ∀ min max body, .repetition min max body ∈ tree.nodes → body.HasCounterparts rel cap cap' tree →
    ∀ later σ env env', Fits tree body.nodes later σ →
      rel.Between (referenceIndices body.nodes ++ later) env env' →
        rel.Carries later env env' (repeated min (Plan.limit cap min max) (body.listing cap env))
          (repeated min (Plan.limit cap' min max) (body.listing cap' env'))

section Counterparts

variable {rel : TextRelation} {cap cap' : Nat} {tree : Tree} {later : List Nat} {σ : Naming}
  {env env' : Bindings}

/-- **Past a part that keeps its references** the texts for the references after it are related,
whatever has been shown in it. -/
theorem Fits.between {part : List Node} {groups groups' : Bindings}
    (hfits : Fits tree part later σ) (hkeeps : tree.Keeps part)
    (hgroups : ∀ g ∈ groups, g.1 ∈ captureIndices part)
    (hgroups' : ∀ g ∈ groups', g.1 ∈ captureIndices part)
    (h : rel.Between (referenceIndices part ++ later) env env') :
    rel.Between later (groups ++ env) (groups' ++ env') :=
  h.frame (fun _ hi => List.mem_append_right _ hi) (hfits.not_captured hkeeps) hgroups hgroups'

/-- Entries that capture nothing are their own counterparts. -/
theorem carries_self {l : List Shown} (hl : ∀ r ∈ l, r.groups = [])
    (h : rel.Between later env env') : rel.Carries later env env' l l := by
  intro r hr
  refine ⟨r, hr, rel.refl r.text, ?_⟩
  rw [hl r hr]
  exact h

/-- **The entries of a branch** have counterparts if those of its nodes do. -/
theorem carries_branch {branch : List Node}
    (hnodes : ∀ n ∈ branch, n.HasCounterparts rel cap cap' tree)
    (hfits : Fits tree (branchNodes branch) later σ)
    (h : rel.Between (referenceIndices (branchNodes branch) ++ later) env env') :
    rel.Carries later env env' (branchListing cap branch env) (branchListing cap' branch env') := by
  induction branch generalizing env env' with
  | nil =>
    rw [branchListing, branchListing]
    exact carries_self (by simp) h
  | cons n ns ih =>
    obtain ⟨hn, hns⟩ := List.forall_mem_cons.1 hnodes
    have h' : rel.Between (referenceIndices n.nodes ++ (referenceIndices (branchNodes ns) ++ later))
        env env' := by
      simpa [branchNodes] using h
    have hsecond := hfits.second (Naming.Extends.refl σ)
    by_cases hlook : n.isLookahead = true
    · rw [branchListing_skip hlook, branchListing_skip hlook]
      exact ih hns hsecond (h'.mono fun i hi => List.mem_append_right _ hi)
    · rw [Bool.not_eq_true] at hlook
      rw [branchListing_cons hlook, branchListing_cons hlook]
      intro r hr
      obtain ⟨a, ha, hr⟩ := List.mem_flatMap.1 hr
      obtain ⟨b, hb, rfl⟩ := List.mem_map.1 hr
      obtain ⟨a', ha', hfirst⟩ := hn _ σ env env' hfits.first h' a ha
      obtain ⟨b', hb', hrest⟩ := ih hns hsecond hfirst.groups b hb
      refine ⟨a'.beside b', List.mem_flatMap.2 ⟨a', ha', List.mem_map.2 ⟨b', hb', rfl⟩⟩, ?_, ?_⟩
      · exact rel.append hfirst.text hrest.text
      · show rel.Between later ((b.groups ++ a.groups) ++ env) ((b'.groups ++ a'.groups) ++ env')
        rw [List.append_assoc, List.append_assoc]
        exact hrest.groups

/-- **The entries of an alternation** have counterparts if those of the nodes in it do. -/
theorem carries_branches {branches : List (List Node)}
    (hnodes : ∀ b ∈ branches, ∀ n ∈ b, n.HasCounterparts rel cap cap' tree)
    (hkeeps : 1 < branches.length → ∀ b ∈ branches, tree.Keeps (branchNodes b))
    (hfits : Fits tree (branchesNodes branches) later σ)
    (h : rel.Between (referenceIndices (branchesNodes branches) ++ later) env env') :
    rel.Carries later env env' (alternation (branchesListings cap [] branches env))
      (alternation (branchesListings cap' [] branches env')) := by
  by_cases hlone : ∃ b, branches = [b]
  · obtain ⟨b, rfl⟩ := hlone
    rw [branchesListings_cons List.not_mem_nil, branchesListings_cons List.not_mem_nil,
      branchesListings, branchesListings]
    simp only [branchesNodes, List.append_nil] at hfits h
    exact carries_branch (hnodes b List.mem_cons_self) hfits h
  · have hkeeps := keeps_of_not_lone hkeeps hlone
    intro r hr
    obtain ⟨listing, hlisting, hmem⟩ := mem_of_mem_alternation hr
    rw [branchesListings_eq] at hlisting
    obtain ⟨b, hkept, rfl⟩ := List.mem_map.1 hlisting
    have hb := mem_of_mem_keptBranches hkept
    have hsub := branchNodes_sublist hb
    have hbranch : rel.Between (referenceIndices (branchNodes b) ++ later) env env' :=
      h.mono fun i hi => (List.mem_append.1 hi).elim
        (fun hi => List.mem_append_left _ ((hsub.filterMap _).subset hi)) (List.mem_append_right _)
    obtain ⟨r', hr', hcounterpart⟩ :=
      carries_branch (hnodes b hb) (hfits.within hsub) hbranch r hmem
    have hlisted : branchListing cap' b env' ∈ branchesListings cap' [] branches env' := by
      rw [branchesListings_eq]
      exact List.mem_map.2 ⟨b, hkept, rfl⟩
    -- the first entry with that text may be one of another branch
    obtain ⟨r'', hr'', htext⟩ := exists_mem_alternation hlisted hr'
    refine ⟨r'', hr'', ?_, ?_⟩
    · rw [htext]
      exact hcounterpart.text
    · exact hfits.between (hfits.keeps_branches hkeeps) (alternation_groups hr)
        (alternation_groups hr'') h

/-- **The entries of a group** have counterparts if those of what stands in it do. -/
theorem carries_group {kind : GroupKind} {branches : List (List Node)}
    (hnodes : ∀ b ∈ branches, ∀ n ∈ b, n.HasCounterparts rel cap cap' tree)
    (hkeeps : 1 < branches.length → ∀ b ∈ branches, tree.Keeps (branchNodes b))
    (hfits : Fits tree (Node.group kind branches).nodes later σ)
    (h : rel.Between (referenceIndices (Node.group kind branches).nodes ++ later) env env') :
    rel.Carries later env env' ((Node.group kind branches).listing cap env)
      ((Node.group kind branches).listing cap' env') := by
  have hbranches := carries_branches hnodes hkeeps (hfits.within (List.sublist_cons_self _ _)) h
  rw [Node.listing, Node.listing]
  intro r hr
  obtain ⟨b, hb, rfl⟩ := List.mem_map.1 hr
  obtain ⟨b', hb', hcounterpart⟩ := hbranches b hb
  refine ⟨kind.bind b', List.mem_map.2 ⟨b', hb', rfl⟩, ?_⟩
  cases kind with
  | capture index => exact ⟨hcounterpart.text, hcounterpart.groups.cons index hcounterpart.text⟩
  | plain => exact hcounterpart
  | lookahead negative => exact hcounterpart

/-- **The entries of a node have counterparts.** -/
theorem Node.hasCounterparts (htree : tree.Confined) (hrepeats : rel.CarriesRepeats cap cap' tree)
    (n : Node) : n.HasCounterparts rel cap cap' tree := by
  induction n with
  | char c =>
    intro later σ env env' hfits h
    rw [Node.listing, Node.listing]
    exact carries_self (by simp) h
  | charClass k =>
    intro later σ env env' hfits h
    rw [Node.listing, Node.listing]
    exact carries_self (by simp) h
  | anchor a =>
    intro later σ env env' hfits h
    rw [Node.listing, Node.listing]
    exact carries_self (by simp) h
  | backreference index =>
    intro later σ env env' hfits h r hr
    rw [Node.listing, List.mem_singleton] at hr
    subst hr
    rw [Node.listing]
    exact ⟨_, List.mem_singleton_self _, h index List.mem_cons_self,
      h.mono fun i hi => List.mem_cons_of_mem index hi⟩
  | group kind branches ih =>
    intro later σ env env' hfits h
    have hself := hfits.mem _ (Node.self_mem_nodes _)
    exact carries_group ih (htree branches (.inr ⟨kind, hself⟩)) hfits h
  | marked min max body ih =>
    intro later σ env env' hfits h
    have hself := hfits.mem (.repetition min max body) (List.mem_cons_of_mem _ List.mem_cons_self)
    have hbody := hfits.within ((List.sublist_cons_self _ _).trans (List.sublist_cons_self _ _))
    rw [listing_marked, listing_marked]
    exact hrepeats min max body hself ih later σ env env' hbody h
  | repetition min max body hm ih =>
    intro later σ env env' hfits h
    have hself := hfits.mem _ (Node.self_mem_nodes _)
    have hbody := hfits.within (List.sublist_cons_self _ _)
    rw [listing_repetition hm, listing_repetition hm]
    exact hrepeats min max body hself ih later σ env env' hbody h

/-- **The texts of a tree have counterparts.** -/
theorem Tree.Confined.exists_counterpart (h : tree.Confined)
    (hdistinct : (captureIndices tree.nodes).Nodup)
    (hrepeats : rel.CarriesRepeats cap cap' tree) :
    ∀ t ∈ tree.texts cap, ∃ t' ∈ tree.texts cap', rel.Holds t t' := by
  have hcarries : rel.Carries [] [] [] (alternation (branchesListings cap [] tree.branches []))
      (alternation (branchesListings cap' [] tree.branches [])) :=
    carries_branches (fun _ _ n _ => n.hasCounterparts h hrepeats) (h tree.branches (.inl rfl))
      (Fits.whole hdistinct) fun _ _ => rel.refl _
  intro t ht
  obtain ⟨r, hr, rfl⟩ := List.mem_map.1 ht
  obtain ⟨r', hr', hcounterpart⟩ := hcarries r hr
  exact ⟨r'.text, List.mem_map.2 ⟨r', hr', rfl⟩, hcounterpart.text⟩

end Counterparts

end SequenceConstraint
