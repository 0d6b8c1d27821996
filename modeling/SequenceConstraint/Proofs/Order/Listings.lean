import Mathlib.Data.List.Forall2
import SequenceConstraint.Proofs.Generation.InOrder
import SequenceConstraint.Proofs.Syntax.Nodes

/-!
# Listing the texts of a tree

What a tree stands for, as one list: every node has a list of texts, in the order in which they are
generated and as often as they are, and the list of a tree is put together from the lists of its
parts. Groups are bound to their indices, and each node is listed among the groups to its left.

## Main statements

* `Tree.texts` — the texts of a tree
* `map_text_alternation` — the texts of an alternation depend on those of its branches only
* `related_ofRepeats` — words are related if their repeats are
* `Node.listing_groups` — a node binds only the groups in it
-/

namespace SequenceConstraint

/-- What a group shows, given what its alternation shows: a capturing one binds its text. -/
def GroupKind.bind : GroupKind → Shown → Shown
  | .capture index, r => ⟨r.text, (index, r.text) :: r.groups⟩
  | _, r => r

/-- All of the listings of some branches; of several branches only the first of each text. -/
def alternation : List (List Shown) → List Shown
  | [listing] => listing
  | listings => keepFirst [] listings.flatten

mutual

/-- What a node shows among the groups `env`, in order. -/
def Node.listing (cap : Nat) : Node → Bindings → List Shown
  | .char c, _ => [⟨[c], []⟩]
  | .charClass k, _ => k.resolve.toList.map fun c => ⟨[c], []⟩
  | .anchor _, _ => [⟨[], []⟩]
  | .backreference index, env => [⟨env.text index, []⟩]
  | .group kind branches, env => (alternation (branchesListings cap [] branches env)).map kind.bind
  | .repetition 0 (some 1) (.repetition min max body), env =>
    repeated min (Plan.limit cap min max) (body.listing cap env)
  | .repetition min max body, env => repeated min (Plan.limit cap min max) (body.listing cap env)

/-- The nodes of a branch, without its lookahead groups: the rightmost changes fastest, and each is
listed anew among the groups to its left. -/
def branchListing (cap : Nat) : List Node → Bindings → List Shown
  | [], _ => [⟨[], []⟩]
  | n :: ns, env =>
    if n.isLookahead then branchListing cap ns env
    else
      (n.listing cap env).flatMap fun a => (branchListing cap ns (a.groups ++ env)).map a.beside

/-- The listings of the branches that differ from those seen before, and from each other. -/
def branchesListings (cap : Nat) (seen : List Branch) : List (List Node) → Bindings →
    List (List Shown)
  | [], _ => []
  | b :: bs, env =>
    if seen.contains (takingNodes b) then branchesListings cap seen bs env
    else branchListing cap b env :: branchesListings cap (takingNodes b :: seen) bs env

end

/-- The texts of a tree, in order. An unbounded repetition repeats at most `cap` times more than it
must. -/
def Tree.texts (cap : Nat) (tree : Tree) : List (List Char) :=
  (alternation (branchesListings cap [] tree.branches [])).map Shown.text

section Laws

variable {cap : Nat} {env : Bindings} {n : Node} {b : List Node} {bs : List (List Node)}
  {seen : List Branch}

theorem listing_marked (min : Nat) (max : Option Nat) (body : Node) :
    (Node.repetition 0 (some 1) (.repetition min max body)).listing cap env =
      repeated min (Plan.limit cap min max) (body.listing cap env) := by
  rw [Node.listing]

theorem listing_repetition {min : Nat} {max : Option Nat} {body : Node}
    (hm : ∀ min' max' body', min = 0 → max = some 1 → body = .repetition min' max' body' → False) :
    (Node.repetition min max body).listing cap env =
      repeated min (Plan.limit cap min max) (body.listing cap env) := by
  rw [Node.listing]
  exact hm

theorem branchListing_skip (hn : n.isLookahead = true) :
    branchListing cap (n :: b) env = branchListing cap b env := by
  rw [branchListing, if_pos hn]

theorem branchListing_cons (hn : n.isLookahead = false) :
    branchListing cap (n :: b) env =
      (n.listing cap env).flatMap fun a =>
        (branchListing cap b (a.groups ++ env)).map a.beside := by
  rw [branchListing, if_neg (by simp [hn])]

theorem branchesListings_skip (hb : takingNodes b ∈ seen) :
    branchesListings cap seen (b :: bs) env = branchesListings cap seen bs env := by
  rw [branchesListings, if_pos (List.contains_iff_mem.2 hb)]

theorem branchesListings_cons (hb : takingNodes b ∉ seen) :
    branchesListings cap seen (b :: bs) env =
      branchListing cap b env :: branchesListings cap (takingNodes b :: seen) bs env := by
  rw [branchesListings, if_neg (mt List.contains_iff_mem.1 hb)]

/-- The branches that differ from those seen before, and from each other. -/
def keptBranches (seen : List Branch) : List (List Node) → List (List Node)
  | [] => []
  | b :: bs =>
    if seen.contains (takingNodes b) then keptBranches seen bs
    else b :: keptBranches (takingNodes b :: seen) bs

theorem mem_of_mem_keptBranches (h : b ∈ keptBranches seen bs) : b ∈ bs := by
  induction bs generalizing seen with
  | nil => cases h
  | cons c cs ih =>
    rw [keptBranches] at h
    split at h
    · exact List.mem_cons_of_mem c (ih h)
    · rcases List.mem_cons.1 h with rfl | h
      · exact List.mem_cons_self
      · exact List.mem_cons_of_mem c (ih h)

theorem branchesListings_eq (cap : Nat) (seen : List Branch) (bs : List (List Node))
    (env : Bindings) :
    branchesListings cap seen bs env =
      (keptBranches seen bs).map fun b => branchListing cap b env := by
  induction bs generalizing seen with
  | nil => rw [branchesListings, keptBranches, List.map_nil]
  | cons b bs ih =>
    rw [branchesListings, keptBranches]
    split
    · exact ih seen
    · rw [List.map_cons, ih]

end Laws

/-! ## Texts -/

theorem map_text_keepFirst {seen : List (List Char)} {rs rs' : List Shown}
    (h : rs.map Shown.text = rs'.map Shown.text) :
    (keepFirst seen rs).map Shown.text = (keepFirst seen rs').map Shown.text := by
  induction rs generalizing rs' seen with
  | nil =>
    rw [List.map_nil, eq_comm, List.map_eq_nil_iff] at h
    rw [h]
  | cons r rs ih =>
    cases rs' with
    | nil => cases h
    | cons r' rs' =>
      obtain ⟨htext, h⟩ := List.cons.inj h
      rw [keepFirst, keepFirst, htext]
      split
      · exact ih h
      · rw [List.map_cons, List.map_cons, htext, ih h]

theorem mem_of_mem_alternation {listings : List (List Shown)} {r : Shown}
    (h : r ∈ alternation listings) : ∃ listing ∈ listings, r ∈ listing := by
  unfold alternation at h
  split at h
  · exact ⟨_, List.mem_singleton_self _, h⟩
  · exact List.mem_flatten.1 (mem_of_mem_keepFirst h)

/-- Every text of a branch is a text of the alternation. -/
theorem exists_mem_alternation {listings : List (List Shown)} {listing : List Shown} {r : Shown}
    (hlisting : listing ∈ listings) (hr : r ∈ listing) :
    ∃ r' ∈ alternation listings, r'.text = r.text := by
  unfold alternation
  split
  · rw [List.mem_singleton.1 hlisting] at hr
    exact ⟨r, hr, rfl⟩
  · have hmem := List.mem_flatten.2 ⟨listing, hlisting, hr⟩
    exact (exists_mem_keepFirst hmem).resolve_left List.not_mem_nil

/-- The texts of an alternation depend on those of its branches only. -/
theorem map_text_alternation {listings listings' : List (List Shown)}
    (h : listings.map (List.map Shown.text) = listings'.map (List.map Shown.text)) :
    (alternation listings).map Shown.text = (alternation listings').map Shown.text := by
  have hflatten : listings.flatten.map Shown.text = listings'.flatten.map Shown.text := by
    rw [List.map_flatten, List.map_flatten, h]
  have hlength : listings.length = listings'.length := by
    simpa using congrArg List.length h
  by_cases hlone : ∃ l, listings = [l]
  · obtain ⟨l, rfl⟩ := hlone
    obtain ⟨l', rfl⟩ := List.length_eq_one_iff.1 hlength.symm
    simpa [alternation] using h
  · have hlone' : ¬∃ l, listings' = [l] := by
      rwa [← List.length_eq_one_iff, ← hlength, List.length_eq_one_iff]
    unfold alternation
    split
    · exact absurd ⟨_, rfl⟩ hlone
    · split
      · exact absurd ⟨_, rfl⟩ hlone'
      · exact map_text_keepFirst hflatten

/-! ## Words -/

/-- Whether two entries have the same text, and groups that are related. -/
structure Shown.Related (P : Bindings → Bindings → Prop) (r r' : Shown) : Prop where
  text : r.text = r'.text
  groups : P r.groups r'.groups

section Related

variable {P : Bindings → Bindings → Prop} {w w' l l' : List Shown}

theorem map_text_eq (h : List.Forall₂ (Shown.Related P) l l') :
    l.map Shown.text = l'.map Shown.text := by
  induction h with
  | nil => rfl
  | cons hr _ ih => rw [List.map_cons, List.map_cons, hr.text, ih]

/-- **Words are related if their repeats are;** the groups of a word are those of its last repeat. -/
theorem related_ofRepeats (h : List.Forall₂ (Shown.Related P) w w') (hnone : P [] []) :
    Shown.Related P (Plan.ofRepeats w) (Plan.ofRepeats w') where
  text := congrArg List.flatten (map_text_eq h)
  groups := by
    have hlast : P ((w.getLast?.map Shown.groups).getD []) ((w'.getLast?.map Shown.groups).getD []) := by
      induction h with
      | nil => exact hnone
      | cons hr hrest ih =>
        cases hrest with
        | nil => exact hr.groups
        | cons hr' hrest => simpa [List.getLast?_cons_cons] using ih
    exact hlast

theorem forall₂_wordsOf (h : List.Forall₂ (Shown.Related P) l l') (k : Nat) :
    List.Forall₂ (List.Forall₂ (Shown.Related P)) (wordsOf l k) (wordsOf l' k) := by
  induction k with
  | zero => exact .cons .nil .nil
  | succ k ih =>
    refine List.rel_flatMap ih fun w w' hw => ?_
    exact List.rel_map (fun a a' ha => List.rel_append hw (.cons ha .nil)) h

theorem forall₂_repeated (min limit : Nat) (h : List.Forall₂ (Shown.Related P) l l')
    (hnone : P [] []) :
    List.Forall₂ (Shown.Related P) (repeated min limit l) (repeated min limit l') := by
  have hcounts : List.Forall₂ Eq (List.range' min (limit + 1 - min))
      (List.range' min (limit + 1 - min)) := List.forall₂_same.2 fun _ _ => rfl
  refine List.rel_flatMap hcounts fun k _ hk => ?_
  subst hk
  exact List.rel_map (fun w w' hw => related_ofRepeats hw hnone) (forall₂_wordsOf h k)

end Related

/-! ## Groups -/

theorem groups_ofRepeats {w : List Shown} {g : Nat × List Char}
    (h : g ∈ (Plan.ofRepeats w).groups) : ∃ a ∈ w, g ∈ a.groups := by
  have h : g ∈ (w.getLast?.map Shown.groups).getD [] := h
  cases hlast : w.getLast? with
  | none =>
    rw [hlast] at h
    cases h
  | some a =>
    rw [hlast] at h
    exact ⟨a, List.mem_of_getLast? hlast, h⟩

section Groups

variable {cap : Nat} {env : Bindings} {r : Shown}

/-- Whether a node binds only the groups in it. -/
def Node.BindsOwn (cap : Nat) (n : Node) : Prop :=
  ∀ env, ∀ r ∈ n.listing cap env, ∀ g ∈ r.groups, g.1 ∈ captureIndices n.nodes

theorem branchListing_groups_of {branch : List Node} (h : ∀ n ∈ branch, n.BindsOwn cap)
    (hr : r ∈ branchListing cap branch env) :
    ∀ g ∈ r.groups, g.1 ∈ captureIndices (branchNodes branch) := by
  induction branch generalizing env r with
  | nil =>
    rw [branchListing, List.mem_singleton] at hr
    subst hr
    exact fun _ => List.not_mem_nil.elim
  | cons n ns ih =>
    obtain ⟨hn, hns⟩ := List.forall_mem_cons.1 h
    intro g hg
    rw [branchNodes, captureIndices_append, List.mem_append]
    by_cases hlook : n.isLookahead = true
    · rw [branchListing_skip hlook] at hr
      exact .inr (ih hns hr g hg)
    · rw [branchListing_cons (Bool.eq_false_iff.2 hlook)] at hr
      obtain ⟨a, ha, hr⟩ := List.mem_flatMap.1 hr
      obtain ⟨b, hb, rfl⟩ := List.mem_map.1 hr
      rcases List.mem_append.1 hg with hg | hg
      · exact .inr (ih hns hb g hg)
      · exact .inl (hn env a ha g hg)

theorem alternation_groups_of {branches : List (List Node)} {seen : List Branch}
    (h : ∀ b ∈ branches, ∀ n ∈ b, n.BindsOwn cap)
    (hr : r ∈ alternation (branchesListings cap seen branches env)) :
    ∀ g ∈ r.groups, g.1 ∈ captureIndices (branchesNodes branches) := by
  obtain ⟨listing, hlisting, hr⟩ := mem_of_mem_alternation hr
  rw [branchesListings_eq] at hlisting
  obtain ⟨b, hkept, rfl⟩ := List.mem_map.1 hlisting
  have hb := mem_of_mem_keptBranches hkept
  intro g hg
  exact captureIndices_subset (branchNodes_sublist hb).subset _
    (branchListing_groups_of (h b hb) hr g hg)

theorem repeated_groups {min limit : Nat} {rs : List Shown} {indices : List Nat}
    (h : ∀ a ∈ rs, ∀ g ∈ a.groups, g.1 ∈ indices) (hr : r ∈ repeated min limit rs) :
    ∀ g ∈ r.groups, g.1 ∈ indices := by
  obtain ⟨w, hw, -, -, rfl⟩ := mem_repeated.1 hr
  intro g hg
  obtain ⟨a, ha, hg⟩ := groups_ofRepeats hg
  exact h a (hw a ha) g hg

/-- **A node binds only the groups in it.** -/
theorem Node.listing_groups (cap : Nat) (n : Node) : n.BindsOwn cap := by
  intro env r hr
  induction n generalizing env r with
  | char c =>
    rw [Node.listing, List.mem_singleton] at hr
    subst hr
    exact fun _ => List.not_mem_nil.elim
  | charClass k =>
    rw [Node.listing] at hr
    obtain ⟨c, -, rfl⟩ := List.mem_map.1 hr
    exact fun _ => List.not_mem_nil.elim
  | anchor a =>
    rw [Node.listing, List.mem_singleton] at hr
    subst hr
    exact fun _ => List.not_mem_nil.elim
  | backreference index =>
    rw [Node.listing, List.mem_singleton] at hr
    subst hr
    exact fun _ => List.not_mem_nil.elim
  | group kind branches ih =>
    rw [Node.listing] at hr
    obtain ⟨a, ha, rfl⟩ := List.mem_map.1 hr
    have hinner := alternation_groups_of (fun b hb n hn env r hr => ih b hb n hn env r hr) ha
    cases kind with
    | capture index =>
      intro g hg
      rw [captureIndices_capture]
      rcases List.mem_cons.1 hg with rfl | hg
      · exact List.mem_cons_self
      · exact List.mem_cons_of_mem index (hinner g hg)
    | plain => exact hinner
    | lookahead negative => exact hinner
  | marked min max body ih =>
    rw [listing_marked] at hr
    exact repeated_groups (fun a ha => ih env a ha) hr
  | repetition min max body hm ih =>
    rw [listing_repetition hm] at hr
    exact repeated_groups (fun a ha => ih env a ha) hr

theorem alternation_groups {branches : List (List Node)} {seen : List Branch}
    (hr : r ∈ alternation (branchesListings cap seen branches env)) :
    ∀ g ∈ r.groups, g.1 ∈ captureIndices (branchesNodes branches) :=
  alternation_groups_of (fun _ _ n _ => n.listing_groups cap) hr

end Groups

end SequenceConstraint
