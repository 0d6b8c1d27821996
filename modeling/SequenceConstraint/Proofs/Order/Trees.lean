import Mathlib.Data.List.Forall2
import SequenceConstraint.Proofs.Agreement.Nodes
import SequenceConstraint.Proofs.Order.Listings

/-!
# The order of the texts of a tree

A stream hands out the texts of its tree in the order of `Tree.texts`, and each as often. The plan
of the tree and the tree itself are listed side by side: the plan binds texts to names, the tree
binds them to indices, and after every state of the one and the entry beside it in the other, the
indices that are still referred to have the same texts (`Alike`).

An alternation of several branches is a barrier. It shows a text once only, so which of its groups
take part hangs on what has been shown before; what one of its branches captures must not be
referred to from outside (`Tree.Confined`). Past a barrier only the texts matter.

## Main statements

* `Node.listedAlike` — a node and its plan are listed alike
* `Tree.Confined.toList_stream` — the texts of a stream
-/

namespace SequenceConstraint

/-- Whether what one of several branches captures is referred to only in that branch. -/
def Tree.Confined (tree : Tree) : Prop :=
  ∀ branches, (branches = tree.branches ∨ ∃ kind, .group kind branches ∈ tree.nodes) →
    1 < branches.length → ∀ b ∈ branches, tree.Keeps (branchNodes b)

/-! ## Texts by name and by index -/

/-- Whether texts bound to names and texts bound to indices are the same for the indices in `live`.
An index has no text before it is recorded, and a name none before it is given. -/
structure Alike (live : List Nat) (σ : Naming) (env env' : Bindings) : Prop where
  valid : σ.Valid
  texts : ∀ index ∈ live, ∀ name, σ.name? index = some name → env.text name = env'.text index
  notGiven : ∀ name, σ.fresh ≤ name → env.text name = []
  notRecorded : ∀ index ∈ live, index ≤ σ.limit → σ.name? index = none → env'.text index = []

theorem Bindings.text_cons (name : Nat) (text : List Char) (env : Bindings) (other : Nat) :
    Bindings.text ((name, text) :: env) other = if other = name then text else env.text other := by
  unfold Bindings.text
  rw [List.lookup_cons]
  by_cases h : other = name
  · rw [if_pos h, beq_iff_eq.2 h]
    rfl
  · rw [if_neg h, beq_eq_false_iff_ne.2 h]

namespace Alike

variable {live later : List Nat} {σ σ' : Naming} {env env' groups groups' : Bindings}

theorem start (live : List Nat) (limit : Nat) : Alike live (.start limit) [] [] :=
  ⟨Naming.valid_start limit, fun _ _ _ _ => rfl, fun _ _ => rfl, fun _ _ _ _ => rfl⟩

theorem mono (h : Alike live σ env env') (hlive : ∀ i ∈ later, i ∈ live) :
    Alike later σ env env' where
  valid := h.valid
  texts i hi := h.texts i (hlive i hi)
  notGiven := h.notGiven
  notRecorded i hi := h.notRecorded i (hlive i hi)

/-- What comes between leaves the indices alone that it does not capture. -/
theorem frame {indices names : List Nat} (h : Alike live σ env env')
    (hlive : ∀ i ∈ later, i ∈ live) (hout : ∀ i ∈ later, i ∉ indices)
    (hext : Naming.Extends indices names σ σ') (hnames : ∀ g ∈ groups, g.1 ∈ names)
    (hindices : ∀ g ∈ groups', g.1 ∈ indices) :
    Alike later σ' (groups ++ env) (groups' ++ env') := by
  have hcaptured : ∀ i ∈ later, Bindings.text (groups' ++ env') i = env'.text i := by
    intro i hi
    refine Bindings.text_append fun g hg he => ?_
    exact hout i hi (he ▸ hindices g hg)
  refine ⟨hext.valid h.valid, fun i hi name hname => ?_, fun name hname => ?_,
    fun i hi hlimit hnone => ?_⟩
  · rw [hext.kept i (hout i hi)] at hname
    rw [hcaptured i hi, Bindings.text_append, h.texts i (hlive i hi) name hname]
    -- names given in between are fresh
    rintro g hg rfl
    have hfresh := hext.names g.1 (hnames g hg)
    have hgiven := h.valid i g.1 hname
    omega
  · have hfresh := hext.fresh
    rw [Bindings.text_append, h.notGiven name (by omega)]
    rintro g hg rfl
    have hgiven := hext.names g.1 (hnames g hg)
    omega
  · rw [hext.kept i (hout i hi)] at hnone
    rw [hext.limit] at hlimit
    rw [hcaptured i hi]
    exact h.notRecorded i (hlive i hi) hlimit hnone

/-- **What is left out** has no text, by name or by index. -/
theorem leaveOut {indices names : List Nat} (h : Alike live σ env env')
    (hlive : ∀ i ∈ later, i ∈ live) (hunnamed : ∀ i ∈ indices, σ.name? i = none)
    (hext : Naming.Extends indices names σ σ') : Alike later σ' env env' where
  valid := hext.valid h.valid
  texts i hi name hname := by
    by_cases hindex : i ∈ indices
    · have hnone := hunnamed i hindex
      rcases hext.given i name hname with hsome | ⟨hfresh, hlimit⟩
      · rw [hnone] at hsome
        cases hsome
      · rw [h.notGiven name hfresh, h.notRecorded i (hlive i hi) hlimit hnone]
    · rw [hext.kept i hindex] at hname
      exact h.texts i (hlive i hi) name hname
  notGiven name hname := h.notGiven name (Nat.le_trans hext.fresh hname)
  notRecorded i hi hlimit hnone := by
    rw [hext.limit] at hlimit
    refine h.notRecorded i (hlive i hi) hlimit ?_
    by_cases hindex : i ∈ indices
    · exact hunnamed i hindex
    · rwa [hext.kept i hindex] at hnone

/-- **A group that is completed** is bound to a name and to its index. -/
theorem record {index : Nat} {body : Plan} {w : List Char} (h : Alike live σ env env')
    (hindex : index ≤ σ.limit) :
    Alike live (σ.record index body).2 ((σ.fresh, w) :: env) ((index, w) :: env') := by
  have hrecord : (σ.record index body).2.fresh = σ.fresh + 1 ∧
      (σ.record index body).2.limit = σ.limit := by
    rw [Naming.record, if_pos hindex]
    exact ⟨rfl, rfl⟩
  refine ⟨h.valid.record, fun i hi name hname => ?_, fun name hname => ?_,
    fun i hi hlimit hnone => ?_⟩
  · rw [Naming.name?_record hindex] at hname
    rw [Bindings.text_cons, Bindings.text_cons]
    by_cases hsame : i = index
    · rw [if_pos hsame, Option.some.injEq] at hname
      rw [if_pos hname.symm, if_pos hsame]
    · rw [if_neg hsame] at hname
      have hgiven := h.valid i name hname
      rw [if_neg (by omega), if_neg hsame]
      exact h.texts i hi name hname
  · rw [hrecord.1] at hname
    rw [Bindings.text_cons, if_neg (by omega)]
    exact h.notGiven name (by omega)
  · rw [hrecord.2] at hlimit
    rw [Naming.name?_record hindex] at hnone
    split at hnone
    · cases hnone
    · rename_i hother
      rw [Bindings.text_cons, if_neg hother]
      exact h.notRecorded i hi hlimit hnone

/-- A group whose index is not recorded: nothing refers to it. -/
theorem skip {index : Nat} {w : List Char} (h : Alike live σ env env')
    (hindex : ¬index ≤ σ.limit) (hnone : σ.name? index = none) :
    Alike live σ env ((index, w) :: env') where
  valid := h.valid
  texts i hi name hname := by
    rw [Bindings.text_cons, if_neg]
    · exact h.texts i hi name hname
    · rintro rfl
      rw [hnone] at hname
      cases hname
  notGiven := h.notGiven
  notRecorded i hi hlimit hi' := by
    rw [Bindings.text_cons, if_neg]
    · exact h.notRecorded i hi hlimit hi'
    · rintro rfl
      exact hindex hlimit

end Alike

/-! ## Listings side by side -/

/-- Whether a state of a plan and an entry of a listing show the same, and leave the same texts for
the indices in `later`. -/
abbrev ShownAlike (later : List Nat) (σ : Naming) (env env' : Bindings) : Shown → Shown → Prop :=
  Shown.Related fun groups groups' => Alike later σ (groups ++ env) (groups' ++ env')

section Listed

variable {cap : Nat} {tree : Tree} {later : List Nat} {σ σ' : Naming} {env env' : Bindings}

/-- If all that is shown leaves the same texts anyway, only the shown texts matter. -/
theorem forall₂_of_map_text {l l' : List Shown} (h : l.map Shown.text = l'.map Shown.text)
    (hafter : ∀ r ∈ l, ∀ r' ∈ l', Alike later σ (r.groups ++ env) (r'.groups ++ env')) :
    List.Forall₂ (ShownAlike later σ env env') l l' := by
  induction l generalizing l' with
  | nil =>
    rw [List.map_nil, eq_comm, List.map_eq_nil_iff] at h
    subst h
    exact .nil
  | cons r l ih =>
    cases l' with
    | nil => cases h
    | cons r' l' =>
      obtain ⟨htext, h⟩ := List.cons.inj h
      refine .cons ⟨htext, hafter r List.mem_cons_self r' List.mem_cons_self⟩ (ih h ?_)
      exact fun a ha a' ha' =>
        hafter a (List.mem_cons_of_mem r ha) a' (List.mem_cons_of_mem r' ha')

/-- **Past a part that keeps its references** the texts for the references after it are the same,
whatever has been shown in it. -/
theorem Fits.alike {part : List Node} {names : List Nat} {groups groups' : Bindings}
    (hfits : Fits tree part later σ) (hkeeps : tree.Keeps part)
    (hext : Naming.Extends (captureIndices part) names σ σ') (hnames : ∀ g ∈ groups, g.1 ∈ names)
    (hindices : ∀ g ∈ groups', g.1 ∈ captureIndices part)
    (h : Alike (referenceIndices part ++ later) σ env env') :
    Alike later σ' (groups ++ env) (groups' ++ env') :=
  h.frame (fun _ hi => List.mem_append_right _ hi) (hfits.not_captured hkeeps) hext hnames hindices

/-- Whether a node and its plan are listed alike wherever the node stands in a tree. -/
def Node.ListedAlike (cap : Nat) (tree : Tree) (n : Node) : Prop :=
  ∀ later σ p σ' env env', Fits tree n.nodes later σ → n.plan σ = .ok (p, σ') →
    Alike (referenceIndices n.nodes ++ later) σ env env' →
      List.Forall₂ (ShownAlike later σ' env env') (p.listing cap env) (n.listing cap env')

/-- Nodes that show one of some texts and capture nothing. -/
theorem listedAlike_texts (h : Alike later σ env env') (texts : List (List Char)) :
    List.Forall₂ (ShownAlike later σ env env') (texts.map fun w => ⟨w, []⟩)
      (texts.map fun w => ⟨w, []⟩) := by
  refine forall₂_of_map_text rfl fun r hr r' hr' => ?_
  obtain ⟨w, -, rfl⟩ := List.mem_map.1 hr
  obtain ⟨w', -, rfl⟩ := List.mem_map.1 hr'
  exact h

/-- **A repetition and its plan** are listed alike if its body is. -/
theorem listedAlike_repeated {body : Node} {b : Plan} {min : Nat} {max : Option Nat}
    (hbody : body.ListedAlike cap tree) (hfits : Fits tree body.nodes later σ)
    (hplan : body.plan σ = .ok (b, σ'))
    (h : Alike (referenceIndices body.nodes ++ later) σ env env') :
    List.Forall₂ (ShownAlike later σ' env env') ((Plan.times min max b).listing cap env)
      (repeated min (Plan.limit cap min max) (body.listing cap env')) := by
  have hnone : Alike later σ' ([] ++ env) ([] ++ env') :=
    h.leaveOut (fun _ hi => List.mem_append_right _ hi) hfits.unnamed (body.plansFreshly σ b σ' hplan)
  rw [Plan.listing_times]
  exact forall₂_repeated min _ (hbody later σ b σ' env env' hfits hplan h) hnone

/-- **A branch and its plan** are listed alike if its nodes are. -/
theorem listedAlike_branch {branch : List Node} {ps : List Plan}
    (hnodes : ∀ n ∈ branch, n.ListedAlike cap tree) (hfits : Fits tree (branchNodes branch) later σ)
    (hplan : planBranch branch σ = .ok (ps, σ'))
    (h : Alike (referenceIndices (branchNodes branch) ++ later) σ env env') :
    List.Forall₂ (ShownAlike later σ' env env') (Plan.partsListing cap env ps)
      (branchListing cap branch env') := by
  induction branch generalizing σ ps env env' with
  | nil =>
    obtain ⟨rfl, rfl⟩ := planBranch_nil_iff.1 hplan
    rw [Plan.partsListing, branchListing]
    exact .cons ⟨rfl, h⟩ .nil
  | cons n ns ih =>
    obtain ⟨hn, hns⟩ := List.forall_mem_cons.1 hnodes
    have h' : Alike (referenceIndices n.nodes ++ (referenceIndices (branchNodes ns) ++ later))
        σ env env' := by
      simpa [branchNodes] using h
    by_cases hlook : n.isLookahead = true
    · -- a lookahead group has no plan
      rw [planBranch_skip hlook] at hplan
      rw [branchListing_skip hlook]
      exact ih hns (hfits.second (Naming.Extends.refl σ)) hplan
        (h'.mono fun i hi => List.mem_append_right _ hi)
    · rw [Bool.not_eq_true] at hlook
      obtain ⟨p, σ₁, rest, hp, hrest, rfl⟩ := (planBranch_cons_iff hlook).1 hplan
      have hfirst := hn _ σ p σ₁ env env' hfits.first hp h'
      have hsecond := hfits.second (n.plansFreshly σ p σ₁ hp)
      rw [Plan.partsListing, branchListing_cons hlook]
      refine List.rel_flatMap hfirst fun a a' ha => ?_
      refine List.rel_map (fun b b' hb => ?_) (ih hns hsecond hrest ha.groups)
      refine ⟨congrArg₂ (· ++ ·) ha.text hb.text, ?_⟩
      show Alike later σ' ((b.groups ++ a.groups) ++ env) ((b'.groups ++ a'.groups) ++ env')
      rw [List.append_assoc, List.append_assoc]
      exact hb.groups

/-- **The branches of an alternation and their plans** show the same texts. A branch that has been
gone through changes nothing for the branches after it. -/
theorem map_text_branchListings {branches : List (List Node)} {seen : List Branch}
    {ps : List Plan} (hnodes : ∀ b ∈ branches, ∀ n ∈ b, n.ListedAlike cap tree)
    (hkeeps : ∀ b ∈ branches, tree.Keeps (branchNodes b))
    (hfits : Fits tree (branchesNodes branches) later σ)
    (hplan : planBranches seen branches σ = .ok (ps, σ'))
    (h : Alike (referenceIndices (branchesNodes branches) ++ later) σ env env') :
    (Plan.branchListings cap env ps).map (List.map Shown.text) =
      (branchesListings cap seen branches env').map (List.map Shown.text) := by
  induction branches generalizing σ seen ps env with
  | nil =>
    obtain ⟨rfl, -⟩ := planBranches_nil_iff.1 hplan
    rw [Plan.branchListings, branchesListings, List.map_nil]
  | cons b bs ih =>
    obtain ⟨hb, hbs⟩ := List.forall_mem_cons.1 hnodes
    obtain ⟨hkeep, hkeeps⟩ := List.forall_mem_cons.1 hkeeps
    have h' : Alike
        (referenceIndices (branchNodes b) ++ (referenceIndices (branchesNodes bs) ++ later)) σ env
        env' := by
      simpa [branchesNodes] using h
    by_cases hseen : takingNodes b ∈ seen
    · rw [planBranches_skip hseen] at hplan
      rw [branchesListings_skip hseen]
      exact ih hbs hkeeps (hfits.second (Naming.Extends.refl σ)) hplan
        (h'.mono fun i hi => List.mem_append_right _ hi)
    · obtain ⟨parts, σ₁, rest, hparts, hrest, rfl⟩ := (planBranches_cons_iff hseen).1 hplan
      have hext := planBranch_extends hparts
      have hfirst := listedAlike_branch hb hfits.first hparts h'
      have hpassed : Alike (referenceIndices (branchesNodes bs) ++ later) σ₁
          ((Plan.concat parts).leftover cap env ++ env) ([] ++ env') :=
        hfits.first.alike hkeep hext Plan.leftover_names (fun _ => List.not_mem_nil.elim) h'
      rw [Plan.branchListings, branchesListings_cons hseen, List.map_cons, List.map_cons,
        Plan.listing_concat, map_text_eq hfirst, ih hbs hkeeps (hfits.second hext) hrest hpassed]

theorem listing_ofBranches (ps : List Plan) :
    (Plan.ofBranches ps).listing cap env = alternation (Plan.branchListings cap env ps) := by
  unfold Plan.ofBranches
  split
  · rfl
  · rename_i hlone
    rw [Plan.listing_choice]
    rcases ps with - | ⟨p, - | ⟨q, ps⟩⟩
    · rfl
    · exact absurd rfl (hlone p)
    · rfl

/-- **An alternation and its plan** are listed alike if the nodes in it are. -/
theorem listedAlike_branches {branches : List (List Node)} {ps : List Plan}
    (hnodes : ∀ b ∈ branches, ∀ n ∈ b, n.ListedAlike cap tree)
    (hkeeps : 1 < branches.length → ∀ b ∈ branches, tree.Keeps (branchNodes b))
    (hfits : Fits tree (branchesNodes branches) later σ)
    (hplan : planBranches [] branches σ = .ok (ps, σ'))
    (h : Alike (referenceIndices (branchesNodes branches) ++ later) σ env env') :
    List.Forall₂ (ShownAlike later σ' env env') ((Plan.ofBranches ps).listing cap env)
      (alternation (branchesListings cap [] branches env')) := by
  by_cases hlone : ∃ b, branches = [b]
  · -- a lone branch is no barrier
    obtain ⟨b, rfl⟩ := hlone
    obtain ⟨parts, σ₁, rest, hparts, hrest, rfl⟩ :=
      (planBranches_cons_iff List.not_mem_nil).1 hplan
    obtain ⟨rfl, rfl⟩ := planBranches_nil_iff.1 hrest
    rw [branchesListings_cons List.not_mem_nil, branchesListings]
    simp only [branchesNodes, List.append_nil] at hfits h
    show List.Forall₂ _ ((Plan.concat parts).listing cap env) (branchListing cap b env')
    rw [Plan.listing_concat]
    exact listedAlike_branch (hnodes b List.mem_cons_self) hfits hparts h
  · have hkeeps := keeps_of_not_lone hkeeps hlone
    refine forall₂_of_map_text ?_ fun r hr r' hr' => ?_
    · rw [listing_ofBranches]
      exact map_text_alternation (map_text_branchListings hnodes hkeeps hfits hplan h)
    · have hnames := (Plan.mem_listing.1 hr).names
      rw [names_ofBranches] at hnames
      exact hfits.alike (hfits.keeps_branches hkeeps) (planBranches_extends hplan) hnames
        (alternation_groups hr') h

/-- **A group around a body** shows what the body shows, bound to a name and to the index of the
group. An index that is not recorded must stand for nothing. -/
theorem exists_listing_close {kind : GroupKind} {body p : Plan} {σ₁ : Naming}
    (hclose : (p, σ') = kind.close body σ₁)
    (hunnamed : ∀ index, kind = .capture index → σ₁.name? index = none) :
    ∃ f : Shown → Shown, p.listing cap env = (body.listing cap env).map f ∧
      ∀ r r', ShownAlike later σ₁ env env' r r' →
        ShownAlike later σ' env env' (f r) (kind.bind r') := by
  cases kind with
  | capture index =>
    have hrecord := hclose
    by_cases hindex : index ≤ σ₁.limit
    · rw [GroupKind.close, Naming.record, if_pos hindex] at hrecord
      obtain ⟨rfl, -⟩ := Prod.mk.inj hrecord
      obtain ⟨-, rfl⟩ := Prod.mk.inj hclose
      refine ⟨_, Plan.listing_named _ _, fun b b' hb => ⟨hb.text, ?_⟩⟩
      show Alike later _ ((σ₁.fresh, b.text) :: (b.groups ++ env))
        ((index, b'.text) :: (b'.groups ++ env'))
      rw [hb.text]
      exact hb.groups.record hindex
    · rw [GroupKind.close, Naming.record, if_neg hindex] at hrecord
      obtain ⟨rfl, rfl⟩ := Prod.mk.inj hrecord
      exact ⟨id, (List.map_id _).symm, fun b b' hb =>
        ⟨hb.text, hb.groups.skip hindex (hunnamed index rfl)⟩⟩
  | plain =>
    obtain ⟨rfl, rfl⟩ := Prod.mk.inj hclose
    exact ⟨id, (List.map_id _).symm, fun b b' hb => hb⟩
  | lookahead negative =>
    obtain ⟨rfl, rfl⟩ := Prod.mk.inj hclose
    exact ⟨id, (List.map_id _).symm, fun b b' hb => hb⟩

/-- The index of a capturing group stands for nothing before the group, nor at its end. -/
theorem Fits.unnamed_capture {index : Nat} {branches : List (List Node)} {names : List Nat}
    (hfits : Fits tree (Node.group (.capture index) branches).nodes later σ)
    (hext : Naming.Extends (captureIndices (branchesNodes branches)) names σ σ') :
    σ'.name? index = none := by
  have hdistinct := hfits.distinct
  rw [captureIndices_capture, List.nodup_cons] at hdistinct
  rw [hext.kept index hdistinct.1]
  exact hfits.unnamed index List.mem_cons_self

/-- **A group and its plan** are listed alike if what stands in the group is. -/
theorem listedAlike_group {kind : GroupKind} {branches : List (List Node)} {p : Plan}
    (hnodes : ∀ b ∈ branches, ∀ n ∈ b, n.ListedAlike cap tree)
    (hkeeps : 1 < branches.length → ∀ b ∈ branches, tree.Keeps (branchNodes b))
    (hfits : Fits tree (Node.group kind branches).nodes later σ)
    (hplan : (Node.group kind branches).plan σ = .ok (p, σ'))
    (h : Alike (referenceIndices (Node.group kind branches).nodes ++ later) σ env env') :
    List.Forall₂ (ShownAlike later σ' env env') (p.listing cap env)
      ((Node.group kind branches).listing cap env') := by
  obtain ⟨ps, σ₁, hps, hclose⟩ := plan_group_iff.1 hplan
  have hbranches := listedAlike_branches hnodes hkeeps
    (hfits.within (List.sublist_cons_self _ _)) hps h
  have hunnamed : ∀ index, kind = .capture index → σ₁.name? index = none := by
    rintro index rfl
    exact hfits.unnamed_capture (planBranches_extends hps)
  obtain ⟨f, hlisting, hf⟩ := exists_listing_close hclose hunnamed
  rw [Node.listing, hlisting]
  exact List.rel_map (fun b b' hb => hf b b' hb) hbranches

/-- **A node and its plan are listed alike.** -/
theorem Node.listedAlike (cap : Nat) (htree : tree.Confined) (n : Node) :
    n.ListedAlike cap tree := by
  induction n with
  | char c =>
    intro later σ p σ' env env' hfits hplan h
    obtain ⟨rfl, rfl⟩ := plan_char_iff.1 hplan
    rw [Plan.listing_texts, Node.listing]
    exact listedAlike_texts h [[c]]
  | charClass k =>
    intro later σ p σ' env env' hfits hplan h
    obtain ⟨rfl, rfl⟩ := plan_charClass_iff.1 hplan
    have hlisting : (Node.charClass k).listing cap env' =
        (k.resolve.toList.map fun c => [c]).map fun w => ⟨w, []⟩ := by
      rw [Node.listing, List.map_map]
      rfl
    rw [Plan.listing_texts, hlisting]
    exact listedAlike_texts h _
  | anchor a =>
    intro later σ p σ' env env' hfits hplan h
    obtain ⟨rfl, rfl⟩ := plan_anchor_iff.1 hplan
    rw [Plan.listing_texts, Node.listing]
    exact listedAlike_texts h [[]]
  | backreference index =>
    intro later σ p σ' env env' hfits hplan h
    obtain ⟨name, hname, rfl, rfl⟩ := plan_backreference_iff.1 hplan
    have htext := h.texts index List.mem_cons_self name hname
    rw [Plan.listing_echo, Node.listing, htext]
    exact listedAlike_texts (h.mono fun i hi => List.mem_cons_of_mem index hi) [env'.text index]
  | group kind branches ih =>
    intro later σ p σ' env env' hfits hplan h
    have hself := hfits.mem _ (Node.self_mem_nodes _)
    exact listedAlike_group ih (htree branches (.inr ⟨kind, hself⟩)) hfits hplan h
  | marked min max body ih =>
    intro later σ p σ' env env' hfits hplan h
    obtain ⟨b, hb, rfl⟩ := plan_marked_iff.1 hplan
    have hbody := hfits.within ((List.sublist_cons_self _ _).trans (List.sublist_cons_self _ _))
    rw [listing_marked]
    exact listedAlike_repeated ih hbody hb h
  | repetition min max body hm ih =>
    intro later σ p σ' env env' hfits hplan h
    obtain ⟨b, hb, rfl⟩ := (plan_repetition_iff hm).1 hplan
    have hbody := hfits.within (List.sublist_cons_self _ _)
    rw [listing_repetition hm]
    exact listedAlike_repeated ih hbody hb h

end Listed

/-! ## Streams -/

theorem Fits.whole {tree : Tree} (h : (captureIndices tree.nodes).Nodup) :
    Fits tree tree.nodes [] (.start tree.captures) where
  mem _ hn := hn
  count _ := Nat.le_refl _
  distinct := h
  unnamed _ _ := rfl
  limit := rfl

/-- The texts of the states of a plan are those that its tree lists. -/
theorem Tree.Confined.map_text_run {tree : Tree} (h : tree.Confined)
    (hdistinct : (captureIndices tree.nodes).Nodup) {p : Plan} (hp : tree.plan = .ok p)
    (cap : Nat) : (p.run cap []).toList.map (fun now => (now []).text) = tree.texts cap := by
  obtain ⟨ps, σ, hps, rfl⟩ := Tree.plan_eq_ok_iff.1 hp
  have hnodes : ∀ b ∈ tree.branches, ∀ n ∈ b, n.ListedAlike cap tree := fun _ _ n _ =>
    n.listedAlike cap h
  have hlisted := listedAlike_branches hnodes (h tree.branches (.inl rfl))
    (Fits.whole hdistinct) hps (.start _ _)
  rw [Tree.texts, ← map_text_eq hlisted, Plan.listing, List.map_map]
  rfl

/-- **The texts of a stream** are those that the tree lists, in the same order and as often. -/
theorem Tree.Confined.toList_stream {tree : Tree} (h : tree.Confined)
    (hdistinct : (captureIndices tree.nodes).Nodup) {cap : Nat} {stream : Stream}
    (hstream : Stream.ofTree cap tree = .ok stream) :
    stream.toList = tree.texts cap ∧
      ∀ count, (stream.take count).1 = (tree.texts cap).take count := by
  obtain ⟨p, hp, rfl⟩ := Stream.ofTree_eq_ok_iff.1 hstream
  have htexts : (Stream.ofPlan cap p).toList = tree.texts cap := by
    rw [Stream.toList_ofPlan, h.map_text_run hdistinct hp]
  exact ⟨htexts, fun count => by rw [Stream.fst_take, htexts]⟩

/-- The tree of `((B|[AB])\2){1,2}`. -/
def paired : Tree :=
  ⟨[[.repetition 1 (some 2) (.group (.capture 1)
      [[.group (.capture 2) [[.char 'B'], [.charClass ⟨false, [.interval 'A' 'B']⟩]],
        .backreference 2]])]], 2⟩

theorem paired_confined : paired.Confined := by
  intro branches h hmany
  rcases h with rfl | ⟨kind, h⟩
  · simp [paired] at hmany
  · simp [paired, Tree.nodes, branchesNodes, branchNodes, Node.nodes] at h
    rcases h with ⟨rfl, rfl⟩ | ⟨rfl, rfl⟩
    · simp at hmany
    · decide

theorem paired_toList_stream :
    paired.Confined ∧ (captureIndices paired.nodes).Nodup ∧
      ∃ stream, Stream.ofTree 0 paired = .ok stream ∧
        stream.toList = ["BB", "AA", "BBBB", "BBAA", "AABB", "AAAA"].map String.toList := by
  have hdistinct : (captureIndices paired.nodes).Nodup := by decide
  refine ⟨paired_confined, hdistinct, _, rfl, ?_⟩
  rw [(paired_confined.toList_stream hdistinct rfl).1]
  decide +kernel

end SequenceConstraint
