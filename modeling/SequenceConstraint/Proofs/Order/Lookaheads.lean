import SequenceConstraint.Proofs.Generation.Pruning
import SequenceConstraint.Proofs.Order.Trees

/-!
# Lookahead groups generate nothing

What stands in the lookahead groups of a tree has no part in its texts. If no branches are told
apart by lookahead groups alone, the pruned tree (`Tree.pruned`), which knows nothing of those
groups, has the same plan. Otherwise the tree is listed beside the pruned tree. The two lists have
the same texts, though not always as often: branches that become alike are both gone through for the
one tree and are one branch of the other. So every entry of the one list has a partner in the other,
each way (`EachWay`), and after both of them the indices that are still referred to have the same
texts.

That needs references that are confined. Otherwise it matters to what is referred to whether a text
has come up before in another branch. And no repetition may stand directly around a lookahead group,
since there it is generated as any other group.

## Main statements

* `Node.eachWay_pruned` — a node and the pruned node are listed alike, each way
* `Tree.sameTexts_of_emptied_eq` — trees that differ in their lookahead groups have the same texts
-/

namespace SequenceConstraint

/-! ## Partners each way -/

/-- Whether every entry of each of two lists is related to some entry of the other. -/
structure EachWay {α β : Type} (R : α → β → Prop) (l : List α) (l' : List β) : Prop where
  there : ∀ a ∈ l, ∃ b ∈ l', R a b
  back : ∀ b ∈ l', ∃ a ∈ l, R a b

namespace EachWay

variable {α β γ δ : Type} {R : α → β → Prop} {S : γ → δ → Prop} {l : List α} {l' : List β}

theorem of_forall₂ (h : List.Forall₂ R l l') : EachWay R l l' := by
  induction h with
  | nil => exact ⟨fun _ => List.not_mem_nil.elim, fun _ => List.not_mem_nil.elim⟩
  | cons hab _ ih =>
    refine ⟨List.forall_mem_cons.2 ⟨⟨_, List.mem_cons_self, hab⟩, fun a ha => ?_⟩,
      List.forall_mem_cons.2 ⟨⟨_, List.mem_cons_self, hab⟩, fun b hb => ?_⟩⟩
    · obtain ⟨b, hb, hR⟩ := ih.there a ha
      exact ⟨b, List.mem_cons_of_mem _ hb, hR⟩
    · obtain ⟨a, ha, hR⟩ := ih.back b hb
      exact ⟨a, List.mem_cons_of_mem _ ha, hR⟩

theorem map {f : α → γ} {g : β → δ} (h : EachWay R l l') (hfg : ∀ a b, R a b → S (f a) (g b)) :
    EachWay S (l.map f) (l'.map g) where
  there := by
    refine List.forall_mem_map.2 fun a ha => ?_
    obtain ⟨b, hb, hR⟩ := h.there a ha
    exact ⟨g b, List.mem_map_of_mem hb, hfg a b hR⟩
  back := by
    refine List.forall_mem_map.2 fun b hb => ?_
    obtain ⟨a, ha, hR⟩ := h.back b hb
    exact ⟨f a, List.mem_map_of_mem ha, hfg a b hR⟩

theorem flatMap {f : α → List γ} {g : β → List δ} (h : EachWay R l l')
    (hfg : ∀ a b, R a b → EachWay S (f a) (g b)) : EachWay S (l.flatMap f) (l'.flatMap g) where
  there c hc := by
    obtain ⟨a, ha, hc⟩ := List.mem_flatMap.1 hc
    obtain ⟨b, hb, hR⟩ := h.there a ha
    obtain ⟨d, hd, hS⟩ := (hfg a b hR).there c hc
    exact ⟨d, List.mem_flatMap.2 ⟨b, hb, hd⟩, hS⟩
  back d hd := by
    obtain ⟨b, hb, hd⟩ := List.mem_flatMap.1 hd
    obtain ⟨a, ha, hR⟩ := h.back b hb
    obtain ⟨c, hc, hS⟩ := (hfg a b hR).back d hd
    exact ⟨c, List.mem_flatMap.2 ⟨a, ha, hc⟩, hS⟩

theorem wordsOf {l' : List α} {R : α → α → Prop} (h : EachWay R l l') (k : Nat) :
    EachWay (List.Forall₂ R) (wordsOf l k) (wordsOf l' k) := by
  induction k with
  | zero => exact of_forall₂ (.cons .nil .nil)
  | succ k ih =>
    exact ih.flatMap fun w w' hw => h.map fun a a' ha => List.rel_append hw (.cons ha .nil)

variable {P : Bindings → Bindings → Prop} {rs rs' : List Shown}

theorem repeated (h : EachWay (Shown.Related P) rs rs') (min limit : Nat) (hnone : P [] []) :
    EachWay (Shown.Related P) (repeated min limit rs) (repeated min limit rs') := by
  have hcounts : EachWay Eq (List.range' min (limit + 1 - min))
      (List.range' min (limit + 1 - min)) := ⟨fun k hk => ⟨k, hk, rfl⟩, fun k hk => ⟨k, hk, rfl⟩⟩
  refine hcounts.flatMap fun k _ hk => ?_
  subst hk
  exact (h.wordsOf k).map fun w w' hw => related_ofRepeats hw hnone

/-- Related lists have the same texts. -/
theorem mem_map_text (h : EachWay (Shown.Related P) rs rs') (w : List Char) :
    w ∈ rs.map Shown.text ↔ w ∈ rs'.map Shown.text := by
  simp only [List.mem_map]
  constructor
  · rintro ⟨r, hr, rfl⟩
    obtain ⟨r', hr', hrelated⟩ := h.there r hr
    exact ⟨r', hr', hrelated.text.symm⟩
  · rintro ⟨r', hr', rfl⟩
    obtain ⟨r, hr, hrelated⟩ := h.back r' hr'
    exact ⟨r, hr, hrelated.text⟩

/-- If any two entries have related groups, only the texts matter. -/
theorem of_mem_map_text (h : ∀ w, w ∈ rs.map Shown.text ↔ w ∈ rs'.map Shown.text)
    (hgroups : ∀ r ∈ rs, ∀ r' ∈ rs', P r.groups r'.groups) :
    EachWay (Shown.Related P) rs rs' where
  there r hr := by
    obtain ⟨r', hr', htext⟩ := List.mem_map.1 ((h r.text).1 (List.mem_map_of_mem hr))
    exact ⟨r', hr', htext.symm, hgroups r hr r' hr'⟩
  back r' hr' := by
    obtain ⟨r, hr, htext⟩ := List.mem_map.1 ((h r'.text).2 (List.mem_map_of_mem hr'))
    exact ⟨r, hr, htext, hgroups r hr r' hr'⟩

end EachWay

/-! ## The texts of an alternation -/

theorem mem_map_text_alternation {listings : List (List Shown)} {w : List Char} :
    w ∈ (alternation listings).map Shown.text ↔
      ∃ listing ∈ listings, w ∈ listing.map Shown.text := by
  simp only [List.mem_map]
  constructor
  · rintro ⟨r, hr, rfl⟩
    obtain ⟨listing, hlisting, hr⟩ := mem_of_mem_alternation hr
    exact ⟨listing, hlisting, r, hr, rfl⟩
  · rintro ⟨listing, hlisting, r, hr, rfl⟩
    exact exists_mem_alternation hlisting hr

/-- A branch that is left out has one like it that is kept, or that has been seen before. -/
theorem exists_mem_keptBranches_or (p : Branch → Prop) (seen : List Branch)
    (bs : List (List Node)) :
    ((∃ b ∈ keptBranches seen bs, p (takingNodes b)) ∨ ∃ c ∈ seen, p c) ↔
      (∃ b ∈ bs, p (takingNodes b)) ∨ ∃ c ∈ seen, p c := by
  induction bs generalizing seen with
  | nil => rw [keptBranches]
  | cons b bs ih =>
    rw [keptBranches]
    by_cases hseen : takingNodes b ∈ seen
    · have hb : p (takingNodes b) → ∃ c ∈ seen, p c := fun h => ⟨_, hseen, h⟩
      rw [if_pos (List.contains_iff_mem.2 hseen), ih]
      simp only [List.mem_cons, exists_eq_or_imp]
      rw [or_assoc]
      exact (or_iff_right_of_imp fun h => .inr (hb h)).symm
    · have htail := ih (takingNodes b :: seen)
      rw [if_neg (mt List.contains_iff_mem.1 hseen)]
      simp only [List.mem_cons, exists_eq_or_imp] at htail ⊢
      rw [or_assoc, or_left_comm, htail, or_left_comm, or_assoc]

theorem exists_mem_keptBranches (p : Branch → Prop) (bs : List (List Node)) :
    (∃ b ∈ keptBranches [] bs, p (takingNodes b)) ↔ ∃ b ∈ bs, p (takingNodes b) := by
  simpa using exists_mem_keptBranches_or p [] bs

theorem branchListing_takingNodes (cap : Nat) (b : List Node) (env : Bindings) :
    branchListing cap (takingNodes b) env = branchListing cap b env := by
  induction b generalizing env with
  | nil => rfl
  | cons n ns ih =>
    by_cases hlook : n.isLookahead = true
    · rw [takingNodes_skip hlook, branchListing_skip hlook, ih]
    · rw [Bool.not_eq_true] at hlook
      rw [takingNodes_cons hlook, branchListing_cons hlook, branchListing_cons hlook]
      exact List.flatMap_congr fun a _ => congrArg (List.map a.beside) (ih _)

/-- The texts of the pruned branches do not depend on which of them are told apart. -/
theorem mem_map_text_prunedBranches {cap : Nat} {branches : List (List Node)} {env : Bindings}
    {w : List Char} :
    w ∈ (alternation (branchesListings cap [] (prunedBranches branches) env)).map Shown.text ↔
      ∃ b ∈ keptBranches [] branches,
        w ∈ (branchListing cap (prunedBranch b) env).map Shown.text := by
  have hpruned := exists_mem_keptBranches
    (fun c => w ∈ (branchListing cap c env).map Shown.text) (prunedBranches branches)
  have hkept := exists_mem_keptBranches
    (fun c => w ∈ (branchListing cap (c.map Node.pruned) env).map Shown.text) branches
  simp only [branchListing_takingNodes, ← prunedBranch_eq] at hpruned hkept
  rw [mem_map_text_alternation, branchesListings_eq, hkept]
  simp only [List.mem_map, exists_exists_and_eq_and] at hpruned ⊢
  rw [hpruned, prunedBranches_eq]
  simp only [List.mem_map, exists_exists_and_eq_and]

/-! ## Listings of pruned nodes -/

section Pruned

variable {cap : Nat} {v : Tree} {later : List Nat} {σ σ' : Naming} {env env' : Bindings}

/-- Whether a node, as it is planned, and the pruned node are listed alike, each way, wherever the
pruned node stands in a tree. -/
def Node.ListedPruned (cap : Nat) (v : Tree) (n : Node) : Prop :=
  ∀ later σ p σ' env env', Fits v n.pruned.nodes later σ → n.plan σ = .ok (p, σ') →
    Alike (referenceIndices n.pruned.nodes ++ later) σ env env' →
      EachWay (ShownAlike later σ' env env') (p.listing cap env) (n.pruned.listing cap env')

theorem eachWay_branch {branch : List Node} {ps : List Plan}
    (hbare : ∀ m ∈ v.nodes, m.isLookahead = false)
    (hnodes : ∀ n ∈ branch, n.ListedPruned cap v)
    (hfits : Fits v (branchNodes (prunedBranch branch)) later σ)
    (hplan : planBranch branch σ = .ok (ps, σ'))
    (h : Alike (referenceIndices (branchNodes (prunedBranch branch)) ++ later) σ env env') :
    EachWay (ShownAlike later σ' env env') (Plan.partsListing cap env ps)
      (branchListing cap (prunedBranch branch) env') := by
  induction branch generalizing σ ps env env' with
  | nil =>
    obtain ⟨rfl, rfl⟩ := planBranch_nil_iff.1 hplan
    rw [Plan.partsListing, prunedBranch, branchListing]
    exact .of_forall₂ (.cons ⟨rfl, h⟩ .nil)
  | cons n ns ih =>
    obtain ⟨hn, hns⟩ := List.forall_mem_cons.1 hnodes
    by_cases hlook : n.isLookahead = true
    · rw [planBranch_skip hlook] at hplan
      rw [prunedBranch_skip hlook] at hfits h ⊢
      exact ih hns hfits hplan h
    · rw [Bool.not_eq_true] at hlook
      rw [prunedBranch_cons hlook] at hfits h ⊢
      have h' : Alike (referenceIndices n.pruned.nodes ++
          (referenceIndices (branchNodes (prunedBranch ns)) ++ later)) σ env env' := by
        simpa [branchNodes] using h
      obtain ⟨p, σ₁, rest, hp, hrest, rfl⟩ := (planBranch_cons_iff hlook).1 hplan
      have hfirst := hn _ σ p σ₁ env env' hfits.first hp h'
      have hext := n.plansFreshly_pruned (fun m hm => hbare m (hfits.first.mem m hm))
        (fun _ => id) σ p σ₁ hp
      rw [Plan.partsListing, branchListing_cons (by rwa [isLookahead_pruned])]
      refine hfirst.flatMap fun a a' ha => ?_
      refine (ih hns (hfits.second hext) hrest ha.groups).map fun b b' hb => ?_
      refine ⟨congrArg₂ (· ++ ·) ha.text hb.text, ?_⟩
      show Alike later σ' ((b.groups ++ a.groups) ++ env) ((b'.groups ++ a'.groups) ++ env')
      rw [List.append_assoc, List.append_assoc]
      exact hb.groups

/-- **The branches of an alternation,** as they are planned, show what the pruned branches show.
Those that are alike when they are pruned show it again. -/
theorem mem_map_text_branchListings {branches : List (List Node)} {seen : List Branch}
    {ps : List Plan} (hbare : ∀ m ∈ v.nodes, m.isLookahead = false)
    (hnodes : ∀ b ∈ branches, ∀ n ∈ b, n.ListedPruned cap v)
    (hkeeps : ∀ b ∈ prunedBranches branches, v.Keeps (branchNodes b))
    (hfits : Fits v (branchesNodes (prunedBranches branches)) later σ)
    (hplan : planBranches seen branches σ = .ok (ps, σ'))
    (h : Alike (referenceIndices (branchesNodes (prunedBranches branches)) ++ later) σ env env')
    (w : List Char) :
    (∃ listing ∈ Plan.branchListings cap env ps, w ∈ listing.map Shown.text) ↔
      ∃ b ∈ keptBranches seen branches,
        w ∈ (branchListing cap (prunedBranch b) env').map Shown.text := by
  induction branches generalizing σ seen ps env with
  | nil =>
    obtain ⟨rfl, -⟩ := planBranches_nil_iff.1 hplan
    simp [Plan.branchListings, keptBranches]
  | cons b bs ih =>
    obtain ⟨hb, hbs⟩ := List.forall_mem_cons.1 hnodes
    rw [prunedBranches] at hkeeps hfits h
    obtain ⟨hkeep, hkeeps⟩ := List.forall_mem_cons.1 hkeeps
    have h' : Alike (referenceIndices (branchNodes (prunedBranch b)) ++
        (referenceIndices (branchesNodes (prunedBranches bs)) ++ later)) σ env env' := by
      simpa [branchesNodes] using h
    rw [keptBranches]
    by_cases hseen : takingNodes b ∈ seen
    · rw [planBranches_skip hseen] at hplan
      rw [if_pos (List.contains_iff_mem.2 hseen)]
      exact ih hbs hkeeps (hfits.second (Naming.Extends.refl σ)) hplan
        (h'.mono fun i hi => List.mem_append_right _ hi)
    · obtain ⟨parts, σ₁, rest, hparts, hrest, rfl⟩ := (planBranches_cons_iff hseen).1 hplan
      have hext := planBranch_extends_pruned (fun m hm => hbare m (hfits.first.mem m hm)) hparts
      have hfirst := eachWay_branch hbare hb hfits.first hparts h'
      have hpassed : Alike (referenceIndices (branchesNodes (prunedBranches bs)) ++ later) σ₁
          ((Plan.concat parts).leftover cap env ++ env) ([] ++ env') :=
        hfits.first.alike hkeep hext Plan.leftover_names (fun _ => List.not_mem_nil.elim) h'
      rw [if_neg (mt List.contains_iff_mem.1 hseen), Plan.branchListings, Plan.listing_concat]
      simp only [List.mem_cons, exists_eq_or_imp]
      rw [hfirst.mem_map_text w, ih hbs hkeeps (hfits.second hext) hrest hpassed]

/-- **An alternation,** as it is planned, and the pruned one are listed alike, each way. -/
theorem eachWay_branches {branches : List (List Node)} {ps : List Plan}
    (hbare : ∀ m ∈ v.nodes, m.isLookahead = false)
    (hnodes : ∀ b ∈ branches, ∀ n ∈ b, n.ListedPruned cap v)
    (hkeeps : 1 < (prunedBranches branches).length →
      ∀ b ∈ prunedBranches branches, v.Keeps (branchNodes b))
    (hfits : Fits v (branchesNodes (prunedBranches branches)) later σ)
    (hplan : planBranches [] branches σ = .ok (ps, σ'))
    (h : Alike (referenceIndices (branchesNodes (prunedBranches branches)) ++ later) σ env env') :
    EachWay (ShownAlike later σ' env env') ((Plan.ofBranches ps).listing cap env)
      (alternation (branchesListings cap [] (prunedBranches branches) env')) := by
  by_cases hlone : ∃ b, branches = [b]
  · obtain ⟨b, rfl⟩ := hlone
    obtain ⟨parts, σ₁, rest, hparts, hrest, rfl⟩ :=
      (planBranches_cons_iff List.not_mem_nil).1 hplan
    obtain ⟨rfl, rfl⟩ := planBranches_nil_iff.1 hrest
    rw [prunedBranches, prunedBranches] at hfits h ⊢
    rw [branchesListings_cons List.not_mem_nil, branchesListings]
    simp only [branchesNodes, List.append_nil] at hfits h
    show EachWay _ ((Plan.concat parts).listing cap env) (branchListing cap (prunedBranch b) env')
    rw [Plan.listing_concat]
    exact eachWay_branch hbare (hnodes b List.mem_cons_self) hfits hparts h
  · have hkeeps : ∀ b ∈ prunedBranches branches, v.Keeps (branchNodes b) := by
      refine keeps_of_not_lone hkeeps ?_
      rwa [← List.length_eq_one_iff, prunedBranches_eq, List.length_map, List.length_eq_one_iff]
    have hext := planBranches_extends_pruned (fun m hm => hbare m (hfits.mem m hm)) hplan
    refine EachWay.of_mem_map_text (fun w => ?_) fun r hr r' hr' => ?_
    · rw [listing_ofBranches, mem_map_text_alternation, mem_map_text_prunedBranches]
      exact mem_map_text_branchListings hbare hnodes hkeeps hfits hplan h w
    · have hnames := (Plan.mem_listing.1 hr).names
      rw [names_ofBranches] at hnames
      exact hfits.alike (hfits.keeps_branches hkeeps) hext hnames (alternation_groups hr') h

/-- **A repetition,** as it is planned, and the pruned one are listed alike, each way. -/
theorem eachWay_repeated {body : Node} {b : Plan} {min : Nat} {max : Option Nat}
    (hbare : ∀ m ∈ v.nodes, m.isLookahead = false) (hbody : body.ListedPruned cap v)
    (hfits : Fits v body.pruned.nodes later σ) (hplan : body.plan σ = .ok (b, σ'))
    (h : Alike (referenceIndices body.pruned.nodes ++ later) σ env env') :
    EachWay (ShownAlike later σ' env env') ((Plan.times min max b).listing cap env)
      (repeated min (Plan.limit cap min max) (body.pruned.listing cap env')) := by
  have hext := body.plansFreshly_pruned (fun m hm => hbare m (hfits.mem m hm)) (fun _ => id) σ b σ'
    hplan
  have hnone : Alike later σ' ([] ++ env) ([] ++ env') :=
    h.leaveOut (fun _ hi => List.mem_append_right _ hi) hfits.unnamed hext
  rw [Plan.listing_times]
  exact (hbody later σ b σ' env env' hfits hplan h).repeated min _ hnone

/-- **A node,** as it is planned, and the pruned node are listed alike, each way. -/
theorem Node.eachWay_pruned (cap : Nat) (hbare : ∀ m ∈ v.nodes, m.isLookahead = false)
    (hv : v.Confined) (n : Node) : n.ListedPruned cap v := by
  induction n with
  | char c =>
    intro later σ p σ' env env' hfits hplan h
    exact .of_forall₂ (Node.listedAlike cap hv _ later σ p σ' env env' hfits hplan h)
  | charClass k =>
    intro later σ p σ' env env' hfits hplan h
    exact .of_forall₂ (Node.listedAlike cap hv _ later σ p σ' env env' hfits hplan h)
  | anchor a =>
    intro later σ p σ' env env' hfits hplan h
    exact .of_forall₂ (Node.listedAlike cap hv _ later σ p σ' env env' hfits hplan h)
  | backreference index =>
    intro later σ p σ' env env' hfits hplan h
    exact .of_forall₂ (Node.listedAlike cap hv _ later σ p σ' env env' hfits hplan h)
  | group kind branches ih =>
    intro later σ p σ' env env' hfits hplan h
    have hself := hfits.mem _ (Node.self_mem_nodes _)
    have hkind : kind.isLookahead = false := hbare _ hself
    rw [pruned_group hkind] at hself hfits h ⊢
    obtain ⟨ps, σ₁, hps, hclose⟩ := plan_group_iff.1 hplan
    have hinner := hfits.within (List.sublist_cons_self _ _)
    have hbranches := eachWay_branches hbare ih (hv _ (.inr ⟨kind, hself⟩)) hinner hps h
    have hext := planBranches_extends_pruned (fun m hm => hbare m (hinner.mem m hm)) hps
    have hunnamed : ∀ index, kind = .capture index → σ₁.name? index = none := by
      rintro index rfl
      exact hfits.unnamed_capture hext
    obtain ⟨f, hlisting, hf⟩ := exists_listing_close hclose hunnamed
    rw [Node.listing, hlisting]
    exact hbranches.map hf
  | marked min max body ih =>
    intro later σ p σ' env env' hfits hplan h
    rw [pruned_marked] at hfits h ⊢
    obtain ⟨b, hb, rfl⟩ := plan_marked_iff.1 hplan
    have hbody := hfits.within ((List.sublist_cons_self _ _).trans (List.sublist_cons_self _ _))
    rw [listing_marked]
    exact eachWay_repeated hbare ih hbody hb h
  | repetition min max body hm ih =>
    intro later σ p σ' env env' hfits hplan h
    rw [Node.pruned] at hfits h ⊢
    obtain ⟨b, hb, rfl⟩ := (plan_repetition_iff hm).1 hplan
    have hbody := hfits.within (List.sublist_cons_self _ _)
    rw [listing_repetition (unmarked_pruned hm)]
    exact eachWay_repeated hbare ih hbody hb h

/-- The states of the plan of a tree have the texts that the pruned tree lists. -/
theorem Tree.mem_map_text_run {tree : Tree}
    (hbare : ∀ m ∈ tree.pruned.nodes, m.isLookahead = false) (hconfined : tree.pruned.Confined)
    (hdistinct : (captureIndices tree.pruned.nodes).Nodup) {p : Plan} (hp : tree.plan = .ok p)
    (cap : Nat) (w : List Char) :
    w ∈ (p.run cap []).toList.map (fun now => (now []).text) ↔ w ∈ tree.pruned.texts cap := by
  obtain ⟨ps, σ, hps, rfl⟩ := Tree.plan_eq_ok_iff.1 hp
  have hlisted := eachWay_branches hbare
    (fun _ _ n _ => Node.eachWay_pruned cap hbare hconfined n)
    (hconfined tree.pruned.branches (.inl rfl)) (Fits.whole hdistinct) hps (.start _ _)
  have htexts := hlisted.mem_map_text w
  rwa [Plan.listing, List.map_map] at htexts

end Pruned

/-! ## Streams -/

/-- Whether there is a stream on neither side, because of the same backreference, or there are two
streams with the same texts. -/
inductive SameTexts : Except Dangling Stream → Except Dangling Stream → Prop
  | fail (e : Dangling) : SameTexts (.error e) (.error e)
  | texts {s s' : Stream} (h : ∀ w, w ∈ s.toList ↔ w ∈ s'.toList) : SameTexts (.ok s) (.ok s')

namespace SameTexts

variable {x y z : Except Dangling Stream}

theorem refl (x : Except Dangling Stream) : SameTexts x x := by
  cases x with
  | error e => exact .fail e
  | ok s => exact .texts fun _ => Iff.rfl

theorem symm (h : SameTexts x y) : SameTexts y x := by
  cases h with
  | fail e => exact .fail e
  | texts h => exact .texts fun w => (h w).symm

theorem trans (h : SameTexts x y) (h' : SameTexts y z) : SameTexts x z := by
  cases h with
  | fail e => exact h'
  | texts h =>
    cases h' with
    | texts h' => exact .texts fun w => (h w).trans (h' w)

theorem mem_iff {s s' : Stream} (h : SameTexts (.ok s) (.ok s')) (w : List Char) :
    w ∈ s.toList ↔ w ∈ s'.toList := by
  cases h with
  | texts h => exact h w

end SameTexts

section Streams

variable {t u : Tree}

/-- **A tree and the pruned tree have the same texts,** or neither has a stream. -/
theorem Tree.Confined.sameTexts_pruned (h : t.pruned.Confined)
    (hdistinct : (captureIndices t.pruned.nodes).Nodup)
    (hbare : ∀ m ∈ t.pruned.nodes, m.isLookahead = false) (cap : Nat) :
    SameTexts (Stream.ofTree cap t) (Stream.ofTree cap t.pruned) := by
  unfold Stream.ofTree
  rcases Tree.failsAlike_pruned hbare with ⟨e, he, he'⟩ | ⟨p, q, hp, hq⟩
  · rw [he, he']
    exact .fail e
  · rw [hp, hq]
    refine .texts fun w => ?_
    rw [Stream.toList_ofPlan, Stream.toList_ofPlan, h.map_text_run hdistinct hq,
      Tree.mem_map_text_run hbare h hdistinct hp]

/-- If no branches become alike, the streams are the same. -/
theorem Tree.Separated.sameTexts_pruned (h : t.Separated)
    (hbare : ∀ m ∈ t.pruned.nodes, m.isLookahead = false) (cap : Nat) :
    SameTexts (Stream.ofTree cap t) (Stream.ofTree cap t.pruned) := by
  rw [Stream.ofTree, Stream.ofTree, h.plan_pruned hbare]
  exact .refl _

/-- **What stands in lookahead groups generates nothing.** Let two trees differ only in what stands
in their lookahead groups, where that captures nothing and refers to nothing. Then with any cap
neither of them has a stream, because of the same backreference, or their streams have the same
texts. No repetition may stand directly around a lookahead group. And where branches are told apart
by lookahead groups alone, the references that the pruned tree keeps must be confined. -/
theorem Tree.sameTexts_of_emptied_eq (h : t.emptied = u.emptied)
    (hbare : ∀ m ∈ t.pruned.nodes, m.isLookahead = false)
    (hbranches : (t.Separated ∧ u.Separated) ∨
      (t.pruned.Confined ∧ (captureIndices t.pruned.nodes).Nodup)) (cap : Nat) :
    SameTexts (Stream.ofTree cap t) (Stream.ofTree cap u) := by
  have hpruned : t.pruned = u.pruned := Tree.pruned_eq_of_emptied_eq h
  rcases hbranches with ⟨ht, hu⟩ | ⟨hconfined, hdistinct⟩
  · have hfirst := ht.sameTexts_pruned hbare cap
    rw [hpruned] at hfirst hbare
    exact hfirst.trans (hu.sameTexts_pruned hbare cap).symm
  · have hfirst := hconfined.sameTexts_pruned hdistinct hbare cap
    rw [hpruned] at hfirst hconfined hdistinct hbare
    exact hfirst.trans (hconfined.sameTexts_pruned hdistinct hbare cap).symm

end Streams

/-- The tree of `(A|B)(?:(?:(?=x)\1)|(?:(?=y)\1))(?!z)`. -/
def lookingAhead (x y z : Char) : Tree :=
  ⟨[[.group (.capture 1) [[.char 'A'], [.char 'B']],
    .group .plain
      [[.group .plain [[.group (.lookahead false) [[.char x]], .backreference 1]]],
        [.group .plain [[.group (.lookahead false) [[.char y]], .backreference 1]]]],
    .group (.lookahead true) [[.char z]]]], 1⟩

theorem lookingAhead_confined : (lookingAhead 'A' 'B' 'C').pruned.Confined := by
  intro branches h hmany
  rcases h with rfl | ⟨kind, h⟩
  · simp [lookingAhead, Tree.pruned, prunedBranches] at hmany
  · simp [lookingAhead, Tree.pruned, prunedBranches, prunedBranch, Node.pruned, Node.isLookahead,
      GroupKind.isLookahead, Tree.nodes, branchesNodes, branchNodes, Node.nodes] at h
    rcases h with ⟨rfl, rfl⟩ | ⟨rfl, rfl⟩ | ⟨rfl, rfl⟩
    · decide
    · decide
    · simp at hmany

theorem lookingAhead_sameTexts :
    (lookingAhead 'A' 'B' 'C').emptied = (lookingAhead 'A' 'A' 'D').emptied ∧
      (∀ m ∈ (lookingAhead 'A' 'B' 'C').pruned.nodes, m.isLookahead = false) ∧
      ((lookingAhead 'A' 'B' 'C').pruned.Confined ∧
        (captureIndices (lookingAhead 'A' 'B' 'C').pruned.nodes).Nodup) ∧
      SameTexts (Stream.ofTree 0 (lookingAhead 'A' 'B' 'C'))
        (Stream.ofTree 0 (lookingAhead 'A' 'A' 'D')) := by
  have h : (lookingAhead 'A' 'B' 'C').emptied = (lookingAhead 'A' 'A' 'D').emptied := by decide
  have hbare : ∀ m ∈ (lookingAhead 'A' 'B' 'C').pruned.nodes, m.isLookahead = false := by decide
  have hdistinct : (captureIndices (lookingAhead 'A' 'B' 'C').pruned.nodes).Nodup := by decide
  exact ⟨h, hbare, ⟨lookingAhead_confined, hdistinct⟩,
    Tree.sameTexts_of_emptied_eq h hbare (.inr ⟨lookingAhead_confined, hdistinct⟩) 0⟩

/-- **A lookahead group under a repetition generates its texts:** of the trees of `(?=A){1}C` and
`(?=B){1}C` the one has the text AC, the other BC. -/
theorem not_forall_sameTexts : ¬∀ t u : Tree, t.emptied = u.emptied →
    ∀ cap, SameTexts (Stream.ofTree cap t) (Stream.ofTree cap u) := by
  intro h
  let tree : Char → Tree := fun c =>
    ⟨[[.repetition 1 (some 1) (.group (.lookahead false) [[.char c]]), .char 'C']], 0⟩
  have hmem := (h (tree 'A') (tree 'B') (by decide) 0).mem_iff ['A', 'C']
  revert hmem
  decide +kernel

/-- **References that are not confined** may tell what stands in lookahead groups: of the trees of
`(Z)(?:(?:(?:(?=B)A)|(X\1)|(?:(?=x)A))|\2)` the one for `C` has the text Z, that for `B` has not. -/
theorem not_forall_sameTexts_of_distinct : ¬∀ t u : Tree, t.emptied = u.emptied →
    (∀ m ∈ t.pruned.nodes, m.isLookahead = false) → (captureIndices t.pruned.nodes).Nodup →
      ∀ cap, SameTexts (Stream.ofTree cap t) (Stream.ofTree cap u) := by
  intro h
  let seeing : Char → Node := fun x =>
    .group .plain [[.group (.lookahead false) [[.char x]], .char 'A']]
  let tree : Char → Tree := fun x =>
    ⟨[[.group (.capture 1) [[.char 'Z']], .group .plain
      [[.group .plain [[seeing 'B'], [.group (.capture 2) [[.char 'X', .backreference 1]]],
        [seeing x]]], [.backreference 2]]]], 2⟩
  have hmem := (h (tree 'C') (tree 'B') (by decide) (by decide) (by decide) 0).mem_iff ['Z']
  revert hmem
  decide +kernel

end SequenceConstraint
