import Mathlib.Data.List.Flatten
import SequenceConstraint.Proofs.Order.Counterparts

/-!
# Larger and smaller caps

A larger cap lets unbounded repetitions repeat more often, so one would expect more texts. It is so
for trees whose references are confined (`Tree.Confined`): every entry of a listing has an entry
with the same text in the listing with the larger cap, and whatever is still referred to has the
same text after both. For other trees it fails, since an alternation shows a text only once: with
more repeats an earlier branch may show it, and the branch with the group that is referred to is
skipped.

With a smaller cap the words of a repetition lose their last repeats. If nothing outside refers to
what those have captured, every text becomes a subsequence of itself.

## Main statements

* `Tree.Confined.texts_subset` — with a larger cap a tree has all texts it has with a smaller one
* `Tree.Confined.exists_sublist` — with a smaller cap it has a part of each
-/

namespace SequenceConstraint

namespace TextRelation

/-- Texts that are the same. -/
def same : TextRelation where
  Holds t t' := t = t'
  refl _ := rfl
  append := congrArg₂ (· ++ ·)

/-- Texts of which the second is a subsequence of the first. -/
def shortening : TextRelation where
  Holds t t' := t'.Sublist t
  refl := List.Sublist.refl
  append := List.Sublist.append

/-- Texts put together from related ones, one by one. -/
theorem flatMap_text (rel : TextRelation) {w w' : List Shown}
    (h : List.Forall₂ (fun a a' => rel.Holds a.text a'.text) w w') :
    rel.Holds (w.flatMap Shown.text) (w'.flatMap Shown.text) := by
  induction h with
  | nil => exact rel.refl []
  | cons ha _ ih => exact rel.append ha ih

end TextRelation

/-- Values of which each has a counterpart have a list of counterparts. -/
theorem exists_forall₂ {α β : Type} {R : α → β → Prop} {P : β → Prop} {as : List α}
    (h : ∀ a ∈ as, ∃ b, P b ∧ R a b) : ∃ bs, (∀ b ∈ bs, P b) ∧ List.Forall₂ R as bs := by
  induction as with
  | nil => exact ⟨[], fun _ => List.not_mem_nil.elim, .nil⟩
  | cons a as ih =>
    obtain ⟨ha, has⟩ := List.forall_mem_cons.1 h
    obtain ⟨b, hb, hab⟩ := ha
    obtain ⟨bs, hbs, hall⟩ := ih has
    exact ⟨b :: bs, List.forall_mem_cons.2 ⟨hb, hbs⟩, .cons hab hall⟩

section Caps

variable {cap cap' : Nat} {tree : Tree}

theorem limit_le (hcap : cap ≤ cap') (min : Nat) (max : Option Nat) :
    Plan.limit cap min max ≤ Plan.limit cap' min max := by
  cases max with
  | none => exact Nat.add_le_add_left hcap min
  | some m => exact Nat.le_refl m

/-- **With a larger cap a repetition** shows all it shows with a smaller one if its body does. -/
theorem carriesRepeats_same (hcap : cap ≤ cap') (tree : Tree) :
    TextRelation.same.CarriesRepeats cap cap' tree := by
  intro min max body _ hbody later σ env env' hfits h r hr
  obtain ⟨w, hw, hmin, hlimit, rfl⟩ := mem_repeated.1 hr
  -- each repeat is shown again
  obtain ⟨w', hw', hall⟩ := exists_forall₂ fun a ha => hbody later σ env env' hfits h a (hw a ha)
  let P : Bindings → Bindings → Prop := fun groups groups' =>
    TextRelation.same.Between later (groups ++ env) (groups' ++ env')
  have hrelated : List.Forall₂ (Shown.Related P) w w' :=
    hall.imp fun _ _ ha => ⟨ha.text, ha.groups⟩
  have hword : Shown.Related P (Plan.ofRepeats w) (Plan.ofRepeats w') :=
    related_ofRepeats hrelated (h.mono fun _ hi => List.mem_append_right _ hi)
  have hlength := hall.length_eq
  have hlimit' := limit_le hcap min max
  exact ⟨Plan.ofRepeats w', mem_repeated.2 ⟨w', hw', by omega, by omega, rfl⟩, hword.text,
    hword.groups⟩

/-- **With a smaller cap a repetition** shows its words without their last repeats. What these have
captured matters only in the body. -/
theorem carriesRepeats_shortening
    (hbodies : ∀ min max body, .repetition min max body ∈ tree.nodes → tree.Keeps body.nodes) :
    TextRelation.shortening.CarriesRepeats cap' cap tree := by
  intro min max body hmem hbody later σ env env' hfits h r hr
  obtain ⟨w, hw, hmin, hlimit, rfl⟩ := mem_repeated.1 hr
  have htakes : TextRelation.shortening.Carries later env env' (w.take (Plan.limit cap min max))
      (body.listing cap env') := fun a ha =>
    hbody later σ env env' hfits h a (hw a (List.mem_of_mem_take ha))
  obtain ⟨w', hw', hall⟩ := exists_forall₂ htakes
  have hlength : w'.length = Nat.min (Plan.limit cap min max) w.length := by
    rw [← hall.length_eq, List.length_take]
  have hmin' : min ≤ w'.length := by
    rw [hlength]
    refine Nat.le_min.2 ⟨?_, hmin⟩
    cases max with
    | none => exact Nat.le_add_right min cap
    | some m => exact Nat.le_trans hmin hlimit
  refine ⟨Plan.ofRepeats w', mem_repeated.2 ⟨w', hw', hmin', ?_, rfl⟩, ?_, ?_⟩
  · rw [hlength]
    exact Nat.min_le_left _ _
  · have htaken : (w'.flatMap Shown.text).Sublist
        ((w.take (Plan.limit cap min max)).flatMap Shown.text) :=
      TextRelation.flatMap_text .shortening (hall.imp fun _ _ ha => ha.text)
    exact htaken.trans ((List.take_sublist _ w).flatMap Shown.text)
  · refine hfits.between (hbodies min max body hmem) (fun g hg => ?_) (fun g hg => ?_) h
    · obtain ⟨a, ha, hg⟩ := groups_ofRepeats hg
      exact body.listing_groups cap' env a (hw a ha) g hg
    · obtain ⟨a, ha, hg⟩ := groups_ofRepeats hg
      exact body.listing_groups cap env' a (hw' a ha) g hg

/-- **With a larger cap a tree has all texts it has with a smaller one.** -/
theorem Tree.Confined.texts_subset (h : tree.Confined)
    (hdistinct : (captureIndices tree.nodes).Nodup) (hcap : cap ≤ cap') :
    ∀ t ∈ tree.texts cap, t ∈ tree.texts cap' := by
  intro t ht
  obtain ⟨t', ht', rfl⟩ := h.exists_counterpart hdistinct (carriesRepeats_same hcap tree) t ht
  exact ht'

/-- **With a smaller cap a tree has a part of each of its texts,** if no reference leaves the body
of a repetition. -/
theorem Tree.Confined.exists_sublist (h : tree.Confined)
    (hdistinct : (captureIndices tree.nodes).Nodup)
    (hbodies : ∀ min max body, .repetition min max body ∈ tree.nodes → tree.Keeps body.nodes)
    (cap cap' : Nat) : ∀ t ∈ tree.texts cap', ∃ t' ∈ tree.texts cap, t'.Sublist t :=
  h.exists_counterpart hdistinct (carriesRepeats_shortening hbodies)

end Caps

end SequenceConstraint
