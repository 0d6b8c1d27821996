import Mathlib.Data.Set.Lattice
import Mathlib.Logic.Relation
import Mathlib.Order.CompletePartialOrder
import Mathlib.Order.Interval.Set.Basic
import SequenceConstraint.Proofs.Odometer.Streams

/-!
# The wheels that a wheel is made of

A wheel is made of its parts, and of what these are made of. In the machine of a plan the ranges of
the parts of a wheel, each from its `first` up to itself, follow each other without a gap, up to
right before the wheel (`Machine.Tiled`). This is all that one has to know of each wheel for the
machine to be a tree in post-order: a range holds just the wheels that its last one is made of.

## Main statements

* `Machine.mem_range_iff` — a range holds what its wheel is made of
* `Machine.eq_of_isPart` — a wheel is a part of one wheel only
* `Plan.Placed.tiles_root` — the ranges of the parts of a plan follow each other
* `Odometer.inPostOrder` — the machine of a tree is in post-order
-/

namespace SequenceConstraint

/-- The wheels that a gear is directly made of, from left to right. An echo is made of none. -/
def Gear.parts : Gear → List Nat
  | .texts _ => []
  | .row parts => parts
  | .choice branches => branches
  | .times _ _ child => [child]
  | .echo _ => []

namespace Machine

/-- Whether a wheel is directly part of another one. -/
def IsPart (m : Machine) (i outer : Nat) : Prop :=
  ∃ w : Wheel, m[outer]? = some w ∧ i ∈ w.gear.parts

/-- Whether a wheel is another one, a part of it, a part of a part, and so on. -/
def IsIn (m : Machine) : Nat → Nat → Prop := Relation.ReflTransGen m.IsPart

/-- Whether the ranges of some wheels follow each other without a gap, from `first` up to `stop`. -/
def Tiles (m : Machine) (stop : Nat) : (first : Nat) → (parts : List Nat) → Prop
  | first, [] => first = stop
  | first, part :: parts =>
    first ≤ part ∧ (∃ gear, m[part]? = some ⟨gear, first⟩) ∧ m.Tiles stop (part + 1) parts

/-- Whether the ranges of the parts of each wheel fill its range but for itself. -/
def Tiled (m : Machine) : Prop :=
  ∀ (i : Nat) (w : Wheel), m[i]? = some w → m.Tiles i w.first w.gear.parts

variable {m : Machine} {i j outer first stop : Nat} {parts : List Nat} {w v : Wheel}

/-! ## Ranges that follow each other -/

namespace Tiles

theorem le (h : m.Tiles stop first parts) : first ≤ stop := by
  induction parts generalizing first with
  | nil => exact Nat.le_of_eq h
  | cons part parts ih =>
    have hrest := ih h.2.2
    have hpart := h.1
    omega

/-- The range of each part lies between the ends. -/
theorem mem (h : m.Tiles stop first parts) (hj : j ∈ parts) :
    ∃ w : Wheel, m[j]? = some w ∧ first ≤ w.first ∧ w.first ≤ j ∧ j < stop := by
  induction parts generalizing first with
  | nil => cases hj
  | cons part parts ih =>
    obtain ⟨hle, ⟨gear, hw⟩, hrest⟩ := h
    rcases List.mem_cons.1 hj with rfl | hj
    · exact ⟨_, hw, Nat.le_refl _, hle, hrest.le⟩
    · obtain ⟨w, hw, hfirst, hbetween⟩ := ih hrest hj
      exact ⟨w, hw, by omega, hbetween⟩

/-- **Every number between the ends lies in the range of a part.** -/
theorem exists_part (h : m.Tiles stop first parts) (hfirst : first ≤ i) (hi : i < stop) :
    ∃ part ∈ parts, ∃ w : Wheel, m[part]? = some w ∧ w.first ≤ i ∧ i ≤ part := by
  induction parts generalizing first with
  | nil =>
    cases h
    omega
  | cons part parts ih =>
    obtain ⟨-, ⟨gear, hw⟩, hrest⟩ := h
    by_cases hpart : i ≤ part
    · exact ⟨part, List.mem_cons_self, _, hw, hfirst, hpart⟩
    · obtain ⟨other, hother, hrange⟩ := ih hrest (Nat.lt_of_not_le hpart)
      exact ⟨other, List.mem_cons_of_mem part hother, hrange⟩

/-- The range of a later part comes after an earlier one. -/
theorem lt_first (h : m.Tiles stop first parts) (hi : i ∈ parts) (hj : j ∈ parts) (hlt : i < j)
    (hw : m[j]? = some w) : i < w.first := by
  induction parts generalizing first with
  | nil => cases hi
  | cons part parts ih =>
    obtain ⟨-, -, hrest⟩ := h
    rcases List.mem_cons.1 hi with heq | hearlier
    · rcases List.mem_cons.1 hj with heq' | hlater
      · omega
      · obtain ⟨_, hw', hfirst, -⟩ := hrest.mem hlater
        cases hw.symm.trans hw'
        omega
    · rcases List.mem_cons.1 hj with heq | hlater
      · obtain ⟨_, -, hfirst, hle, -⟩ := hrest.mem hearlier
        omega
      · exact ih hrest hearlier hlater

theorem nodup (h : m.Tiles stop first parts) : parts.Nodup := by
  induction parts generalizing first with
  | nil => exact List.nodup_nil
  | cons part parts ih =>
    refine List.nodup_cons.2 ⟨fun hpart => ?_, ih h.2.2⟩
    obtain ⟨_, -, hfirst, hle, -⟩ := h.2.2.mem hpart
    omega

end Tiles

/-! ## Ranges of a machine -/

section Tiled

variable (hm : m.Tiled)

include hm

/-- A part comes before the wheel it is a part of. -/
theorem lt_of_isPart (h : m.IsPart i outer) : i < outer := by
  obtain ⟨w, hw, hi⟩ := h
  obtain ⟨_, -, -, -, hlt⟩ := (hm outer w hw).mem hi
  exact hlt

theorem le_of_isIn (h : m.IsIn i outer) : i ≤ outer := by
  induction h with
  | refl => exact Nat.le_refl i
  | tail _ hpart ih => exact Nat.le_trans ih (Nat.le_of_lt (lt_of_isPart hm hpart))

/-- **The range of a wheel in a range lies in that range.** -/
theorem first_le_first (hw : m[outer]? = some w) (hv : m[i]? = some v) (hfirst : w.first ≤ i)
    (hi : i ≤ outer) : w.first ≤ v.first := by
  induction outer using Nat.strongRecOn generalizing w with
  | ind outer ih =>
    rcases Nat.lt_or_eq_of_le hi with hi | rfl
    · have htiles := hm outer w hw
      obtain ⟨part, hpart, u, hu, hrange⟩ := htiles.exists_part hfirst hi
      obtain ⟨u', hu', hle, -, hlt⟩ := htiles.mem hpart
      cases hu.symm.trans hu'
      exact Nat.le_trans hle (ih part hlt hu hrange.1 hrange.2)
    · cases hw.symm.trans hv
      exact Nat.le_refl _

/-- **A range holds just the wheels that its wheel is made of,** and the wheel itself. -/
theorem mem_range_iff (hw : m[outer]? = some w) : w.first ≤ i ∧ i ≤ outer ↔ m.IsIn i outer := by
  constructor
  · rintro ⟨hfirst, hi⟩
    induction outer using Nat.strongRecOn generalizing w with
    | ind outer ih =>
      rcases Nat.lt_or_eq_of_le hi with hi | rfl
      · have htiles := hm outer w hw
        obtain ⟨part, hpart, v, hv, hrange⟩ := htiles.exists_part hfirst hi
        obtain ⟨_, -, -, -, hlt⟩ := htiles.mem hpart
        exact (ih part hlt hv hrange.1 hrange.2).tail ⟨w, hw, hpart⟩
      · exact .refl
  · intro h
    refine ⟨?_, le_of_isIn hm h⟩
    induction h generalizing w with
    | refl => exact (hm i w hw).le
    | tail _ hpart ih =>
      obtain ⟨u, hu, hpart⟩ := hpart
      cases hw.symm.trans hu
      obtain ⟨v, hv, hle, -⟩ := (hm _ w hw).mem hpart
      exact Nat.le_trans hle (ih hv)

theorem not_lt_of_isPart (h : m.IsPart i outer) (h' : m.IsPart i j) : ¬outer < j := by
  intro hlt
  obtain ⟨w, hw, hi⟩ := h
  obtain ⟨v, hv, hi'⟩ := h'
  have hj := hm j v hv
  obtain ⟨_, hu, hfirst, hle, hbefore⟩ := (hm outer w hw).mem hi
  obtain ⟨_, hu', hfirst', -⟩ := hj.mem hi'
  cases hu.symm.trans hu'
  -- the inner of the two wheels lies in the range of another part of the outer one
  obtain ⟨part, hpart, u, hu, hrange⟩ := hj.exists_part (i := outer) (by omega) hlt
  have happart := hj.lt_first hi' hpart (by omega) hu
  have hnested := first_le_first hm hu hw hrange.1 hrange.2
  omega

/-- **A wheel is a part of one wheel only.** -/
theorem eq_of_isPart (h : m.IsPart i outer) (h' : m.IsPart i j) : outer = j :=
  Nat.le_antisymm (Nat.le_of_not_lt (not_lt_of_isPart hm h' h))
    (Nat.le_of_not_lt (not_lt_of_isPart hm h h'))

/-- Two ranges are apart, or the one of the earlier wheel lies in the other. -/
theorem range_cases (hw : m[i]? = some w) (hv : m[j]? = some v) (hle : i ≤ j) :
    Set.Icc w.first i ⊆ Set.Icc v.first j ∨ Disjoint (Set.Icc w.first i) (Set.Icc v.first j) := by
  by_cases hfirst : v.first ≤ i
  · exact .inl (Set.Icc_subset_Icc (first_le_first hm hv hw hfirst hle) hle)
  · refine .inr (Set.disjoint_left.2 fun k hk hk' => ?_)
    exact hfirst (Nat.le_trans hk'.1 hk.2)

end Tiled

end Machine

/-! ## The machine of a plan -/

section Placed

variable {m : Machine} {cap : Nat} {place : Nat → Nat} {known : List Nat} {first i : Nat}

theorem exists_placed_of {ps : List Plan}
    (h : ∀ p ∈ ps, ∀ {known first}, p.Placed m cap place known first → first ≤ i →
      i ≤ p.root first → ∃ (q : Plan) (known' : List Nat) (first' : Nat),
        q.Placed m cap place known' first' ∧ q.root first' = i)
    (hps : PartsPlaced m cap place known first ps) (hfirst : first ≤ i) (hi : i < past first ps) :
    ∃ (q : Plan) (known' : List Nat) (first' : Nat),
      q.Placed m cap place known' first' ∧ q.root first' = i := by
  induction ps generalizing known first with
  | nil => exact absurd hi (Nat.not_lt_of_le hfirst)
  | cons p ps ih =>
    obtain ⟨hp, hrest⟩ := List.forall_mem_cons.1 h
    by_cases hroot : i ≤ p.root first
    · exact hp hps.1 hfirst hroot
    · exact ih hrest hps.2 (Nat.lt_of_not_le hroot) hi

/-- **Every wheel of a plan is the wheel of a plan in it.** -/
theorem Plan.Placed.exists_placed {p : Plan} (h : p.Placed m cap place known first)
    (hfirst : first ≤ i) (hi : i ≤ p.root first) : ∃ (q : Plan) (known' : List Nat) (first' : Nat),
      q.Placed m cap place known' first' ∧ q.root first' = i := by
  induction p generalizing known first with
  | texts values => exact ⟨_, known, first, h, Nat.le_antisymm hfirst hi⟩
  | concat parts ih =>
    rcases Nat.lt_or_eq_of_le hi with hi | rfl
    · exact exists_placed_of ih h.1 hfirst hi
    · exact ⟨_, known, first, h, rfl⟩
  | choice branches ih =>
    rcases Nat.lt_or_eq_of_le hi with hi | rfl
    · exact exists_placed_of ih h.1 hfirst hi
    · exact ⟨_, known, first, h, rfl⟩
  | times min max body ih =>
    rcases Nat.lt_or_eq_of_le hi with hi | rfl
    · exact ih h.1 hfirst (Nat.le_of_lt_succ hi)
    · exact ⟨_, known, first, h, rfl⟩
  | echo name => exact ⟨_, known, first, h, Nat.le_antisymm hfirst hi⟩
  | named name body ih => exact ih h.2.2.2 hfirst hi

theorem PartsPlaced.tiles {ps : List Plan} (h : PartsPlaced m cap place known first ps) :
    m.Tiles (past first ps) first (roots first ps) := by
  induction ps generalizing known first with
  | nil => rfl
  | cons p ps ih => exact ⟨p.le_root first, h.1.exists_root, ih h.2⟩

/-- **The ranges of the parts of a plan follow each other.** -/
theorem Plan.Placed.tiles_root {p : Plan} {w : Wheel} (h : p.Placed m cap place known first)
    (hw : m[p.root first]? = some w) : m.Tiles (p.root first) w.first w.gear.parts := by
  induction p with
  | texts values =>
    cases h.symm.trans hw
    rfl
  | concat parts ih =>
    cases h.2.symm.trans hw
    exact h.1.tiles
  | choice branches ih =>
    cases h.2.symm.trans hw
    exact h.1.tiles
  | times min max body ih =>
    cases h.2.symm.trans hw
    exact ⟨body.le_root first, h.1.exists_root, rfl⟩
  | echo name =>
    cases h.2.symm.trans hw
    rfl
  | named name body ih => exact ih h.2.2.2 hw

theorem Plan.tiled_machine {p : Plan} (h : p.WellNamed []) : (p.machine cap).Tiled := by
  intro i w hw
  obtain ⟨hi, -⟩ := Array.getElem?_eq_some_iff.1 hw
  rw [Odometer.size_machine] at hi
  have hplaced : p.Placed (p.machine cap) cap p.place [] 0 := p.placed_machine h
  obtain ⟨q, known, first, hq, rfl⟩ := hplaced.exists_placed
    (Nat.zero_le i) (Nat.le_of_lt_succ hi)
  exact hq.tiles_root hw

end Placed

/-! ## Post-order -/

/-- Whether the wheels of a machine are a tree in post-order, and echoes only go back to what is
complete. -/
structure Machine.InPostOrder (m : Machine) (root : Nat) : Prop where
  /-- The root is the last wheel. -/
  last : m.size = root + 1
  /-- Every other wheel is a part of just one wheel, -/
  owner : ∀ i < root, ∃! outer, m.IsPart i outer
  /-- and named there once. That wheel comes later. -/
  once : ∀ (outer : Nat) (w : Wheel), m[outer]? = some w →
    w.gear.parts.Nodup ∧ ∀ i ∈ w.gear.parts, i < outer
  /-- The ranges of its parts, one after the other, fill the range of a wheel up to itself. -/
  tiled : m.Tiled
  /-- A range holds just what its wheel is made of. -/
  range : ∀ (outer : Nat) (w : Wheel), m[outer]? = some w →
    ∀ i, i ∈ Set.Icc w.first outer ↔ m.IsIn i outer
  /-- Any two ranges are nested or apart. -/
  laminar : ∀ (i j : Nat) (w v : Wheel), m[i]? = some w → m[j]? = some v →
    Set.Icc w.first i ⊆ Set.Icc v.first j ∨ Set.Icc v.first j ⊆ Set.Icc w.first i ∨
      Disjoint (Set.Icc w.first i) (Set.Icc v.first j)
  /-- The target of an echo comes before it, and is not around it. -/
  echo : ∀ i target first, m[i]? = some ⟨.echo target, first⟩ → target < i ∧ ¬m.IsIn i target
  /-- So a look at the range tells what a wheel is made of. -/
  within : ∀ i outer, outer < m.size → (m.within i outer = true ↔ m.IsIn i outer)

theorem Machine.Tiled.postOrder {m : Machine} {root : Nat} {gear : Gear} (hm : m.Tiled)
    (hdescending : m.Descending) (hlast : m.size = root + 1)
    (hroot : m[root]? = some ⟨gear, 0⟩) : m.InPostOrder root where
  last := hlast
  owner i hi := by
    have hin : m.IsIn i root := (mem_range_iff hm hroot).1 ⟨Nat.zero_le i, Nat.le_of_lt hi⟩
    rcases hin.cases_head with rfl | ⟨outer, hpart, -⟩
    · exact absurd hi (Nat.lt_irrefl i)
    · exact ⟨outer, hpart, fun other h => eq_of_isPart hm h hpart⟩
  once outer w hw := ⟨(hm outer w hw).nodup, fun i hi => lt_of_isPart hm ⟨w, hw, hi⟩⟩
  tiled := hm
  range outer w hw i := mem_range_iff hm hw
  laminar i j w v hw hv := by
    rcases Nat.le_total i j with hle | hle
    · rcases range_cases hm hw hv hle with hsub | happart
      · exact .inl hsub
      · exact .inr (.inr happart)
    · rcases range_cases hm hv hw hle with hsub | happart
      · exact .inr (.inl hsub)
      · exact .inr (.inr happart.symm)
  echo i target first hw := by
    have hlt : target < i := hdescending i _ hw
    exact ⟨hlt, fun hin => Nat.not_le_of_lt hlt (le_of_isIn hm hin)⟩
  within i outer houter := by
    have hw : m[outer]? = some m[outer] := Array.getElem?_eq_getElem houter
    rw [← mem_range_iff hm hw, Machine.within, hw]
    simp

namespace Odometer

variable {cap : Nat} {tree : Tree} {o : Odometer}

theorem tiled_ofTree (h : ofTree cap tree = .ok o) : o.machine.Tiled := by
  obtain ⟨p, hplan, rfl⟩ := ofTree_eq_ok_iff.1 h
  exact p.tiled_machine (Tree.wellNamed_plan hplan)

/-- **The wheels of an odometer are in post-order.** -/
theorem inPostOrder (h : ofTree cap tree = .ok o) : o.machine.InPostOrder o.root := by
  obtain ⟨p, hplan, rfl⟩ := ofTree_eq_ok_iff.1 h
  have hp := Tree.wellNamed_plan hplan
  have hplaced : p.Placed (p.machine cap) cap p.place [] 0 := p.placed_machine hp
  obtain ⟨gear, hroot⟩ := hplaced.exists_root
  exact (p.tiled_machine hp).postOrder (p.descending_machine hp) (size_machine cap p) hroot

/-- The echo in the second branch of a choice is part of the choice, but not of the first branch,
where its target is. -/
theorem inPostOrder_leftBehind : ∃ o, ofTree 1 leftBehind = .ok o ∧ o.root = 9 ∧
    o.machine.IsIn 5 7 ∧ o.machine.IsIn 2 3 ∧ ¬o.machine.IsIn 5 3 := by
  obtain ⟨o, ho⟩ : ∃ o, ofTree 1 leftBehind = .ok o := ⟨_, rfl⟩
  have horder := inPostOrder ho
  have hlooks : o.root = 9 ∧ o.machine.size = 10 ∧ o.machine.within 5 7 = true ∧
      o.machine.within 2 3 = true ∧ o.machine.within 5 3 = false := by
    cases ho
    decide +kernel
  obtain ⟨hroot, hsize, hecho, htarget, hapart⟩ := hlooks
  have hbefore : ∀ outer < 10, outer < o.machine.size := fun outer h => hsize ▸ h
  refine ⟨o, ho, hroot, (horder.within 5 7 (hbefore 7 (by decide))).1 hecho,
    (horder.within 2 3 (hbefore 3 (by decide))).1 htarget, fun hin => ?_⟩
  rw [(horder.within 5 3 (hbefore 3 (by decide))).2 hin] at hapart
  cases hapart

end Odometer

end SequenceConstraint
