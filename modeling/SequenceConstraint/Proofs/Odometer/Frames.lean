import SequenceConstraint.Proofs.Odometer.Protocol
import SequenceConstraint.Proofs.Odometer.Ranges

/-!
# What a move leaves alone

To move a wheel changes the marks of the wheels in its range only, whatever the marks are. Echoes in
the range look at wheels outside it, but do not move them.

A machine refuses to advance a wheel that has no value. What it would do otherwise is a program as
well (`Machine.forced`), and reaches no further.

## Main statements

* `Machine.force_of_perform` — a machine that refuses nothing does what the machine does
* `Machine.keepsOutside_forced` — no program moves a wheel outside the range that it works in
* `Machine.eqOutside_force` — so no move does
* `Odometer.moves_own_wheels` — the wheels outside the range of a wheel that is moved stay as they
  are
-/

namespace SequenceConstraint

open Machine

/-! ## Moves without a refusal -/

namespace Machine

/-- What a move does itself, if wheels are advanced whether they have a value or not. -/
def forced (m : Machine) : Move → Marks → Program
  | .advance i, σ =>
    match m[i]? with
    | none => .stuck
    | some w => .move (.advanceGear i w.gear) σ fun a =>
      .done { marks := a.marks.setLive i a.found, found := a.found }
  | mv, σ => m.program mv σ

/-- Makes a move, whether the wheels that are advanced have a value or not. -/
def force (m : Machine) : (fuel : Nat) → Move → Marks → Option Answer
  | 0, _, _ => none
  | fuel + 1, mv, σ => (m.forced mv σ).run (m.force fuel)

variable {m : Machine} {mv : Move} {σ σ₀ : Marks} {fuel lo hi i : Nat}

/-- Where a program has a result, nothing has been refused. -/
theorem run_forced {perform : Move → Marks → Option Answer} {a : Answer}
    (ha : (m.program mv σ).run perform = some a) : (m.forced mv σ).run perform = some a := by
  cases mv with
  | advance i =>
    obtain ⟨w, hw, hlive⟩ := program_advance ha
    rw [program, hw] at ha
    simp only [if_pos hlive] at ha
    rw [forced, hw]
    exact ha
  | _ => exact ha

/-- **A machine that refuses nothing** does what the machine does. -/
theorem force_of_perform {a : Answer} (ha : m.perform mv σ fuel = some a) :
    m.force fuel mv σ = some a := by
  induction fuel generalizing mv σ a with
  | zero =>
    rw [perform_zero] at ha
    cases ha
  | succ fuel ih =>
    rw [perform_succ] at ha
    exact run_forced (Program.run_mono (fun _ _ _ => ih) ha)

/-! ## Wheels that a move works on -/

/-- Whether the range of a wheel lies from `lo` up to `hi`. -/
def Spans (m : Machine) (lo hi i : Nat) : Prop :=
  ∃ w : Wheel, m[i]? = some w ∧ lo ≤ w.first ∧ i < hi

end Machine

/-- Whether the wheels that a move may change lie from `lo` up to `hi`. -/
def Move.Spans (m : Machine) (lo hi : Nat) : Move → Prop
  | .render _ | .renderRow _ => True
  | .reset i | .advance i => m.Spans lo hi i
  | .resetGear i gear | .advanceGear i gear =>
    (lo ≤ i ∧ i < hi) ∧ ∀ part ∈ gear.parts, m.Spans lo hi part
  | .resetRow parts | .resetEach parts | .advanceRow parts => ∀ part ∈ parts, m.Spans lo hi part
  | .gather child _ _ | .seek child _ | .spin child _ => m.Spans lo hi child
  | .settle i branches _ => (lo ≤ i ∧ i < hi) ∧ ∀ branch ∈ branches, m.Spans lo hi branch
  | .sift i branches _ branch =>
    (lo ≤ i ∧ i < hi) ∧ (∀ other ∈ branches, m.Spans lo hi other) ∧ m.Spans lo hi branch

namespace Marks.EqOutside

variable {lo hi i : Nat} {σ σ₀ : Marks}

theorem setDial (h : σ₀.EqOutside lo hi σ) (hrange : lo ≤ i ∧ i < hi) (dial : Dial) :
    σ₀.EqOutside lo hi (σ.setDial i dial) :=
  h.trans (eqOutside_setDial dial hrange.1 hrange.2)

theorem setSeen (h : σ₀.EqOutside lo hi σ) (hrange : lo ≤ i ∧ i < hi)
    (seen : Std.TreeSet (List Char) compare) : σ₀.EqOutside lo hi (σ.setSeen i seen) :=
  h.trans (eqOutside_setSeen seen hrange.1 hrange.2)

theorem setLive (h : σ₀.EqOutside lo hi σ) (hrange : lo ≤ i ∧ i < hi) (live : Bool) :
    σ₀.EqOutside lo hi (σ.setLive i live) :=
  h.trans (eqOutside_setLive live hrange.1 hrange.2)

end Marks.EqOutside

namespace Machine

section Frame

variable {m : Machine} {mv : Move} {σ σ₀ : Marks} {fuel lo hi i : Nat}

/-- What a wheel is made of lies where its range lies. -/
theorem Spans.exists_wheel (hm : m.Tiled) (h : m.Spans lo hi i) : ∃ w : Wheel, m[i]? = some w ∧
    (lo ≤ i ∧ i < hi) ∧ ∀ part ∈ w.gear.parts, m.Spans lo hi part := by
  obtain ⟨w, hw, hlo, hhi⟩ := h
  refine ⟨w, hw, ⟨Nat.le_trans hlo (hm i w hw).le, hhi⟩, fun part hpart => ?_⟩
  obtain ⟨v, hv, hfirst, -, hlt⟩ := (hm i w hw).mem hpart
  exact ⟨v, hv, Nat.le_trans hlo hfirst, Nat.lt_trans hlt hhi⟩

/-- Whether a move works from `lo` up to `hi`, and only there something has changed before. -/
def Keeping (m : Machine) (lo hi : Nat) (σ₀ : Marks) (mv : Move) (σ : Marks) : Prop :=
  mv.Spans m lo hi ∧ σ₀.EqOutside lo hi σ

/-- Whether a program leaves the wheels outside a range as they are, if the moves in it do. -/
def KeepsOutside (m : Machine) (lo hi : Nat) (σ₀ : Marks) (prog : Program) : Prop :=
  prog.Keeps (m.Keeping lo hi σ₀) (fun _ _ a => σ₀.EqOutside lo hi a.marks)
    fun a => σ₀.EqOutside lo hi a.marks

namespace KeepsOutside

variable {prog prog' : Program} {next : Answer → Program} {a : Answer}

theorem done (h : σ₀.EqOutside lo hi a.marks) : m.KeepsOutside lo hi σ₀ (.done a) := h

theorem move (hmv : m.Keeping lo hi σ₀ mv σ)
    (hnext : ∀ a, σ₀.EqOutside lo hi a.marks → m.KeepsOutside lo hi σ₀ (next a)) :
    m.KeepsOutside lo hi σ₀ (.move mv σ next) :=
  ⟨hmv, hnext⟩

/-- A program that makes one move only. -/
theorem once (hmv : m.Keeping lo hi σ₀ mv σ) : m.KeepsOutside lo hi σ₀ (.move mv σ .done) :=
  move hmv fun _ => done

theorem ite {c : Prop} [Decidable c] (h : m.KeepsOutside lo hi σ₀ prog)
    (h' : m.KeepsOutside lo hi σ₀ prog') :
    m.KeepsOutside lo hi σ₀ (if c then prog else prog') :=
  Program.keeps_ite.2 ⟨fun _ => h, fun _ => h'⟩

end KeepsOutside

/-! ### Programs -/

/-- What a wheel shows is looked up without a move, also by an echo. -/
theorem keepsOutside_render (h : σ₀.EqOutside lo hi σ) (i : Nat) :
    m.KeepsOutside lo hi σ₀ (m.program (.render i) σ) := by
  rw [program]
  cases m[i]? with
  | none => trivial
  | some w =>
    obtain ⟨gear, first⟩ := w
    cases gear with
    | texts values => exact .done h
    | row parts => exact .once ⟨trivial, h⟩
    | choice branches =>
      cases hbranch : branches[(σ.mark i).dial.index]? with
      | none =>
        simp only [hbranch]
        exact .done h
      | some branch =>
        simp only [hbranch]
        exact .once ⟨trivial, h⟩
    | times min max child => exact .done h
    | echo target => exact .ite (.once ⟨trivial, h⟩) (.done h)

theorem keepsOutside_resetGear (h : σ₀.EqOutside lo hi σ) {gear : Gear} (hrange : lo ≤ i ∧ i < hi)
    (hparts : ∀ part ∈ gear.parts, m.Spans lo hi part) :
    m.KeepsOutside lo hi σ₀ (m.program (.resetGear i gear) σ) := by
  cases gear with
  | texts values => exact .done (h.setDial hrange _)
  | row parts => exact .once ⟨hparts, h⟩
  | choice branches => exact .once ⟨⟨hrange, hparts⟩, h.setSeen hrange _⟩
  | times min max child =>
    have hchild : m.Spans lo hi child := hparts child (List.mem_singleton.2 rfl)
    refine .move ⟨hchild, h⟩ fun a ha => .move ⟨hchild, ha⟩ fun b hb => ?_
    exact .ite (.done (hb.setDial hrange _)) (.once ⟨hchild, hb.setDial hrange _⟩)
  | echo target => exact .done h

theorem keepsOutside_advanceGear (h : σ₀.EqOutside lo hi σ) {gear : Gear}
    (hrange : lo ≤ i ∧ i < hi) (hparts : ∀ part ∈ gear.parts, m.Spans lo hi part) :
    m.KeepsOutside lo hi σ₀ (m.program (.advanceGear i gear) σ) := by
  cases gear with
  | texts values => exact .done (h.setDial hrange _)
  | row parts => exact .once ⟨hparts, h⟩
  | choice branches =>
    rw [program]
    cases hbranch : branches[(σ.mark i).dial.index]? with
    | none => trivial
    | some branch =>
      have hspans : m.Spans lo hi branch := hparts branch (List.mem_of_getElem? hbranch)
      refine .move ⟨hspans, h⟩ fun a ha => ?_
      exact .ite (.once ⟨⟨hrange, hparts, hspans⟩, ha⟩) (.once ⟨⟨hrange, hparts⟩, ha⟩)
  | times min max child =>
    have hchild : m.Spans lo hi child := hparts child (List.mem_singleton.2 rfl)
    have hturned := h.setDial hrange
    refine .ite (.ite (.done (hturned _)) (.once ⟨hchild, ?_⟩)) (.once ⟨hchild, hturned _⟩)
    exact (hturned _).setDial hrange _
  | echo target => exact .done h

theorem keepsOutside_advanceRow (h : σ₀.EqOutside lo hi σ) {parts : List Nat}
    (hparts : ∀ part ∈ parts, m.Spans lo hi part) :
    m.KeepsOutside lo hi σ₀ (m.program (.advanceRow parts) σ) := by
  cases parts with
  | nil => exact .done h
  | cons part parts =>
    obtain ⟨hpart, hparts⟩ := List.forall_mem_cons.1 hparts
    refine .move ⟨hparts, h⟩ fun a ha => .ite (.done ha) ?_
    exact .move ⟨hpart, ha⟩ fun b hb => .ite (.once ⟨hparts, hb⟩) (.done hb)

section Choice

variable {branches : List Nat} {index branch : Nat}

theorem keepsOutside_settle (h : σ₀.EqOutside lo hi σ)
    (hspans : Move.Spans m lo hi (.settle i branches index)) :
    m.KeepsOutside lo hi σ₀ (m.program (.settle i branches index) σ) := by
  rw [program]
  cases hbranch : branches[index]? with
  | none => exact .done h
  | some branch =>
    have hbranch : m.Spans lo hi branch := hspans.2 branch (List.mem_of_getElem? hbranch)
    refine .move ⟨hbranch, h.setDial hspans.1 _⟩ fun a ha => ?_
    exact .ite (.once ⟨⟨hspans.1, hspans.2, hbranch⟩, ha⟩) (.once ⟨hspans, ha⟩)

theorem keepsOutside_sift (h : σ₀.EqOutside lo hi σ)
    (hspans : Move.Spans m lo hi (.sift i branches index branch)) :
    m.KeepsOutside lo hi σ₀ (m.program (.sift i branches index branch) σ) := by
  obtain ⟨hrange, hbranches, hbranch⟩ := hspans
  refine .move ⟨trivial, h⟩ fun _ _ => .ite ?_ (.done (h.setSeen hrange _))
  refine .move ⟨hbranch, h⟩ fun b hb => ?_
  exact .ite (.once ⟨⟨hrange, hbranches, hbranch⟩, hb⟩) (.once ⟨⟨hrange, hbranches⟩, hb⟩)

end Choice

/-- **No program moves a wheel outside the range that it works in.** -/
theorem keepsOutside_forced (hm : m.Tiled) (h : m.Keeping lo hi σ₀ mv σ) :
    m.KeepsOutside lo hi σ₀ (m.forced mv σ) := by
  obtain ⟨hspans, hkept⟩ := h
  cases mv with
  | render i => exact keepsOutside_render hkept i
  | renderRow parts =>
    cases parts with
    | nil => exact .done hkept
    | cons part parts =>
      exact .move ⟨trivial, hkept⟩ fun _ _ => .move ⟨trivial, hkept⟩ fun _ _ => .done hkept
  | reset i =>
    obtain ⟨w, hw, hrange, hparts⟩ := hspans.exists_wheel hm
    show m.KeepsOutside lo hi σ₀ (m.program (.reset i) σ)
    rw [program, hw]
    exact .move ⟨⟨hrange, hparts⟩, hkept⟩ fun a ha => .done (ha.setLive hrange _)
  | resetGear i gear => exact keepsOutside_resetGear hkept hspans.1 hspans.2
  | resetRow parts =>
    cases parts with
    | nil => exact .done hkept
    | cons part parts =>
      obtain ⟨hpart, hparts⟩ := List.forall_mem_cons.1 hspans
      exact .move ⟨hpart, hkept⟩ fun a ha => .ite (.once ⟨hparts, ha⟩) (.done ha)
  | resetEach parts =>
    cases parts with
    | nil => exact .done hkept
    | cons part parts =>
      obtain ⟨hpart, hparts⟩ := List.forall_mem_cons.1 hspans
      exact .move ⟨hpart, hkept⟩ fun a ha => .once ⟨hparts, ha⟩
  | gather child values found =>
    refine .ite (.move ⟨trivial, hkept⟩ fun _ _ => ?_) (.done hkept)
    exact .move ⟨hspans, hkept⟩ fun b hb => .once ⟨hspans, hb⟩
  | advance i =>
    obtain ⟨w, hw, hrange, hparts⟩ := hspans.exists_wheel hm
    rw [forced, hw]
    exact .move ⟨⟨hrange, hparts⟩, hkept⟩ fun a ha => .done (ha.setLive hrange _)
  | advanceGear i gear => exact keepsOutside_advanceGear hkept hspans.1 hspans.2
  | advanceRow parts => exact keepsOutside_advanceRow hkept hspans
  | settle i branches index => exact keepsOutside_settle hkept hspans
  | sift i branches index branch => exact keepsOutside_sift hkept hspans
  | seek child digits =>
    show m.KeepsOutside lo hi σ₀ (m.program (.seek child digits) σ)
    rw [program]
    cases digits.getLast? with
    | none => exact .done hkept
    | some digit => exact .move ⟨hspans, hkept⟩ fun a ha => .once ⟨hspans, ha⟩
  | spin child count =>
    cases count with
    | zero => exact .done hkept
    | succ count => exact .move ⟨hspans, hkept⟩ fun a ha => .once ⟨hspans, ha⟩

/-- **A move changes the wheels in its range only.** -/
theorem eqOutside_force (hm : m.Tiled) (h : m.Keeping lo hi σ₀ mv σ) {a : Answer}
    (ha : m.force fuel mv σ = some a) : σ₀.EqOutside lo hi a.marks := by
  induction fuel generalizing mv σ a with
  | zero => cases ha
  | succ fuel ih =>
    exact Program.keeps_run (keepsOutside_forced hm h) (fun _ _ _ hmade hb => ih hmade hb) ha

end Frame

end Machine

/-! ## Odometers -/

namespace Odometer

variable {cap : Nat} {tree : Tree} {o o' : Odometer} {fuel : Nat}

theorem machine_next {text : Option (List Char)} (h : o.next fuel = some (text, o')) :
    o'.machine = o.machine ∧ o'.root = o.root := by
  obtain ⟨⟨more, marks⟩, -, h⟩ := Option.bind_eq_some_iff.1 h
  cases more with
  | true =>
    obtain ⟨_, -, h⟩ := Option.bind_eq_some_iff.1 h
    cases h
    exact ⟨rfl, rfl⟩
  | false =>
    cases h
    exact ⟨rfl, rfl⟩

/-- No call changes a wheel. -/
theorem machine_after {calls : List Call} (h : o.after calls fuel = some o') :
    o'.machine = o.machine ∧ o'.root = o.root := by
  induction calls generalizing o with
  | nil =>
    cases h
    exact ⟨rfl, rfl⟩
  | cons call calls ih =>
    cases call with
    | next =>
      obtain ⟨⟨text, o₁⟩, hnext, hafter⟩ := Option.bind_eq_some_iff.1 h
      obtain ⟨hmachine, hroot⟩ := ih hafter
      exact ⟨hmachine.trans (machine_next hnext).1, hroot.trans (machine_next hnext).2⟩
    | restart =>
      have hafter : o.restart.after calls fuel = some o' := h
      obtain ⟨hmachine, hroot⟩ := ih hafter
      exact ⟨hmachine, hroot⟩

/-- Wherever some calls leave an odometer, each of its wheels can be reset. -/
theorem resets_after (h : ofTree cap tree = .ok o) (calls : List Call) :
    ∃ o', Ends (o.after calls) o' ∧
      ∀ i < o.machine.size, ∃ found σ', Ends (o.machine.reset i o'.marks) (found, σ') := by
  obtain ⟨p, hplan, rfl⟩ := ofTree_eq_ok_iff.1 h
  have hp := Tree.wellNamed_plan hplan
  have hm : (p.machine cap).Descending := p.descending_machine hp
  have hplaced : p.Placed (p.machine cap) cap p.place [] 0 := p.placed_machine hp
  obtain ⟨o', _, hafter, hfollows, -⟩ := (Follows.ofPlan cap p).after hp List.drop_zero.symm calls
  refine ⟨o', hafter, fun i hi => ?_⟩
  have hroot : i ≤ p.root 0 := Nat.le_of_lt_succ (hi.trans_eq (size_machine cap p))
  obtain ⟨σ', hreset⟩ := hplaced.resets hm (.nil _ _ _ _) hfollows.idle (Nat.zero_le i) hroot
  exact ⟨_, σ', hreset⟩

/-- **A wheel that is moved moves its own wheels only,** wherever it is moved from and whether it
has a value or not. No call changes what a wheel is. -/
theorem moves_own_wheels (h : ofTree cap tree = .ok o) :
    (∀ calls fuel o', o.after calls fuel = some o' → o'.machine = o.machine ∧ o'.root = o.root) ∧
      (∀ calls, ∃ o', Ends (o.after calls) o' ∧
        ∀ i < o.machine.size, ∃ found σ', Ends (o.machine.reset i o'.marks) (found, σ')) ∧
      ∀ (i : Nat) (w : Wheel), o.machine[i]? = some w → ∀ (σ : Marks) (fuel : Nat),
        (∀ found σ', o.machine.reset i σ fuel = some (found, σ') →
          σ.EqOutside w.first (i + 1) σ') ∧
        (∀ found σ', o.machine.advance i σ fuel = some (found, σ') →
          σ.EqOutside w.first (i + 1) σ') ∧
        ∀ mv a, mv = .reset i ∨ mv = .advance i → o.machine.force fuel mv σ = some a →
          σ.EqOutside w.first (i + 1) a.marks := by
  refine ⟨fun _ _ _ => machine_after, resets_after h, fun i w hw σ fuel => ?_⟩
  have hforce : ∀ mv a, mv = .reset i ∨ mv = .advance i → o.machine.force fuel mv σ = some a →
      σ.EqOutside w.first (i + 1) a.marks := by
    intro mv a hmv ha
    have hspans : mv.Spans o.machine w.first (i + 1) := by
      rcases hmv with rfl | rfl
      · exact ⟨w, hw, Nat.le_refl _, Nat.lt_succ_self i⟩
      · exact ⟨w, hw, Nat.le_refl _, Nat.lt_succ_self i⟩
    exact eqOutside_force (tiled_ofTree h) ⟨hspans, .refl σ⟩ ha
  refine ⟨fun found σ' hreset => ?_, fun found σ' hadvance => ?_, hforce⟩
  · have hperform : o.machine.perform (.reset i) σ fuel = some { marks := σ', found } := by
      rw [perform, hreset]
      rfl
    exact hforce _ _ (.inl rfl) (force_of_perform hperform)
  · have hperform : o.machine.perform (.advance i) σ fuel = some { marks := σ', found } := by
      rw [perform, hadvance]
      rfl
    exact hforce _ _ (.inr rfl) (force_of_perform hperform)

/-- The branch of a choice moves on, and the choice shows it, but does not move. -/
theorem moves_own_wheels_leftBehind : ∃ o o₁ found σ, ofTree 1 leftBehind = .ok o ∧
    o.after [.next] 60 = some o₁ ∧ o.machine.advance 3 o₁.marks 60 = some (found, σ) ∧
      o.machine.render o₁.marks 7 60 = some [] ∧ o.machine.render σ 7 60 = some ['A'] ∧
      ∀ i, 3 < i → σ.mark i = o₁.marks.mark i := by
  obtain ⟨o, ho⟩ : ∃ o, ofTree 1 leftBehind = .ok o := ⟨_, rfl⟩
  have hshown : (o.after [.next] 60).bind (fun o₁ => (o.machine.advance 3 o₁.marks 60).bind fun a =>
      (o.machine.render o₁.marks 7 60).bind fun before =>
        (o.machine.render a.2 7 60).map fun text => (before, text)) = some ([], ['A']) := by
    cases ho
    decide +kernel
  obtain ⟨o₁, hafter, hshown⟩ := Option.bind_eq_some_iff.1 hshown
  obtain ⟨⟨found, σ⟩, hadvance, hshown⟩ := Option.bind_eq_some_iff.1 hshown
  obtain ⟨before, hbefore, hshown⟩ := Option.bind_eq_some_iff.1 hshown
  obtain ⟨text, htext, hshown⟩ := Option.map_eq_some_iff.1 hshown
  cases hshown
  obtain ⟨w, hw⟩ : ∃ w, o.machine[3]? = some w := by
    cases ho
    exact ⟨_, rfl⟩
  refine ⟨o, o₁, found, σ, ho, hafter, hadvance, hbefore, htext, fun i hi => ?_⟩
  exact ((moves_own_wheels ho).2.2 3 w hw o₁.marks 60).2.1 found σ hadvance i (.inr hi)

end Odometer

end SequenceConstraint
