import SequenceConstraint.Proofs.Odometer.Soundness

/-!
# The protocol of a machine

A wheel may be advanced only if its latest move has found a value; where a part of a row or the
child of a repetition is reset, it is taken for granted that there is a value; and a choice is
advanced without a look at how many branches there are. In a run of an odometer none of this goes
wrong, in any of the moves that are made on the way (`Odometer.Makes`): they are all *orderly*.

What is left on the dial of a wheel that is not live is read, too, by echoes. So not every dial that
is read says something that is there (`Odometer.not_forall_inRange`); the others belong to wheels
that are not live, and show nothing (`Machine.Sound.inRange_or_shows_nothing`).

## Main statements

* `Machine.live_perform`, `Machine.live_of_not_made` — a wheel is live just if its latest move has
  found a value
* `Odometer.Runs.makes` — what is made in a run, may be made
* `Odometer.keeps_protocol` — every move in a run is orderly
-/

namespace SequenceConstraint

/-! ## Wheels that are live -/

namespace Marks

variable (σ : Marks) (i j : Nat)

@[simp] theorem live_setDial (dial : Dial) :
    ((σ.setDial j dial).mark i).live = (σ.mark i).live := by
  by_cases h : i = j
  · rw [h, mark_setDial_self]
  · rw [mark_setDial_of_ne σ dial h]

@[simp] theorem live_setSeen (seen : Std.TreeSet (List Char) compare) :
    ((σ.setSeen j seen).mark i).live = (σ.mark i).live := by
  by_cases h : i = j
  · rw [h, mark_setSeen_self]
  · rw [mark_setSeen_of_ne σ seen h]

end Marks

namespace Machine

section Live

variable {m : Machine} {mv : Move} {σ : Marks} {i fuel : Nat}

/-- Only a wheel that is live can be advanced. -/
theorem program_advance {perform : Move → Marks → Option Answer} {a : Answer}
    (ha : (m.program (.advance i) σ).run perform = some a) :
    ∃ w, m[i]? = some w ∧ (σ.mark i).live = true := by
  rw [program] at ha
  cases hw : m[i]? with
  | none =>
    rw [hw] at ha
    cases ha
  | some w =>
    refine ⟨w, rfl, by_contra fun hlive => ?_⟩
    rw [hw] at ha
    simp only [if_neg hlive] at ha
    cases ha

/-- A wheel is live after a move of its own if the move has found a value. -/
theorem live_perform {a : Answer} (hmv : mv = .reset i ∨ mv = .advance i)
    (ha : m.perform mv σ fuel = some a) : (a.marks.mark i).live = a.found := by
  cases fuel with
  | zero =>
    rw [perform_zero] at ha
    cases ha
  | succ fuel =>
    rw [perform_succ] at ha
    rcases hmv with rfl | rfl
    · rw [program] at ha
      cases hw : m[i]? with
      | none =>
        rw [hw] at ha
        cases ha
      | some w =>
        rw [hw] at ha
        obtain ⟨b, -, ha⟩ := Option.bind_eq_some_iff.1 ha
        cases ha
        rw [Marks.mark_setLive_self]
    · obtain ⟨w, hw, hlive⟩ := program_advance ha
      rw [program, hw] at ha
      simp only [if_pos hlive] at ha
      obtain ⟨b, -, ha⟩ := Option.bind_eq_some_iff.1 ha
      cases ha
      rw [Marks.mark_setLive_self]

/-- Moves that do not reset or advance a wheel themselves leave it live or not. -/
theorem keeps_live {live : Bool} (hreset : mv ≠ .reset i) (hadvance : mv ≠ .advance i)
    (h : (σ.mark i).live = live) : (m.program mv σ).Keeps (fun _ σ => (σ.mark i).live = live)
      (fun _ _ a => (a.marks.mark i).live = live) fun a => (a.marks.mark i).live = live := by
  have hsetLive : ∀ j, (mv = .reset j ∨ mv = .advance j) → ∀ (σ : Marks) found,
      ((σ.setLive j found).mark i).live = (σ.mark i).live := by
    rintro j (rfl | rfl) σ found
    · rw [Marks.mark_setLive_of_ne _ _ fun (heq : i = j) =>
        hreset (congrArg Move.reset heq.symm)]
    · rw [Marks.mark_setLive_of_ne _ _ fun (heq : i = j) =>
        hadvance (congrArg Move.advance heq.symm)]
  cases mv with
  | render j =>
    rw [program]
    cases m[j]? with
    | none => trivial
    | some w =>
      obtain ⟨gear, first⟩ := w
      cases gear with
      | choice branches =>
        cases hbranch : branches[(σ.mark j).dial.index]? <;> simp [hbranch, Program.Keeps, h]
      | _ => simp [Program.Keeps, Program.keeps_ite, h]
  | renderRow parts => cases parts <;> simp [program, Program.Keeps, h]
  | reset j =>
    rw [program]
    cases m[j]? <;> simp [Program.Keeps, h, hsetLive j (.inl rfl)]
  | resetGear j gear =>
    cases gear <;> simp +contextual [program, Program.Keeps, Program.keeps_ite, h]
  | resetRow parts =>
    cases parts <;> simp +contextual [program, Program.Keeps, Program.keeps_ite, h]
  | resetEach parts => cases parts <;> simp [program, Program.Keeps, h]
  | gather child values found => cases found <;> simp [program, Program.Keeps, h]
  | advance j =>
    rw [program]
    cases m[j]? <;> simp [Program.Keeps, Program.keeps_ite, h, hsetLive j (.inr rfl)]
  | advanceGear j gear =>
    cases gear with
    | choice branches =>
      rw [program]
      cases hbranch : branches[(σ.mark j).dial.index]? <;>
        simp +contextual [Program.Keeps, Program.keeps_ite, h]
    | _ => simp +contextual [program, Program.Keeps, Program.keeps_ite, h]
  | advanceRow parts =>
    cases parts <;> simp +contextual [program, Program.Keeps, Program.keeps_ite, h]
  | settle j branches index =>
    rw [program]
    cases branches[index]? <;> simp +contextual [Program.Keeps, Program.keeps_ite, h]
  | sift j branches index branch =>
    simp +contextual [program, Program.Keeps, Program.keeps_ite, h]
  | seek child digits =>
    rw [program]
    cases digits.getLast? <;> simp +contextual [Program.Keeps, h]
  | spin child count => cases count <;> simp [program, Program.Keeps, h]

/-- A wheel is as live as before if it is neither reset nor advanced. -/
theorem live_of_not_made {a : Answer}
    (hnone : ∀ mv' σ', m.Made fuel (.move mv σ .done) mv' σ' → mv' ≠ .reset i ∧ mv' ≠ .advance i)
    (ha : m.perform mv σ fuel = some a) : (a.marks.mark i).live = (σ.mark i).live := by
  induction fuel generalizing mv σ a with
  | zero =>
    rw [perform_zero] at ha
    cases ha
  | succ fuel ih =>
    obtain ⟨hreset, hadvance⟩ := hnone mv σ (.now ..)
    rw [perform_succ] at ha
    refine keeps_of_made (keeps_live hreset hadvance rfl) (fun mv₁ σ₁ b hmade hlive hb => ?_) ha
    exact (ih (fun mv' σ' h => hnone mv' σ' (.within (hmade mv' σ' h))) hb).trans hlive

end Live

/-! ## Orderly moves -/

/-- Whether to reset any wheel tells what it always tells, given by `first`. -/
def ResetsTo (m : Machine) (first : Nat → Bool) (σ : Marks) : Prop :=
  ∀ i < m.size, ∃ σ', Ends (m.reset i σ) (first i, σ')

/-- Whether a move keeps to the protocol. -/
structure Orderly (m : Machine) (first : Nat → Bool) (mv : Move) (σ : Marks) : Prop where
  /-- The wheels that are moved or looked at are there. -/
  present : ∀ i, mv = .reset i ∨ mv = .advance i ∨ mv = .render i → i < m.size
  /-- Only wheels whose latest move has found a value are advanced: they are live. -/
  live : ∀ i, mv = .advance i → (σ.mark i).live = true
  /-- A move of its own leaves a wheel live just if it has found a value, -/
  found : ∀ i fuel a, mv = .reset i ∨ mv = .advance i → m.perform mv σ fuel = some a →
    (a.marks.mark i).live = a.found
  /-- and any other move as it was, if no such move is made on the way. -/
  kept : ∀ i fuel a, (∀ mv' σ', m.Made fuel (.move mv σ .done) mv' σ' →
    mv' ≠ .reset i ∧ mv' ≠ .advance i) → m.perform mv σ fuel = some a →
      (a.marks.mark i).live = (σ.mark i).live
  /-- To reset a wheel tells the same at all times. -/
  resets : m.ResetsTo first σ
  told : ∀ i fuel found σ', mv = .reset i → m.reset i σ fuel = some (found, σ') → found = first i
  /-- Parts that are reset without a look at what they tell have a first value. -/
  each : ∀ part parts, mv = .resetEach (part :: parts) → first part = true
  /-- So has a child that is moved to one of its values. -/
  seek : ∀ child digit digits, mv = .seek child (digit :: digits) → first child = true
  /-- The branch that a choice has turned to is there. -/
  branch : ∀ i branches, mv = .advanceGear i (.choice branches) →
    (σ.mark i).dial.index < branches.length
  /-- The dials of all wheels that are live say something that is there. -/
  inRange : ∀ i w, m[i]? = some w → (σ.mark i).live = true → w.gear.InRange (σ.mark i).dial
  /-- Any other dial does so, too, or it has nothing to say, and its wheel shows nothing. -/
  pastEnd : ∀ i w, m[i]? = some w → ¬w.gear.InRange (σ.mark i).dial →
    (σ.mark i).live = false ∧ w.gear.PastEnd (σ.mark i).dial ∧
      ∀ fuel, m.render σ i (fuel + 1) = some []

variable {m : Machine} {starts : Nat → Prop} {mv : Move} {σ : Marks} {i fuel : Nat}

/-- A move that is made where it may be made, and has a result, is orderly. -/
theorem Allowed.orderly (hm : m.Descending)
    (hready : ∀ i w, m[i]? = some w → starts i → w.gear.Ready m.fruitful starts)
    (hresets : ∀ σ, m.Sound starts σ → m.ResetsTo m.fruitful σ) (h : m.Allowed starts mv σ)
    {b : Answer} (hb : (m.program mv σ).run (fun mv σ => m.perform mv σ fuel) = some b) :
    m.Orderly m.fruitful mv σ where
  present i hmv := by
    refine Nat.lt_of_not_le fun hsize => ?_
    have hnone : m[i]? = none := Array.getElem?_eq_none hsize
    rcases hmv with rfl | rfl | rfl <;>
    · rw [program, hnone] at hb
      cases hb
  live i hmv := by
    subst hmv
    obtain ⟨-, -, hlive⟩ := program_advance hb
    exact hlive
  found _ _ _ := live_perform
  kept _ _ _ := live_of_not_made
  resets := hresets σ h.sound
  told i fuel found σ' hmv hreset := by
    subst hmv
    have hperform : m.perform (.reset i) σ fuel = some { marks := σ', found } := by
      rw [perform, hreset]
      rfl
    exact (perform_keeps (program_keeps hm hready) h hperform).post.2
  each part parts hmv := by
    subst hmv
    exact (h.pre part List.mem_cons_self).2
  seek child digit digits hmv := by
    subst hmv
    exact h.pre.2 (List.cons_ne_nil digit digits)
  branch i branches hmv := by
    subst hmv
    refine Nat.lt_of_not_le fun hlength => ?_
    rw [program, List.getElem?_eq_none hlength] at hb
    cases hb
  inRange i w hw hlive := (h.sound.fits i).inRange hw hlive
  pastEnd i w hw := (h.sound.inRange_or_shows_nothing hw).resolve_left

end Machine

/-! ## What an odometer does -/

namespace Odometer

/-- What is shown of a text that has been found. -/
def shown (o : Odometer) (a : Answer) : Program :=
  if a.found then .move (.render o.root) a.marks fun b => .done { a with text := b.text }
  else .done a

/-- What an odometer does to give the next text. -/
def program (o : Odometer) : Program :=
  match o.stage with
  | .fresh => .move (.reset o.root) o.marks o.shown
  | .running => .move (.advance o.root) o.marks o.shown
  | .done => .done { marks := o.marks, found := false }

/-- What an odometer answers. -/
def answer (o : Odometer) (a : Answer) : Option (List Char) × Odometer :=
  if a.found then (some a.text, { o with marks := a.marks, stage := .running })
  else (none, { o with marks := a.marks, stage := .done })

/-- The moves that are made during some calls in a row, and those made in turn. -/
def Makes (o : Odometer) : (calls : List Call) → (fuel : Nat) → Move → Marks → Prop
  | [], _, _, _ => False
  | .next :: calls, fuel, mv, σ =>
    o.machine.Made fuel o.program mv σ ∨
      ∃ text o', o.next fuel = some (text, o') ∧ o'.Makes calls fuel mv σ
  | .restart :: calls, fuel, mv, σ => o.restart.Makes calls fuel mv σ

variable {o : Odometer} {fuel : Nat}

/-- **An odometer does what its program does.** -/
theorem next_eq_run (o : Odometer) (fuel : Nat) : o.next fuel =
    (o.program.run fun mv σ => o.machine.perform mv σ fuel).map o.answer := by
  rw [next, move, program]
  cases o.stage with
  | fresh =>
    rcases hreset : o.machine.reset o.root o.marks fuel with _ | ⟨_ | _, σ⟩
    · simp [Program.run, Machine.perform, hreset]
    · simp [Program.run, Machine.perform, hreset, shown, answer]
    · cases hrender : o.machine.render σ o.root fuel <;>
        simp [Program.run, Machine.perform, hreset, hrender, shown, answer]
  | running =>
    rcases hadvance : o.machine.advance o.root o.marks fuel with _ | ⟨_ | _, σ⟩
    · simp [Program.run, Machine.perform, hadvance]
    · simp [Program.run, Machine.perform, hadvance, shown, answer]
    · cases hrender : o.machine.render σ o.root fuel <;>
        simp [Program.run, Machine.perform, hadvance, hrender, shown, answer]
  | done => simp [Program.run, answer]

/-! ## Runs -/

section Runs

variable {m : Machine} {starts : Nat → Prop} {root : Nat}

/-- Whether an odometer of a machine has sound marks, and its wheel may be moved. -/
structure Runs (m : Machine) (starts : Nat → Prop) (root : Nat) (o : Odometer) : Prop where
  machine : o.machine = m
  root : o.root = root
  sound : m.Sound starts o.marks

theorem Runs.program_keeps (h : Runs m starts root o) (hroot : starts root) :
    o.program.Keeps (m.Allowed starts) (m.Meets starts) fun a => m.Sound starts a.marks := by
  have hshown : ∀ a, m.Sound starts a.marks → (o.shown a).Keeps (m.Allowed starts)
      (m.Meets starts) fun a => m.Sound starts a.marks := by
    intro a ha
    unfold shown
    split
    · exact ⟨⟨ha, trivial⟩, fun _ _ => ha⟩
    · exact ha
  have hallowed : starts o.root := h.root ▸ hroot
  unfold program
  cases o.stage with
  | fresh => exact ⟨⟨h.sound, hallowed⟩, fun a ha => hshown a ha.post.1⟩
  | running => exact ⟨⟨h.sound, hallowed⟩, fun a ha => hshown a ha.post.1⟩
  | done => exact h.sound

theorem Runs.restart (h : Runs m starts root o) : Runs m starts root o.restart :=
  ⟨h.machine, h.root, h.sound⟩

variable (hm : m.Descending)
  (hready : ∀ i w, m[i]? = some w → starts i → w.gear.Ready m.fruitful starts)

include hm hready

theorem Runs.next {text : Option (List Char)} {o' : Odometer} (h : Runs m starts root o)
    (hroot : starts root) (hnext : o.next fuel = some (text, o')) : Runs m starts root o' := by
  rw [next_eq_run, h.machine] at hnext
  obtain ⟨a, ha, hanswer⟩ := Option.map_eq_some_iff.1 hnext
  have hsound := Machine.keeps_of_made (h.program_keeps hroot)
    (fun _ _ _ _ => Machine.perform_keeps (Machine.program_keeps hm hready)) ha
  unfold answer at hanswer
  split at hanswer
  · cases hanswer
    exact ⟨h.machine, h.root, hsound⟩
  · cases hanswer
    exact ⟨h.machine, h.root, hsound⟩

/-- **All moves in a run may be made,** and have a result if the run has. -/
theorem Runs.makes {calls : List Call} {o' : Odometer} {mv : Move} {σ : Marks}
    (h : Runs m starts root o) (hroot : starts root) (hafter : o.after calls fuel = some o')
    (hmakes : o.Makes calls fuel mv σ) : m.Allowed starts mv σ ∧
      ∃ fuel' b, (m.program mv σ).run (fun mv σ => m.perform mv σ fuel') = some b := by
  induction calls generalizing o with
  | nil => exact hmakes.elim
  | cons call calls ih =>
    cases call with
    | next =>
      obtain ⟨⟨text, o₁⟩, hnext, hafter⟩ := Option.bind_eq_some_iff.1 hafter
      rcases hmakes with hmade | ⟨text', o₁', hnext', hmakes⟩
      · rw [h.machine] at hmade
        rw [next_eq_run, h.machine] at hnext
        obtain ⟨a, ha, -⟩ := Option.map_eq_some_iff.1 hnext
        exact ⟨hmade.allowed (Machine.program_keeps hm hready) (h.program_keeps hroot),
          hmade.performed ha⟩
      · cases hnext.symm.trans hnext'
        exact ih (h.next hm hready hroot hnext) hafter hmakes
    | restart => exact ih h.restart hafter hmakes

theorem Runs.after {calls : List Call} {o' : Odometer} (h : Runs m starts root o)
    (hroot : starts root) (hafter : o.after calls fuel = some o') : Runs m starts root o' := by
  induction calls generalizing o with
  | nil =>
    cases hafter
    exact h
  | cons call calls ih =>
    cases call with
    | next =>
      obtain ⟨⟨text, o₁⟩, hnext, hafter⟩ := Option.bind_eq_some_iff.1 hafter
      exact ih (h.next hm hready hroot hnext) hafter
    | restart => exact ih h.restart hafter

end Runs

/-! ## The protocol -/

variable {cap : Nat} {tree : Tree}

/-- **The protocol is kept,** in every move that is made during any calls: only wheels whose latest
move has found a value are advanced, to reset a wheel tells the same at all times, and whatever is
asked for is there. Each wheel works on wheels before it, so these are there, too. Only what echoes
read off a wheel that is not live may be nothing. -/
theorem keeps_protocol (h : ofTree cap tree = .ok o) :
    o.machine.Descending ∧ ∃ first : Nat → Bool, ∀ calls,
      (∃ o', Ends (o.after calls) o') ∧
      ∀ fuel o', o.after calls fuel = some o' →
        o.machine.ResetsTo first o'.marks ∧
        ∀ mv σ, o.Makes calls fuel mv σ → o.machine.Orderly first mv σ := by
  obtain ⟨p, hplan, rfl⟩ := ofTree_eq_ok_iff.1 h
  have hp := Tree.wellNamed_plan hplan
  have hm : (p.machine cap).Descending := p.descending_machine hp
  have hplaced : p.Placed (p.machine cap) cap p.place [] 0 := p.placed_machine hp
  let starts : Nat → Prop := fun i => p.Starts cap i 0
  have hready : ∀ i w, (p.machine cap)[i]? = some w → starts i →
      w.gear.Ready (p.machine cap).fruitful starts := fun i w => hplaced.ready hm
  have hresets : ∀ σ, (p.machine cap).Sound starts σ →
      (p.machine cap).ResetsTo (p.machine cap).fruitful σ := by
    intro σ hσ i hi
    have hidle : p.Idle cap σ 0 := Plan.idle_of_starts fun j _ _ hj => by rw [hσ.untouched j hj]
    rw [size_machine] at hi
    exact hplaced.resets hm (.nil _ _ _ _) hidle (Nat.zero_le i) (Nat.le_of_lt_succ hi)
  have hruns : Runs (p.machine cap) starts (p.root 0) (ofPlan cap p) :=
    ⟨rfl, rfl, Machine.sound_empty⟩
  refine ⟨hm, (p.machine cap).fruitful, fun calls => ⟨?_, fun fuel o' hafter => ⟨?_, ?_⟩⟩⟩
  · obtain ⟨o', -, hends, -⟩ := (Follows.ofPlan cap p).after hp List.drop_zero.symm calls
    exact ⟨o', hends⟩
  · exact hresets _ (hruns.after hm hready p.starts_root hafter).sound
  · intro mv σ hmakes
    obtain ⟨hallowed, fuel', b, hb⟩ := hruns.makes hm hready p.starts_root hafter hmakes
    exact hallowed.orderly hm hready hresets hb

/-- The second text is looked for from where the first has been found. -/
theorem keeps_protocol_leftBehind : ∃ o o₁ o₂ first, ofTree 1 leftBehind = .ok o ∧
    o.after [.next] 60 = some o₁ ∧ o.after [.next, .next] 60 = some o₂ ∧
      o.Makes [.next, .next] 60 (.advance o₁.root) o₁.marks ∧
      o.machine.Orderly first (.advance o₁.root) o₁.marks := by
  obtain ⟨o, ho⟩ : ∃ o, ofTree 1 leftBehind = .ok o := ⟨_, rfl⟩
  have hruns : ((o.next 60).map fun a => a.2.stage) = some .running ∧
      (o.after [.next, .next] 60).isSome = true := by
    cases ho
    decide +kernel
  obtain ⟨⟨text, o₁⟩, hnext, hstage⟩ := Option.map_eq_some_iff.1 hruns.1
  obtain ⟨o₂, hafter⟩ := Option.isSome_iff_exists.1 hruns.2
  have hfirst : o.after [.next] 60 = some o₁ := by
    rw [Odometer.after, hnext]
    rfl
  have hmakes : o.Makes [.next, .next] 60 (.advance o₁.root) o₁.marks := by
    refine .inr ⟨text, o₁, hnext, .inl ?_⟩
    rw [program, show o₁.stage = .running from hstage]
    exact .now ..
  obtain ⟨-, first, hcalls⟩ := keeps_protocol ho
  exact ⟨o, o₁, o₂, first, ho, hfirst, hafter, hmakes,
    ((hcalls [.next, .next]).2 60 o₂ hafter).2 _ _ hmakes⟩

/-- An echo reads a wheel whose branch has been passed, and its dial has nothing to say. -/
theorem not_forall_inRange : ¬∀ cap tree o, ofTree cap tree = .ok o → ∀ calls fuel o',
    o.after calls fuel = some o' → ∀ i σ w, o.Makes calls fuel (.render i) σ →
      o.machine[i]? = some w → w.gear.InRange (σ.mark i).dial := by
  intro h
  obtain ⟨o, ho⟩ : ∃ o, ofTree 0 passedOver = .ok o := ⟨_, rfl⟩
  have hruns : ((o.next 40).map fun a => (a.2.machine.moves 40 a.2.program).any fun
      | (.render 0, σ) => (σ.mark 0).dial.index == 1
      | _ => false) = some true ∧ (o.after [.next, .next] 40).isSome = true := by
    cases ho
    decide +kernel
  obtain ⟨⟨text, o₁⟩, hnext, hread⟩ := Option.map_eq_some_iff.1 hruns.1
  obtain ⟨o₂, hafter⟩ := Option.isSome_iff_exists.1 hruns.2
  obtain ⟨⟨mv, σ⟩, hmem, hmv⟩ := List.any_eq_true.1 hread
  split at hmv
  · rename_i σ heq
    cases heq
    have hmakes : o.Makes [.next, .next] 40 (.render 0) σ :=
      .inr ⟨text, o₁, hnext, .inl (Machine.mem_moves.1 hmem)⟩
    have hw : o.machine[0]? = some ⟨.texts [['A']], 0⟩ := by
      cases ho
      rfl
    have hlt : (σ.mark 0).dial.index < 1 := h 0 passedOver o ho _ 40 o₂ hafter 0 σ _ hmakes hw
    rw [beq_iff_eq.1 hmv] at hlt
    exact Nat.lt_irrefl 1 hlt
  · cases hmv

end Odometer

end SequenceConstraint
