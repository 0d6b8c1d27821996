import SequenceConstraint.Proofs.Odometer.Fruitful
import SequenceConstraint.Proofs.Odometer.Programs

/-!
# Sound marks

Marks are *sound* if only wheels that start have been moved, and if what is remembered of a wheel
fits it: a wheel that is live has a value, and its dial says something that is there
(`Gear.InRange`); any other dial does so, too, or has nothing to say (`Gear.PastEnd`). Every move
asks for sound marks and leaves sound marks, and makes other moves only where they may be made
(`Machine.Allowed`). On the way each move tells what it should: to reset a wheel tells whether the
wheel has a value, whatever the marks are.

## Main statements

* `Machine.Sound.inRange_or_shows_nothing` — what an echo may read off a wheel that is not live
* `Machine.program_keeps` — every move, made where it may be made, makes moves that may be made, and
  does what it should
-/

namespace SequenceConstraint

/-! ## What fits a wheel -/

namespace Gear

/-- Whether a dial says something that is there. -/
def InRange (dial : Dial) : Gear → Prop
  | .texts values => dial.index < values.length
  | .row _ => True
  | .choice branches => dial.index < branches.length
  | .times .. => ∀ digit ∈ dial.digits, digit < dial.values.size
  | .echo _ => True

/-- Whether a dial has nothing to say: it stands just behind the last text, or there is no branch to
turn to, or no text to repeat. -/
def PastEnd (dial : Dial) : Gear → Prop
  | .texts values => dial.index = values.length
  | .row _ => False
  | .choice branches => branches = []
  | .times .. => dial.values = #[]
  | .echo _ => False

/-- The dial of a wheel that has not been moved. -/
theorem inRange_or_pastEnd_empty : (gear : Gear) → gear.InRange {} ∨ gear.PastEnd {}
  | .texts [] => .inr rfl
  | .texts (_ :: _) => .inl (Nat.succ_pos _)
  | .row _ => .inl trivial
  | .choice [] => .inr rfl
  | .choice (_ :: _) => .inl (Nat.succ_pos _)
  | .times .. => .inl (List.forall_mem_nil _)
  | .echo _ => .inl trivial

end Gear

namespace Machine

/-- Whether a mark fits a wheel. -/
structure Fits (m : Machine) (i : Nat) (mark : Mark) : Prop where
  /-- A wheel that is live has a value. -/
  fruitful : mark.live = true → m.fruitful i = true
  /-- Only a wheel that is not live has a dial that has nothing to say. -/
  dial : ∀ w, m[i]? = some w →
    w.gear.InRange mark.dial ∨ (mark.live = false ∧ w.gear.PastEnd mark.dial)
  /-- A child that has shown texts has a value. -/
  child : ∀ min max child first, m[i]? = some ⟨.times min max child, first⟩ →
    mark.dial.values.isEmpty = false → m.fruitful child = true

/-- Whether only wheels that start have been moved, and all marks fit. -/
structure Sound (m : Machine) (starts : Nat → Prop) (σ : Marks) : Prop where
  untouched : ∀ i, ¬starts i → σ.mark i = {}
  fits : ∀ i, m.Fits i (σ.mark i)

variable {m : Machine} {starts : Nat → Prop} {σ σ' : Marks} {i first : Nat} {gear : Gear}

theorem Fits.inRange {mark : Mark} {w : Wheel} (h : m.Fits i mark) (hw : m[i]? = some w)
    (hlive : mark.live = true) : w.gear.InRange mark.dial := by
  rcases h.dial w hw with hrange | ⟨hdead, -⟩
  · exact hrange
  · cases hlive.symm.trans hdead

/-- A mark fits a wheel if it fits its gear. -/
theorem Fits.of_gear {mark : Mark} (hw : m[i]? = some ⟨gear, first⟩)
    (hfruitful : mark.live = true → m.fruitful i = true)
    (hdial : gear.InRange mark.dial ∨ (mark.live = false ∧ gear.PastEnd mark.dial))
    (hchild : ∀ min max child, gear = .times min max child → mark.dial.values.isEmpty = false →
      m.fruitful child = true) : m.Fits i mark where
  fruitful := hfruitful
  dial w hw' := by
    cases hw.symm.trans hw'
    exact hdial
  child min max child first hw' := by
    cases hw.symm.trans hw'
    exact hchild min max child rfl

theorem sound_empty : m.Sound starts {} where
  untouched _ _ := rfl
  fits _ := ⟨nofun, fun w _ => w.gear.inRange_or_pastEnd_empty.imp_right (.intro rfl), nofun⟩

namespace Sound

theorem of_mark (h : m.Sound starts σ) (hi : starts i) (hσ' : ∀ j, j ≠ i → σ'.mark j = σ.mark j)
    (hfits : m.Fits i (σ'.mark i)) : m.Sound starts σ' where
  untouched j hj := by
    have hne : j ≠ i := fun heq => hj (heq ▸ hi)
    rw [hσ' j hne, h.untouched j hj]
  fits j := by
    by_cases hj : j = i
    · rw [hj]
      exact hfits
    · rw [hσ' j hj]
      exact h.fits j

theorem setSeen (h : m.Sound starts σ) (hi : starts i) (seen : Std.TreeSet (List Char) compare) :
    m.Sound starts (σ.setSeen i seen) := by
  have hfits := h.fits i
  refine h.of_mark hi (fun j => Marks.mark_setSeen_of_ne σ seen) ?_
  rw [Marks.mark_setSeen_self]
  exact ⟨hfits.fruitful, hfits.dial, hfits.child⟩

theorem setLive {live : Bool} (h : m.Sound starts σ) (hi : starts i)
    (hw : m[i]? = some ⟨gear, first⟩)
    (hlive : live = true → m.fruitful i = true ∧ gear.InRange (σ.mark i).dial) :
    m.Sound starts (σ.setLive i live) := by
  have hfits := h.fits i
  refine h.of_mark hi (fun j => Marks.mark_setLive_of_ne σ live) ?_
  rw [Marks.mark_setLive_self]
  refine .of_gear hw (fun h => (hlive h).1) ?_ fun min max child heq =>
    hfits.child min max child first (heq ▸ hw)
  cases live with
  | true => exact .inl (hlive rfl).2
  | false => exact (hfits.dial _ hw).imp_right fun hpast => ⟨rfl, hpast.2⟩

/-- A dial is turned to something that is there. -/
theorem setDial {dial : Dial} (h : m.Sound starts σ) (hi : starts i)
    (hw : m[i]? = some ⟨gear, first⟩) (hrange : gear.InRange dial)
    (hchild : ∀ min max child, gear = .times min max child → dial.values.isEmpty = false →
      m.fruitful child = true) : m.Sound starts (σ.setDial i dial) := by
  refine h.of_mark hi (fun j => Marks.mark_setDial_of_ne σ dial) ?_
  rw [Marks.mark_setDial_self]
  exact .of_gear hw (h.fits i).fruitful (.inl hrange) hchild

/-- A dial is turned, and the wheel is live from then on or not. -/
theorem turned {dial : Dial} {live : Bool} (h : m.Sound starts σ) (hi : starts i)
    (hw : m[i]? = some ⟨gear, first⟩) (hfruitful : live = true → m.fruitful i = true)
    (hdial : gear.InRange dial ∨ (live = false ∧ gear.PastEnd dial))
    (hchild : ∀ min max child, gear = .times min max child → dial.values.isEmpty = false →
      m.fruitful child = true) : m.Sound starts ((σ.setDial i dial).setLive i live) := by
  refine h.of_mark hi (fun j hj => ?_) ?_
  · rw [Marks.mark_setLive_of_ne _ live hj, Marks.mark_setDial_of_ne σ dial hj]
  · rw [Marks.mark_setLive_self, Marks.mark_setDial_self]
    exact .of_gear hw hfruitful hdial hchild

end Sound

/-! ## What is read off a wheel -/

/-- A wheel whose dial has nothing to say shows nothing. -/
theorem render_of_pastEnd {w : Wheel} (hw : m[i]? = some w)
    (h : w.gear.PastEnd (σ.mark i).dial) (fuel : Nat) : m.render σ i (fuel + 1) = some [] := by
  obtain ⟨gear, first⟩ := w
  rw [render, hw]
  cases gear with
  | texts values =>
    have hindex : (σ.mark i).dial.index = values.length := h
    simp [hindex]
  | choice branches =>
    cases h
    rfl
  | times min max child =>
    have hvalues : (σ.mark i).dial.values = #[] := h
    simp [hvalues]
  | row parts => exact h.elim
  | echo target => exact h.elim

/-- **What may be read off a wheel,** live or not: something that is there, or nothing. An echo
reads wheels that are not live where a choice around it has passed over the branch of its target. -/
theorem Sound.inRange_or_shows_nothing {w : Wheel} (h : m.Sound starts σ) (hw : m[i]? = some w) :
    w.gear.InRange (σ.mark i).dial ∨ ((σ.mark i).live = false ∧
      w.gear.PastEnd (σ.mark i).dial ∧ ∀ fuel, m.render σ i (fuel + 1) = some []) :=
  ((h.fits i).dial w hw).imp_right fun ⟨hdead, hpast⟩ => ⟨hdead, hpast, render_of_pastEnd hw hpast⟩

end Machine

/-- The tree of `(A)|B\1`. The text of the group has been passed when the reference shows it. -/
def Odometer.passedOver : Tree :=
  ⟨[[.group (.capture 1) [[.char 'A']]], [.char 'B', .backreference 1]], 1⟩

example : (do
    let o ← (Odometer.ofTree 0 Odometer.passedOver).toOption.bind (·.after [.next, .next] 40)
    let mark := o.marks.mark 0
    let text ← o.machine.render o.marks 0 1
    return (o.machine.participates o.marks 1 4, mark.live, mark.dial.index, text)) =
      some (true, false, 1, []) := by decide +kernel

/-! ## What moves ask for and tell -/

/-- Whether the wheels that a move changes are before the one with a number. -/
def Move.Below (hi : Nat) : Move → Prop
  | .render _ | .renderRow _ => True
  | .reset i | .resetGear i _ | .advance i | .advanceGear i _ | .settle i _ _ | .sift i _ _ _ =>
    i < hi
  | .resetRow parts | .resetEach parts | .advanceRow parts => ∀ part ∈ parts, part < hi
  | .gather child _ _ | .seek child _ | .spin child _ => child < hi

/-- What a move asks for, besides sound marks. -/
def Move.Pre (m : Machine) (starts : Nat → Prop) (σ : Marks) : Move → Prop
  | .render _ | .renderRow _ => True
  | .reset i | .advance i => starts i
  | .resetGear i gear => starts i ∧ ∃ first, m[i]? = some ⟨gear, first⟩
  | .resetRow parts => RowReady m.fruitful starts parts
  | .resetEach parts | .advanceRow parts => ∀ part ∈ parts, starts part ∧ m.fruitful part = true
  | .gather child _ _ | .spin child _ => starts child
  | .advanceGear i gear =>
    starts i ∧ (∃ first, m[i]? = some ⟨gear, first⟩) ∧ (σ.mark i).live = true
  | .settle i branches _ => starts i ∧ ∃ first, m[i]? = some ⟨.choice branches, first⟩
  | .sift i branches index branch =>
    starts i ∧ (∃ first, m[i]? = some ⟨.choice branches, first⟩) ∧
      (σ.mark i).dial.index = index ∧ branches[index]? = some branch ∧ m.fruitful branch = true
  | .seek child digits => starts child ∧ (digits ≠ [] → m.fruitful child = true)

/-- What a move tells, and that it leaves sound marks. Moves of a gear come before the wheel is
marked as live or not. -/
def Move.Post (m : Machine) (starts : Nat → Prop) (σ : Marks) (a : Answer) : Move → Prop
  | .render _ | .renderRow _ => a.marks = σ
  | .reset i => m.Sound starts a.marks ∧ a.found = m.fruitful i
  | .resetGear i _ => m.Sound starts (a.marks.setLive i a.found) ∧ a.found = m.fruitful i
  | .resetRow parts => m.Sound starts a.marks ∧ a.found = parts.all m.fruitful
  | .resetEach _ | .advanceRow _ => m.Sound starts a.marks
  | .gather _ values found =>
    m.Sound starts a.marks ∧ a.texts.isEmpty = (values.isEmpty && !found)
  | .advance i => m.Sound starts a.marks ∧ m.fruitful i = true
  | .advanceGear i _ => m.Sound starts (a.marks.setLive i a.found)
  | .settle i branches index =>
    m.Sound starts (a.marks.setLive i a.found) ∧
      ((σ.mark i).seen = ∅ → a.found = (branches.drop index).any m.fruitful)
  | .sift i _ _ _ =>
    m.Sound starts (a.marks.setLive i a.found) ∧ ((σ.mark i).seen = ∅ → a.found = true)
  | .seek _ _ | .spin _ _ => m.Sound starts a.marks ∧ a.found = true

namespace Machine

/-- Whether a move may be made at some marks. -/
structure Allowed (m : Machine) (starts : Nat → Prop) (mv : Move) (σ : Marks) : Prop where
  sound : m.Sound starts σ
  pre : mv.Pre m starts σ

/-- Whether an answer is what a move should give. -/
structure Meets (m : Machine) (starts : Nat → Prop) (mv : Move) (σ : Marks) (a : Answer) :
    Prop where
  frame : ∀ hi, mv.Below hi → σ.EqOutside 0 hi a.marks
  post : mv.Post m starts σ a

/-- Whether a move makes only moves that may be made, and gives what it should. -/
def Proper (m : Machine) (starts : Nat → Prop) (mv : Move) (σ : Marks) : Prop :=
  (m.program mv σ).Keeps (m.Allowed starts) (m.Meets starts) (m.Meets starts mv σ)

section Moves

variable {m : Machine} {starts : Nat → Prop} {σ : Marks} {i : Nat}

/-! ## Looking at wheels -/

theorem proper_render (h : m.Sound starts σ) : m.Proper starts (.render i) σ := by
  unfold Proper
  rw [program]
  cases m[i]? with
  | none => trivial
  | some w =>
    obtain ⟨gear, first⟩ := w
    cases gear with
    | texts values => exact ⟨fun _ _ => .refl σ, rfl⟩
    | row parts => exact ⟨⟨h, trivial⟩, fun a ha => ⟨fun hi _ => ha.frame hi trivial, ha.post⟩⟩
    | choice branches =>
      cases hbranch : branches[(σ.mark i).dial.index]? with
      | none =>
        simp only [hbranch]
        exact ⟨fun _ _ => .refl σ, rfl⟩
      | some branch =>
        simp only [hbranch]
        exact ⟨⟨h, trivial⟩, fun a ha => ⟨fun hi _ => ha.frame hi trivial, ha.post⟩⟩
    | times min max child => exact ⟨fun _ _ => .refl σ, rfl⟩
    | echo target =>
      by_cases hpart : m.participates σ target i = true
      · simp only [if_pos hpart]
        exact ⟨⟨h, trivial⟩, fun a ha => ⟨fun hi _ => ha.frame hi trivial, ha.post⟩⟩
      · simp only [if_neg hpart]
        exact ⟨fun _ _ => .refl σ, rfl⟩

theorem proper_renderRow {parts : List Nat} (h : m.Sound starts σ) :
    m.Proper starts (.renderRow parts) σ := by
  cases parts with
  | nil => exact ⟨fun _ _ => .refl σ, rfl⟩
  | cons part parts =>
    exact ⟨⟨h, trivial⟩, fun a _ => ⟨⟨h, trivial⟩, fun b _ => ⟨fun _ _ => .refl σ, rfl⟩⟩⟩

/-! ## Resetting parts -/

theorem proper_resetRow {parts : List Nat} (h : m.Allowed starts (.resetRow parts) σ) :
    m.Proper starts (.resetRow parts) σ := by
  cases parts with
  | nil => exact ⟨fun _ _ => .refl σ, h.sound, rfl⟩
  | cons part parts =>
    refine ⟨⟨h.sound, h.pre.1⟩, fun a ha => ?_⟩
    obtain ⟨hsound, hfound⟩ := ha.post
    by_cases hpart : a.found = true
    · simp only [if_pos hpart]
      refine ⟨⟨hsound, h.pre.2 (hfound ▸ hpart)⟩, fun b hb => ⟨fun hi hbelow => ?_, hb.post.1, ?_⟩⟩
      · obtain ⟨hpart, hparts⟩ := List.forall_mem_cons.1 hbelow
        exact (ha.frame hi hpart).trans (hb.frame hi hparts)
      · rw [List.all_cons, ← hfound, hpart, hb.post.2, Bool.true_and]
    · simp only [if_neg hpart]
      refine ⟨fun hi hbelow => ha.frame hi (hbelow part List.mem_cons_self), hsound, ?_⟩
      rw [List.all_cons, ← hfound, Bool.eq_false_iff.2 hpart, Bool.false_and]

theorem proper_resetEach {parts : List Nat} (h : m.Allowed starts (.resetEach parts) σ) :
    m.Proper starts (.resetEach parts) σ := by
  cases parts with
  | nil => exact ⟨fun _ _ => .refl σ, h.sound⟩
  | cons part parts =>
    obtain ⟨hpart, hparts⟩ := List.forall_mem_cons.1 h.pre
    refine ⟨⟨h.sound, hpart.1⟩, fun a ha => ⟨⟨ha.post.1, hparts⟩, fun b hb =>
      ⟨fun hi hbelow => ?_, hb.post⟩⟩⟩
    obtain ⟨hpart, hparts⟩ := List.forall_mem_cons.1 hbelow
    exact (ha.frame hi hpart).trans (hb.frame hi hparts)

theorem proper_advanceRow {parts : List Nat} (h : m.Allowed starts (.advanceRow parts) σ) :
    m.Proper starts (.advanceRow parts) σ := by
  cases parts with
  | nil => exact ⟨fun _ _ => .refl σ, h.sound⟩
  | cons part parts =>
    obtain ⟨hpart, hparts⟩ := List.forall_mem_cons.1 h.pre
    refine ⟨⟨h.sound, hparts⟩, fun a ha => ?_⟩
    by_cases hfound : a.found = true
    · simp only [if_pos hfound]
      exact ⟨fun hi hbelow => ha.frame hi (List.forall_mem_cons.1 hbelow).2, ha.post⟩
    simp only [if_neg hfound]
    refine ⟨⟨ha.post, hpart.1⟩, fun b hb => ?_⟩
    have hframe : ∀ hi, (∀ q ∈ part :: parts, q < hi) → σ.EqOutside 0 hi b.marks := by
      intro hi hbelow
      obtain ⟨hpart, hparts⟩ := List.forall_mem_cons.1 hbelow
      exact (ha.frame hi hparts).trans (hb.frame hi hpart)
    by_cases hfound : b.found = true
    · simp only [if_pos hfound]
      exact ⟨⟨hb.post.1, hparts⟩, fun c hc => ⟨fun hi hbelow => (hframe hi hbelow).trans
        (hc.frame hi (List.forall_mem_cons.1 hbelow).2), hc.post⟩⟩
    · simp only [if_neg hfound]
      exact ⟨hframe, hb.post.1⟩

/-! ## Going through a child -/

section Child

variable {child : Nat}

theorem proper_gather {values : Array (List Char)} {found : Bool}
    (h : m.Allowed starts (.gather child values found) σ) :
    m.Proper starts (.gather child values found) σ := by
  cases found with
  | false => exact ⟨fun _ _ => .refl σ, h.sound, by simp⟩
  | true =>
    refine ⟨⟨h.sound, trivial⟩, fun a _ => ⟨⟨h.sound, h.pre⟩, fun b hb =>
      ⟨⟨hb.post.1, h.pre⟩, fun c hc => ⟨fun hi hbelow => ?_, hc.post.1, ?_⟩⟩⟩⟩
    · exact (hb.frame hi hbelow).trans (hc.frame hi hbelow)
    · rw [hc.post.2]
      simp

theorem proper_spin {count : Nat} (h : m.Allowed starts (.spin child count) σ) :
    m.Proper starts (.spin child count) σ := by
  cases count with
  | zero => exact ⟨fun _ _ => .refl σ, h.sound, rfl⟩
  | succ count =>
    exact ⟨⟨h.sound, h.pre⟩, fun a ha => ⟨⟨ha.post.1, h.pre⟩, fun b hb =>
      ⟨fun hi hbelow => (ha.frame hi hbelow).trans (hb.frame hi hbelow), hb.post⟩⟩⟩

theorem proper_seek {digits : List Nat} (h : m.Allowed starts (.seek child digits) σ) :
    m.Proper starts (.seek child digits) σ := by
  unfold Proper
  rw [program]
  cases digits.getLast? with
  | none => exact ⟨fun _ _ => .refl σ, h.sound, rfl⟩
  | some digit =>
    exact ⟨⟨h.sound, h.pre.1⟩, fun a ha => ⟨⟨ha.post.1, h.pre.1⟩, fun b hb =>
      ⟨fun hi hbelow => (ha.frame hi hbelow).trans (hb.frame hi hbelow), hb.post⟩⟩⟩

end Child

/-! ## One wheel -/

theorem proper_reset (h : m.Allowed starts (.reset i) σ) : m.Proper starts (.reset i) σ := by
  unfold Proper
  rw [program]
  cases hw : m[i]? with
  | none => trivial
  | some w =>
    refine ⟨⟨h.sound, h.pre, w.first, hw⟩, fun a ha => ⟨fun hi hbelow => ?_, ha.post⟩⟩
    exact (ha.frame hi hbelow).trans (Marks.eqOutside_setLive _ (Nat.zero_le i) hbelow)

theorem proper_advance (h : m.Allowed starts (.advance i) σ) : m.Proper starts (.advance i) σ := by
  unfold Proper
  rw [program]
  cases hw : m[i]? with
  | none => trivial
  | some w =>
    by_cases hlive : (σ.mark i).live = true
    · simp only [if_pos hlive]
      refine ⟨⟨h.sound, h.pre, ⟨w.first, hw⟩, hlive⟩, fun a ha =>
        ⟨fun hi hbelow => ?_, ha.post, (h.sound.fits i).fruitful hlive⟩⟩
      exact (ha.frame hi hbelow).trans (Marks.eqOutside_setLive _ (Nat.zero_le i) hbelow)
    · simp only [if_neg hlive]
      trivial

/-! ## Repetitions -/

section Times

variable {min max child first : Nat}

theorem turn_lt {size : Nat} {digits : List Nat} (h : ∀ digit ∈ digits, digit < size) :
    ∀ digit ∈ (turn size digits).2, digit < size := by
  induction digits with
  | nil => exact h
  | cons digit digits ih =>
    obtain ⟨hdigit, hdigits⟩ := List.forall_mem_cons.1 h
    have hrest := ih hdigits
    rw [turn]
    rcases hturn : turn size digits with ⟨_ | _, turned⟩
    · rw [hturn] at hrest
      exact List.forall_mem_cons.2 ⟨hdigit, hrest⟩
    · rw [hturn] at hrest
      by_cases hnext : digit + 1 < size
      · simp only [if_pos hnext]
        exact List.forall_mem_cons.2 ⟨hnext, hrest⟩
      · simp only [if_neg hnext]
        exact List.forall_mem_cons.2 ⟨Nat.zero_lt_of_lt hdigit, hrest⟩

/-- A word of nothing but the first text can be read if there is a text. -/
theorem forall_replicate_lt {count : Nat} {values : Array (List Char)}
    (h : 0 < count → values.isEmpty = false) :
    ∀ digit ∈ List.replicate count 0, digit < values.size := by
  intro digit hdigit
  obtain ⟨hcount, rfl⟩ := List.mem_replicate.1 hdigit
  have hvalues := h (Nat.pos_of_ne_zero hcount)
  refine Nat.pos_of_ne_zero fun hsize => ?_
  rw [Array.isEmpty_iff_size_eq_zero.2 hsize] at hvalues
  cases hvalues

/-- A repetition has a value unless it is stalled: its bounds contradict each other, or it has no
texts to repeat. -/
theorem fruitful_times {values : Array (List Char)} (hm : m.Descending)
    (hw : m[i]? = some ⟨.times min max child, first⟩)
    (hvalues : values.isEmpty = !m.fruitful child) :
    m.fruitful i = !decide (max < min ∨ (values.isEmpty = true ∧ 0 < min)) := by
  have hgear : m.fruitful i = (decide (min ≤ max) && (min == 0 || m.fruitful child)) :=
    fruitful_eq hm hw
  rw [hgear, hvalues, Bool.eq_iff_iff]
  cases m.fruitful child <;> simp

/-- **A repetition is turned to a word,** and its child follows. -/
theorem keeps_seek (dial : Dial) {post : Answer → Prop} (hm : m.Descending)
    (hw : m[i]? = some ⟨.times min max child, first⟩) (h : m.Sound starts σ) (hi : starts i)
    (hstarts : starts child) (hfruitful : m.fruitful i = true)
    (hrange : ∀ digit ∈ dial.digits, digit < dial.values.size)
    (hchild : dial.values.isEmpty = false → m.fruitful child = true)
    (hpost : ∀ a, (∀ hi, i < hi → σ.EqOutside 0 hi a.marks) →
      m.Sound starts (a.marks.setLive i a.found) → a.found = true → post a) :
    (Program.move (.seek child dial.digits) (σ.setDial i dial) .done).Keeps (m.Allowed starts)
      (m.Meets starts) post := by
  have hbelow : child < i := hm i _ hw
  have hsound : m.Sound starts (σ.setDial i dial) := by
    refine h.setDial hi hw hrange ?_
    rintro _ _ _ ⟨⟩
    exact hchild
  refine ⟨⟨hsound, hstarts, fun hdigits => ?_⟩, fun a ha => hpost a (fun hi hlt => ?_) ?_ ha.post.2⟩
  · obtain ⟨digit, hdigit⟩ := List.exists_mem_of_ne_nil _ hdigits
    refine hchild (Bool.eq_false_iff.2 fun hempty => ?_)
    have hsize := hrange digit hdigit
    rw [Array.isEmpty_iff_size_eq_zero.1 hempty] at hsize
    exact Nat.not_lt_zero digit hsize
  · exact (Marks.eqOutside_setDial dial (Nat.zero_le i) hlt).trans
      (ha.frame hi (Nat.lt_trans hbelow hlt))
  · have hmark : a.marks.mark i = { σ.mark i with dial } := by
      rw [ha.frame i hbelow i (.inr (Nat.le_refl i)), Marks.mark_setDial_self]
    refine ha.post.1.setLive hi hw fun _ => ⟨hfruitful, ?_⟩
    rw [hmark]
    exact hrange

theorem proper_resetGear_times (hm : m.Descending) (hstarts : starts child)
    (h : m.Allowed starts (.resetGear i (.times min max child)) σ) :
    m.Proper starts (.resetGear i (.times min max child)) σ := by
  obtain ⟨hi, first, hw⟩ := h.pre
  have hbelow : child < i := hm i _ hw
  refine ⟨⟨h.sound, hstarts⟩, fun a ha => ⟨⟨ha.post.1, hstarts⟩, fun b hb => ?_⟩⟩
  have hempty : b.texts.isEmpty = !m.fruitful child := by
    rw [hb.post.2, ha.post.2]
    rfl
  have hfruitful := fruitful_times hm hw hempty
  have hframe : ∀ hi, i < hi → σ.EqOutside 0 hi b.marks := fun hi hlt =>
    (ha.frame hi (Nat.lt_trans hbelow hlt)).trans (hb.frame hi (Nat.lt_trans hbelow hlt))
  have hchild : b.texts.isEmpty = false → m.fruitful child = true := by
    rw [hempty, Bool.not_eq_false']
    exact id
  by_cases hstalled : max < min ∨ (b.texts.isEmpty = true ∧ 0 < min)
  · rw [decide_eq_true hstalled, Bool.not_true] at hfruitful
    simp only [if_pos hstalled]
    refine ⟨fun hi hlt => (hframe hi hlt).trans (Marks.eqOutside_setDial _ (Nat.zero_le i) hlt),
      hb.post.1.turned hi hw (fun hlive => absurd hlive Bool.false_ne_true) ?_ ?_,
      hfruitful.symm⟩
    · by_cases htexts : b.texts = #[]
      · exact .inr ⟨rfl, htexts⟩
      · exact .inl (forall_replicate_lt fun _ => Array.isEmpty_eq_false_iff.2 htexts)
    · rintro _ _ _ ⟨⟩
      exact hchild
  · rw [decide_eq_false hstalled, Bool.not_false] at hfruitful
    simp only [if_neg hstalled]
    refine keeps_seek { (b.marks.mark i).dial with
        values := b.texts, digits := List.replicate min 0 } hm hw hb.post.1 hi hstarts hfruitful
      (forall_replicate_lt fun hmin => ?_) hchild fun c hc hsound hfound =>
        ⟨fun hi hlt => (hframe hi hlt).trans (hc hi hlt), hsound, hfound.trans hfruitful.symm⟩
    exact Bool.eq_false_iff.2 fun hnone => hstalled (.inr ⟨hnone, hmin⟩)

theorem proper_advanceGear_times (hm : m.Descending) (hstarts : starts child)
    (h : m.Allowed starts (.advanceGear i (.times min max child)) σ) :
    m.Proper starts (.advanceGear i (.times min max child)) σ := by
  obtain ⟨hi, ⟨first, hw⟩, hlive⟩ := h.pre
  have hfits := h.sound.fits i
  have htrue := hfits.fruitful hlive
  have hchild := hfits.child min max child first hw
  have hrange := turn_lt (hfits.inRange hw hlive)
  rw [Proper, program]
  by_cases hcarried : (turn (σ.mark i).dial.values.size (σ.mark i).dial.digits).1 = true
  · simp only [if_pos hcarried]
    generalize (turn (σ.mark i).dial.values.size (σ.mark i).dial.digits).2 = digits at hrange ⊢
    by_cases hlast : max < digits.length + 1 ∨ (σ.mark i).dial.values.isEmpty = true
    · simp only [if_pos hlast]
      refine ⟨fun hi hlt => Marks.eqOutside_setDial _ (Nat.zero_le i) hlt,
        h.sound.turned hi hw (fun hlive => absurd hlive Bool.false_ne_true) (.inl hrange) ?_⟩
      rintro _ _ _ ⟨⟩
      exact hchild
    · simp only [if_neg hlast]
      rw [not_or, Bool.not_eq_true] at hlast
      -- the digits that have started anew are written before those of one more repeat
      have hturned : m.Sound starts (σ.setDial i { (σ.mark i).dial with digits }) := by
        refine h.sound.setDial hi hw hrange ?_
        rintro _ _ _ ⟨⟩
        exact hchild
      refine keeps_seek { (σ.mark i).dial with
        digits := List.replicate (digits.length + 1) 0 } hm hw hturned hi hstarts htrue
        (forall_replicate_lt fun _ => hlast.2) hchild
        fun a ha hsound _ => ⟨fun hi hlt => ?_, hsound⟩
      exact (Marks.eqOutside_setDial _ (Nat.zero_le i) hlt).trans (ha hi hlt)
  · simp only [if_neg hcarried]
    refine keeps_seek { (σ.mark i).dial with
      digits := (turn (σ.mark i).dial.values.size (σ.mark i).dial.digits).2 } hm hw h.sound hi
      hstarts htrue hrange hchild fun a ha hsound _ => ⟨ha, hsound⟩

end Times

/-! ## Choices -/

section Choice

variable {branches : List Nat} {index branch first : Nat}

/-- A branch that has a value gives one to the choice. -/
theorem fruitful_choice (hm : m.Descending) (hw : m[i]? = some ⟨.choice branches, first⟩)
    (hbranch : branches[index]? = some branch) (hfruitful : m.fruitful branch = true) :
    m.fruitful i = true :=
  (fruitful_eq hm hw).trans
    (List.any_eq_true.2 ⟨branch, List.mem_of_getElem? hbranch, hfruitful⟩)

/-- **After a branch has been moved,** the search of a choice goes on in it, or with the next
branch. -/
theorem keeps_search {found : Bool} {σ' : Marks} {post : Answer → Prop} (hi : starts i)
    (hw : m[i]? = some ⟨.choice branches, first⟩) (h : m.Sound starts σ')
    (hbranch : branches[index]? = some branch) (hindex : (σ'.mark i).dial.index = index)
    (hfruitful : found = true → m.fruitful branch = true)
    (hframe : ∀ hi, i < hi → σ.EqOutside 0 hi σ')
    (hpost : ∀ a, (∀ hi, i < hi → σ.EqOutside 0 hi a.marks) →
      m.Sound starts (a.marks.setLive i a.found) →
      ((σ'.mark i).seen = ∅ → a.found = (found || (branches.drop (index + 1)).any m.fruitful)) →
      post a) :
    (if found then Program.move (.sift i branches index branch) σ' .done
      else .move (.settle i branches (index + 1)) σ' .done).Keeps (m.Allowed starts)
        (m.Meets starts) post := by
  cases found with
  | true =>
    refine ⟨⟨h, hi, ⟨first, hw⟩, hindex, hbranch, hfruitful rfl⟩, fun a ha =>
      hpost a (fun hi hlt => (hframe hi hlt).trans (ha.frame hi hlt)) ha.post.1 fun hseen => ?_⟩
    rw [ha.post.2 hseen, Bool.true_or]
  | false =>
    refine ⟨⟨h, hi, first, hw⟩, fun a ha =>
      hpost a (fun hi hlt => (hframe hi hlt).trans (ha.frame hi hlt)) ha.post.1 fun hseen => ?_⟩
    rw [ha.post.2 hseen, Bool.false_or]

variable (hm : m.Descending)

include hm

theorem proper_settle (hstarts : ∀ branch ∈ branches, starts branch)
    (h : m.Allowed starts (.settle i branches index) σ) :
    m.Proper starts (.settle i branches index) σ := by
  obtain ⟨hi, first, hw⟩ := h.pre
  rw [Proper, program]
  cases hbranch : branches[index]? with
  | none =>
    refine ⟨fun _ _ => .refl σ,
      h.sound.setLive hi hw fun hlive => absurd hlive Bool.false_ne_true, fun _ => ?_⟩
    rw [List.drop_eq_nil_of_le (List.getElem?_eq_none_iff.1 hbranch), List.any_nil]
  | some branch =>
    obtain ⟨hindex, hget⟩ := List.getElem?_eq_some_iff.1 hbranch
    have hbelow : branch < i := hm i _ hw branch (List.mem_of_getElem? hbranch)
    have hsound : m.Sound starts (σ.setDial i { (σ.mark i).dial with index }) := by
      refine h.sound.setDial hi hw hindex ?_
      rintro _ _ _ ⟨⟩
    refine ⟨⟨hsound, hstarts branch (List.mem_of_getElem? hbranch)⟩, fun a ha => ?_⟩
    have hmark : a.marks.mark i = { σ.mark i with dial := { (σ.mark i).dial with index } } := by
      rw [ha.frame i hbelow i (.inr (Nat.le_refl i)), Marks.mark_setDial_self]
    refine keeps_search hi hw ha.post.1 hbranch (by rw [hmark]) (fun hfound => ?_)
      (fun hi hlt => ?_) fun b hb hsound hfound => ⟨hb, hsound, fun hseen => ?_⟩
    · rw [← ha.post.2, hfound]
    · exact (Marks.eqOutside_setDial _ (Nat.zero_le i) hlt).trans
        (ha.frame hi (Nat.lt_trans hbelow hlt))
    · rw [hfound (by rw [hmark, hseen]), ha.post.2, List.drop_eq_getElem_cons hindex, hget,
        List.any_cons]

theorem proper_sift (hstarts : ∀ branch ∈ branches, starts branch)
    (h : m.Allowed starts (.sift i branches index branch) σ) :
    m.Proper starts (.sift i branches index branch) σ := by
  obtain ⟨hi, ⟨first, hw⟩, hindex, hbranch, hfruitful⟩ := h.pre
  have hmem := List.mem_of_getElem? hbranch
  have hbelow : branch < i := hm i _ hw branch hmem
  refine ⟨⟨h.sound, trivial⟩, fun a _ => ?_⟩
  by_cases hseen : (σ.mark i).seen.contains a.text = true
  · simp only [if_pos hseen]
    refine ⟨⟨h.sound, hstarts branch hmem⟩, fun b hb => ?_⟩
    have hmark := hb.frame i hbelow i (.inr (Nat.le_refl i))
    refine keeps_search hi hw hb.post.1 hbranch (by rw [hmark, hindex]) (fun _ => hfruitful)
      (fun hi hlt => hb.frame hi (Nat.lt_trans hbelow hlt))
      fun c hc hsound _ => ⟨hc, hsound, fun hnone => ?_⟩
    rw [hnone] at hseen
    simp at hseen
  · simp only [if_neg hseen]
    refine ⟨fun hi hlt => Marks.eqOutside_setSeen _ (Nat.zero_le i) hlt,
      (h.sound.setSeen hi _).setLive hi hw fun _ => ⟨fruitful_choice hm hw hbranch hfruitful, ?_⟩,
      fun _ => rfl⟩
    rw [Marks.mark_setSeen_self]
    show (σ.mark i).dial.index < branches.length
    rw [hindex]
    exact (List.getElem?_eq_some_iff.1 hbranch).1

theorem proper_resetGear_choice (h : m.Allowed starts (.resetGear i (.choice branches)) σ) :
    m.Proper starts (.resetGear i (.choice branches)) σ := by
  obtain ⟨hi, first, hw⟩ := h.pre
  refine ⟨⟨h.sound.setSeen hi ∅, hi, first, hw⟩, fun a ha => ⟨fun hi hlt => ?_, ha.post.1, ?_⟩⟩
  · exact (Marks.eqOutside_setSeen ∅ (Nat.zero_le i) hlt).trans (ha.frame hi hlt)
  · rw [ha.post.2 (by rw [Marks.mark_setSeen_self]), List.drop_zero, fruitful_eq hm hw]
    rfl

theorem proper_advanceGear_choice (hstarts : ∀ branch ∈ branches, starts branch)
    (h : m.Allowed starts (.advanceGear i (.choice branches)) σ) :
    m.Proper starts (.advanceGear i (.choice branches)) σ := by
  obtain ⟨hi, ⟨first, hw⟩, -⟩ := h.pre
  rw [Proper, program]
  cases hbranch : branches[(σ.mark i).dial.index]? with
  | none => trivial
  | some branch =>
    have hmem := List.mem_of_getElem? hbranch
    have hbelow : branch < i := hm i _ hw branch hmem
    refine ⟨⟨h.sound, hstarts branch hmem⟩, fun a ha => ?_⟩
    have hmark := ha.frame i hbelow i (.inr (Nat.le_refl i))
    exact keeps_search hi hw ha.post.1 hbranch (by rw [hmark]) (fun _ => ha.post.2)
      (fun hi hlt => ha.frame hi (Nat.lt_trans hbelow hlt)) fun b hb hsound _ => ⟨hb, hsound⟩

end Choice

/-! ## All moves -/

theorem proper_resetGear {gear : Gear} (hm : m.Descending)
    (hready : ∀ i w, m[i]? = some w → starts i → w.gear.Ready m.fruitful starts)
    (h : m.Allowed starts (.resetGear i gear) σ) : m.Proper starts (.resetGear i gear) σ := by
  obtain ⟨hi, first, hw⟩ := h.pre
  have hfruitful : m.fruitful i = gear.fruitful m.fruitful := fruitful_eq hm hw
  have hgear := hready i _ hw hi
  cases gear with
  | texts values =>
    refine ⟨fun hi hlt => Marks.eqOutside_setDial _ (Nat.zero_le i) hlt,
      h.sound.turned hi hw hfruitful.trans ?_ ?_, hfruitful.symm⟩
    · cases values with
      | nil => exact .inr ⟨rfl, rfl⟩
      | cons value values => exact .inl (Nat.succ_pos _)
    · rintro _ _ _ ⟨⟩
  | row parts =>
    refine ⟨⟨h.sound, hgear⟩, fun a ha => ⟨fun hi hlt => ha.frame hi fun part hpart =>
      Nat.lt_trans (hm i _ hw part hpart) hlt,
      ha.post.1.setLive hi hw fun hlive => ⟨?_, trivial⟩, ?_⟩⟩
    · rw [hfruitful, ← hlive, ha.post.2]
      rfl
    · rw [hfruitful, ha.post.2]
      rfl
  | choice branches => exact proper_resetGear_choice hm h
  | times min max child => exact proper_resetGear_times hm hgear h
  | echo target =>
    exact ⟨fun _ _ => .refl σ, h.sound.setLive hi hw fun _ => ⟨hfruitful, trivial⟩,
      hfruitful.symm⟩

theorem proper_advanceGear {gear : Gear} (hm : m.Descending)
    (hready : ∀ i w, m[i]? = some w → starts i → w.gear.Ready m.fruitful starts)
    (h : m.Allowed starts (.advanceGear i gear) σ) : m.Proper starts (.advanceGear i gear) σ := by
  obtain ⟨hi, ⟨first, hw⟩, hlive⟩ := h.pre
  have htrue := (h.sound.fits i).fruitful hlive
  have hgear := hready i _ hw hi
  cases gear with
  | texts values =>
    refine ⟨fun hi hlt => Marks.eqOutside_setDial _ (Nat.zero_le i) hlt,
      h.sound.turned hi hw (fun _ => htrue) ?_ ?_⟩
    · have hindex : (σ.mark i).dial.index < values.length := (h.sound.fits i).inRange hw hlive
      rcases Nat.lt_or_eq_of_le (Nat.succ_le_of_lt hindex) with hnext | hnext
      · exact .inl hnext
      · exact .inr ⟨decide_eq_false (Nat.not_lt_of_le (Nat.le_of_eq hnext.symm)), hnext⟩
    · rintro _ _ _ ⟨⟩
  | row parts =>
    have hall : parts.all m.fruitful = true := (fruitful_eq hm hw).symm.trans htrue
    refine ⟨⟨h.sound, RowReady.all hgear hall⟩, fun a ha => ⟨fun hi hlt => ha.frame hi
      fun part hpart => Nat.lt_trans (hm i _ hw part hpart) hlt, ?_⟩⟩
    exact Sound.setLive ha.post hi hw fun _ => ⟨htrue, trivial⟩
  | choice branches => exact proper_advanceGear_choice hm hgear h
  | times min max child => exact proper_advanceGear_times hm hgear h
  | echo target =>
    exact ⟨fun _ _ => .refl σ,
      h.sound.setLive hi hw fun hlive => absurd hlive Bool.false_ne_true⟩

/-- **Every move, made where it may be made, makes moves that may be made,** and gives what it
should. -/
theorem program_keeps (hm : m.Descending)
    (hready : ∀ i w, m[i]? = some w → starts i → w.gear.Ready m.fruitful starts) (mv : Move)
    (σ : Marks) (h : m.Allowed starts mv σ) : m.Proper starts mv σ := by
  cases mv with
  | render i => exact proper_render h.sound
  | renderRow parts => exact proper_renderRow h.sound
  | reset i => exact proper_reset h
  | resetGear i gear => exact proper_resetGear hm hready h
  | resetRow parts => exact proper_resetRow h
  | resetEach parts => exact proper_resetEach h
  | gather child values found => exact proper_gather h
  | advance i => exact proper_advance h
  | advanceGear i gear => exact proper_advanceGear hm hready h
  | advanceRow parts => exact proper_advanceRow h
  | settle i branches index =>
    obtain ⟨hi, first, hw⟩ := h.pre
    exact proper_settle hm (hready i _ hw hi) h
  | sift i branches index branch =>
    obtain ⟨hi, ⟨first, hw⟩, -⟩ := h.pre
    exact proper_sift hm (hready i _ hw hi) h
  | seek child digits => exact proper_seek h
  | spin child count => exact proper_spin h

end Moves

end Machine

end SequenceConstraint
