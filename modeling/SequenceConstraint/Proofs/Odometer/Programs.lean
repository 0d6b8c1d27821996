import SequenceConstraint.Generation.Odometer

/-!
# Moves as programs

A move makes other moves in turn. What it does itself is a *program*: it makes a move, goes on with
the answer, and is done at some point or stuck (`Machine.program`). A move has a result if its
program has, with less fuel for the moves in it (`Machine.perform_succ`).

So one can speak of all moves that are made while a program runs (`Machine.Made`), and what they
keep is shown program by program, without fuel (`Program.Keeps`).

## Main statements

* `Machine.perform_succ` — a move does what its program does
* `Machine.mem_moves` — the moves that are made while a program runs can be listed
* `Machine.Made.performed` — a program that has a result is not stuck in a move
* `Machine.perform_keeps` — what all programs keep holds of all results
* `Machine.Made.allowed` — and only moves that are allowed are made
-/

namespace SequenceConstraint

/-! ## Programs -/

/-- What a machine can be asked to do. -/
inductive Move where
  | render (i : Nat)
  | renderRow (parts : List Nat)
  | reset (i : Nat)
  | resetGear (i : Nat) (gear : Gear)
  | resetRow (parts : List Nat)
  | resetEach (parts : List Nat)
  | gather (child : Nat) (values : Array (List Char)) (found : Bool)
  | advance (i : Nat)
  | advanceGear (i : Nat) (gear : Gear)
  | advanceRow (parts : List Nat)
  | settle (i : Nat) (branches : List Nat) (index : Nat)
  | sift (i : Nat) (branches : List Nat) (index branch : Nat)
  | seek (child : Nat) (digits : List Nat)
  | spin (child count : Nat)

/-- The result of a move, and the marks it leaves. -/
structure Answer where
  marks : Marks
  found : Bool := true
  text : List Char := []
  texts : Array (List Char) := #[]

/-- Moves that are made one after the other, each in the light of the answers before. -/
inductive Program where
  | done (a : Answer)
  | stuck
  | move (mv : Move) (σ : Marks) (next : Answer → Program)

namespace Program

/-- The result of a program, if there is one. -/
def run (perform : Move → Marks → Option Answer) : Program → Option Answer
  | done a => some a
  | stuck => none
  | move mv σ next => (perform mv σ).bind fun a => (next a).run perform

/-- Whether a program makes only moves that are allowed, and its result is as it should be, if the
answers are as they should be. -/
def Keeps (pre : Move → Marks → Prop) (spec : Move → Marks → Answer → Prop)
    (post : Answer → Prop) : Program → Prop
  | done a => post a
  | stuck => True
  | move mv σ next => pre mv σ ∧ ∀ a, spec mv σ a → (next a).Keeps pre spec post

theorem keeps_ite {pre : Move → Marks → Prop} {spec : Move → Marks → Answer → Prop}
    {post : Answer → Prop} {c : Prop} [Decidable c] {p q : Program} :
    (if c then p else q).Keeps pre spec post ↔
      (c → p.Keeps pre spec post) ∧ (¬c → q.Keeps pre spec post) := by
  split <;> simp [*]

/-- A program that keeps something gives what it should, if the moves that are allowed do. -/
theorem keeps_run {perform : Move → Marks → Option Answer} {pre : Move → Marks → Prop}
    {spec : Move → Marks → Answer → Prop} {post : Answer → Prop} {prog : Program}
    (h : prog.Keeps pre spec post)
    (hperform : ∀ mv σ a, pre mv σ → perform mv σ = some a → spec mv σ a) {a : Answer}
    (ha : prog.run perform = some a) : post a := by
  induction prog with
  | done b =>
    cases ha
    exact h
  | stuck => cases ha
  | move mv σ next ih =>
    obtain ⟨b, hb, ha⟩ := Option.bind_eq_some_iff.1 ha
    exact ih b (h.2 b (hperform mv σ b h.1 hb)) ha

/-- A program gives the same with more results of moves. -/
theorem run_mono {perform perform' : Move → Marks → Option Answer}
    (h : ∀ mv σ a, perform mv σ = some a → perform' mv σ = some a) {prog : Program} {a : Answer}
    (ha : prog.run perform = some a) : prog.run perform' = some a := by
  induction prog with
  | done b => exact ha
  | stuck => cases ha
  | move mv σ next ih =>
    obtain ⟨b, hb, ha⟩ := Option.bind_eq_some_iff.1 ha
    exact Option.bind_eq_some_iff.2 ⟨b, h mv σ b hb, ih b ha⟩

/-- The moves of a program, each followed by those that are made `within` it. -/
def moves (perform : Move → Marks → Option Answer) (within : Move → Marks → List (Move × Marks)) :
    Program → List (Move × Marks)
  | done _ => []
  | stuck => []
  | move mv σ next => (mv, σ) :: within mv σ ++
    match perform mv σ with
    | some a => (next a).moves perform within
    | none => []

theorem mem_moves_move {perform : Move → Marks → Option Answer}
    {within : Move → Marks → List (Move × Marks)} {mv : Move} {σ : Marks}
    {next : Answer → Program} {x : Move × Marks} :
    x ∈ (move mv σ next).moves perform within ↔ x = (mv, σ) ∨ x ∈ within mv σ ∨
      ∃ a, perform mv σ = some a ∧ x ∈ (next a).moves perform within := by
  rw [moves]
  cases perform mv σ <;> simp

end Program

/-! ## The programs of the moves -/

namespace Machine

variable (m : Machine)

/-- What a move does itself. -/
def program : Move → Marks → Program
  | .render i, σ =>
    match m[i]? with
    | none => .stuck
    | some w =>
      match w.gear with
      | .texts values => .done { marks := σ, text := values[(σ.mark i).dial.index]?.getD [] }
      | .row parts => .move (.renderRow parts) σ .done
      | .choice branches =>
        match branches[(σ.mark i).dial.index]? with
        | some branch => .move (.render branch) σ .done
        | none => .done { marks := σ }
      | .times .. =>
        .done { marks := σ, text := (σ.mark i).dial.digits.flatMap fun digit =>
          (σ.mark i).dial.values[digit]?.getD [] }
      | .echo target =>
        if m.participates σ target i then .move (.render target) σ .done else .done { marks := σ }
  | .renderRow [], σ => .done { marks := σ }
  | .renderRow (part :: parts), σ =>
    .move (.render part) σ fun left => .move (.renderRow parts) σ fun right =>
      .done { marks := σ, text := left.text ++ right.text }
  | .reset i, σ =>
    match m[i]? with
    | none => .stuck
    | some w => .move (.resetGear i w.gear) σ fun a =>
      .done { marks := a.marks.setLive i a.found, found := a.found }
  | .resetGear i (.texts values), σ =>
    .done { marks := σ.setDial i { (σ.mark i).dial with index := 0 }, found := !values.isEmpty }
  | .resetGear _ (.row parts), σ => .move (.resetRow parts) σ .done
  | .resetGear i (.choice branches), σ => .move (.settle i branches 0) (σ.setSeen i ∅) .done
  | .resetGear i (.times min max child), σ =>
    .move (.reset child) σ fun a => .move (.gather child #[] a.found) a.marks fun b =>
      let digits := List.replicate min 0
      let σ := b.marks.setDial i { (b.marks.mark i).dial with values := b.texts, digits }
      if max < min ∨ (b.texts.isEmpty ∧ 0 < min) then .done { marks := σ, found := false }
      else .move (.seek child digits) σ .done
  | .resetGear _ (.echo _), σ => .done { marks := σ }
  | .resetRow [], σ => .done { marks := σ }
  | .resetRow (part :: parts), σ =>
    .move (.reset part) σ fun a =>
      if a.found then .move (.resetRow parts) a.marks .done else .done a
  | .resetEach [], σ => .done { marks := σ }
  | .resetEach (part :: parts), σ =>
    .move (.reset part) σ fun a => .move (.resetEach parts) a.marks .done
  | .gather child values found, σ =>
    if found then
      .move (.render child) σ fun a => .move (.advance child) σ fun b =>
        .move (.gather child (values.push a.text) b.found) b.marks .done
    else .done { marks := σ, texts := values }
  | .advance i, σ =>
    match m[i]? with
    | none => .stuck
    | some w =>
      if (σ.mark i).live then
        .move (.advanceGear i w.gear) σ fun a =>
          .done { marks := a.marks.setLive i a.found, found := a.found }
      else .stuck
  | .advanceGear i (.texts values), σ =>
    let index := (σ.mark i).dial.index + 1
    .done { marks := σ.setDial i { (σ.mark i).dial with index },
            found := decide (index < values.length) }
  | .advanceGear _ (.row parts), σ => .move (.advanceRow parts) σ .done
  | .advanceGear i (.choice branches), σ =>
    let index := (σ.mark i).dial.index
    match branches[index]? with
    | none => .stuck
    | some branch => .move (.advance branch) σ fun a =>
      if a.found then .move (.sift i branches index branch) a.marks .done
      else .move (.settle i branches (index + 1)) a.marks .done
  | .advanceGear i (.times _ max child), σ =>
    let dial := (σ.mark i).dial
    let turned := turn dial.values.size dial.digits
    let σ := σ.setDial i { dial with digits := turned.2 }
    if turned.1 then
      if max < turned.2.length + 1 ∨ dial.values.isEmpty then .done { marks := σ, found := false }
      else
        let digits := List.replicate (turned.2.length + 1) 0
        .move (.seek child digits) (σ.setDial i { dial with digits }) .done
    else .move (.seek child turned.2) σ .done
  | .advanceGear _ (.echo _), σ => .done { marks := σ, found := false }
  | .advanceRow [], σ => .done { marks := σ, found := false }
  | .advanceRow (part :: parts), σ =>
    .move (.advanceRow parts) σ fun a =>
      if a.found then .done a
      else .move (.advance part) a.marks fun b =>
        if b.found then .move (.resetEach parts) b.marks .done else .done b
  | .settle i branches index, σ =>
    match branches[index]? with
    | none => .done { marks := σ, found := false }
    | some branch =>
      .move (.reset branch) (σ.setDial i { (σ.mark i).dial with index }) fun a =>
        if a.found then .move (.sift i branches index branch) a.marks .done
        else .move (.settle i branches (index + 1)) a.marks .done
  | .sift i branches index branch, σ =>
    .move (.render branch) σ fun a =>
      if (σ.mark i).seen.contains a.text then
        .move (.advance branch) σ fun b =>
          if b.found then .move (.sift i branches index branch) b.marks .done
          else .move (.settle i branches (index + 1)) b.marks .done
      else .done { marks := σ.setSeen i ((σ.mark i).seen.insert a.text) }
  | .seek child digits, σ =>
    match digits.getLast? with
    | none => .done { marks := σ }
    | some digit => .move (.reset child) σ fun a => .move (.spin child digit) a.marks .done
  | .spin _ 0, σ => .done { marks := σ }
  | .spin child (count + 1), σ =>
    .move (.advance child) σ fun a => .move (.spin child count) a.marks .done

/-- Makes a move. -/
def perform (mv : Move) (σ : Marks) (fuel : Nat) : Option Answer :=
  match mv with
  | .render i => (m.render σ i fuel).map fun text => { marks := σ, text }
  | .renderRow parts => (m.renderRow σ parts fuel).map fun text => { marks := σ, text }
  | .reset i => (m.reset i σ fuel).map fun (found, marks) => { marks, found }
  | .resetGear i gear => (m.resetGear i gear σ fuel).map fun (found, marks) => { marks, found }
  | .resetRow parts => (m.resetRow parts σ fuel).map fun (found, marks) => { marks, found }
  | .resetEach parts => (m.resetEach parts σ fuel).map fun marks => { marks }
  | .gather child values found =>
    (m.gather child values found σ fuel).map fun (texts, marks) => { marks, texts }
  | .advance i => (m.advance i σ fuel).map fun (found, marks) => { marks, found }
  | .advanceGear i gear => (m.advanceGear i gear σ fuel).map fun (found, marks) => { marks, found }
  | .advanceRow parts => (m.advanceRow parts σ fuel).map fun (found, marks) => { marks, found }
  | .settle i branches index =>
    (m.settle i branches index σ fuel).map fun (found, marks) => { marks, found }
  | .sift i branches index branch =>
    (m.sift i branches index branch σ fuel).map fun (found, marks) => { marks, found }
  | .seek child digits => (m.seek child digits σ fuel).map fun marks => { marks }
  | .spin child count => (m.spin child count σ fuel).map fun marks => { marks }

variable {m} {fuel : Nat}

theorem perform_zero (mv : Move) (σ : Marks) : m.perform mv σ 0 = none := by
  cases mv <;> rfl

/-! ### A move does what its program does -/

theorem perform_render (i : Nat) (σ : Marks) : m.perform (.render i) σ (fuel + 1) =
    (m.program (.render i) σ).run fun mv σ => m.perform mv σ fuel := by
  rw [perform, program, Machine.render]
  cases m[i]? with
  | none => rfl
  | some w =>
    obtain ⟨gear, first⟩ := w
    cases gear with
    | texts values => rfl
    | row parts => cases h : m.renderRow σ parts fuel <;> simp [Program.run, perform, h]
    | choice branches =>
      cases hbranch : branches[(σ.mark i).dial.index]? with
      | none => simp [Program.run, hbranch]
      | some branch => cases h : m.render σ branch fuel <;> simp [Program.run, perform, hbranch, h]
    | times min max child => rfl
    | echo target =>
      by_cases hpart : m.participates σ target i = true
      · cases h : m.render σ target fuel <;> simp [Program.run, perform, hpart, h]
      · simp [Program.run, hpart]

theorem perform_renderRow (parts : List Nat) (σ : Marks) :
    m.perform (.renderRow parts) σ (fuel + 1) =
      (m.program (.renderRow parts) σ).run fun mv σ => m.perform mv σ fuel := by
  rw [perform, Machine.renderRow.eq_def]
  cases parts with
  | nil => rfl
  | cons part parts =>
    cases hleft : m.render σ part fuel with
    | none => simp [program, Program.run, perform, hleft]
    | some left =>
      cases hright : m.renderRow σ parts fuel <;>
        simp [program, Program.run, perform, hleft, hright]

theorem perform_reset (i : Nat) (σ : Marks) : m.perform (.reset i) σ (fuel + 1) =
    (m.program (.reset i) σ).run fun mv σ => m.perform mv σ fuel := by
  rw [perform, program, Machine.reset]
  cases m[i]? with
  | none => rfl
  | some w =>
    rcases h : m.resetGear i w.gear σ fuel with _ | ⟨found, σ'⟩ <;> simp [Program.run, perform, h]

theorem perform_resetGear (i : Nat) (gear : Gear) (σ : Marks) :
    m.perform (.resetGear i gear) σ (fuel + 1) =
      (m.program (.resetGear i gear) σ).run fun mv σ => m.perform mv σ fuel := by
  rw [perform, Machine.resetGear.eq_def]
  cases gear with
  | texts values => rfl
  | row parts => cases h : m.resetRow parts σ fuel <;> simp [program, Program.run, perform, h]
  | choice branches =>
    cases h : m.settle i branches 0 (σ.setSeen i ∅) fuel <;> simp [program, Program.run, perform, h]
  | times min max child =>
    rcases hreset : m.reset child σ fuel with _ | ⟨found, σ₁⟩
    · simp [program, Program.run, perform, hreset]
    rcases hgather : m.gather child #[] found σ₁ fuel with _ | ⟨values, σ₂⟩
    · simp [program, Program.run, perform, hreset, hgather]
    by_cases hstalled : max < min ∨ (values.isEmpty = true ∧ 0 < min)
    · simp only [Option.bind_eq_bind, Option.bind_some, hreset, hgather, program, Program.run,
        perform, Option.map_some, if_pos hstalled]
      rfl
    · simp only [Option.bind_eq_bind, Option.bind_some, hreset, hgather, program, Program.run,
        perform, Option.map_some, if_neg hstalled]
      cases m.seek child (List.replicate min 0) (σ₂.setDial i { (σ₂.mark i).dial with
        values, digits := List.replicate min 0 }) fuel <;> rfl
  | echo target => rfl

theorem perform_resetRow (parts : List Nat) (σ : Marks) :
    m.perform (.resetRow parts) σ (fuel + 1) =
      (m.program (.resetRow parts) σ).run fun mv σ => m.perform mv σ fuel := by
  rw [perform, Machine.resetRow.eq_def]
  cases parts with
  | nil => rfl
  | cons part parts =>
    rcases hreset : m.reset part σ fuel with _ | ⟨_ | _, σ₁⟩
    · simp [program, Program.run, perform, hreset]
    · simp [program, Program.run, perform, hreset]
    · cases hrest : m.resetRow parts σ₁ fuel <;>
        simp [program, Program.run, perform, hreset, hrest]

theorem perform_resetEach (parts : List Nat) (σ : Marks) :
    m.perform (.resetEach parts) σ (fuel + 1) =
      (m.program (.resetEach parts) σ).run fun mv σ => m.perform mv σ fuel := by
  rw [perform, Machine.resetEach.eq_def]
  cases parts with
  | nil => rfl
  | cons part parts =>
    rcases hreset : m.reset part σ fuel with _ | ⟨found, σ₁⟩
    · simp [program, Program.run, perform, hreset]
    · cases hrest : m.resetEach parts σ₁ fuel <;>
        simp [program, Program.run, perform, hreset, hrest]

theorem perform_gather (child : Nat) (values : Array (List Char)) (found : Bool) (σ : Marks) :
    m.perform (.gather child values found) σ (fuel + 1) =
      (m.program (.gather child values found) σ).run fun mv σ => m.perform mv σ fuel := by
  rw [perform, Machine.gather.eq_def]
  cases found with
  | false => rfl
  | true =>
    cases htext : m.render σ child fuel with
    | none => simp [program, Program.run, perform, htext]
    | some text =>
      rcases hadvance : m.advance child σ fuel with _ | ⟨found, σ₁⟩
      · simp [program, Program.run, perform, htext, hadvance]
      · cases hrest : m.gather child (values.push text) found σ₁ fuel <;>
          simp [program, Program.run, perform, htext, hadvance, hrest]

theorem perform_advance (i : Nat) (σ : Marks) : m.perform (.advance i) σ (fuel + 1) =
    (m.program (.advance i) σ).run fun mv σ => m.perform mv σ fuel := by
  rw [perform, program, Machine.advance]
  cases m[i]? with
  | none => rfl
  | some w =>
    by_cases hlive : (σ.mark i).live = true
    · rcases h : m.advanceGear i w.gear σ fuel with _ | ⟨found, σ'⟩ <;>
        simp [Program.run, perform, hlive, h]
    · simp [Program.run, hlive]

theorem perform_advanceGear (i : Nat) (gear : Gear) (σ : Marks) :
    m.perform (.advanceGear i gear) σ (fuel + 1) =
      (m.program (.advanceGear i gear) σ).run fun mv σ => m.perform mv σ fuel := by
  rw [perform, Machine.advanceGear.eq_def]
  cases gear with
  | texts values => rfl
  | row parts => cases h : m.advanceRow parts σ fuel <;> simp [program, Program.run, perform, h]
  | choice branches =>
    cases hbranch : branches[(σ.mark i).dial.index]? with
    | none => simp [program, Program.run, hbranch]
    | some branch =>
      rcases hadvance : m.advance branch σ fuel with _ | ⟨_ | _, σ₁⟩
      · simp [program, Program.run, perform, hbranch, hadvance]
      · cases h : m.settle i branches ((σ.mark i).dial.index + 1) σ₁ fuel <;>
          simp [program, Program.run, perform, hbranch, hadvance, h]
      · cases h : m.sift i branches (σ.mark i).dial.index branch σ₁ fuel <;>
          simp [program, Program.run, perform, hbranch, hadvance, h]
  | times min max child =>
    rcases hturn : turn (σ.mark i).dial.values.size (σ.mark i).dial.digits with ⟨_ | _, digits⟩
    · simp only [hturn, program, Program.run, perform, Bool.false_eq_true, if_false]
      cases m.seek child digits (σ.setDial i { (σ.mark i).dial with digits }) fuel <;> rfl
    · by_cases hlast : max < digits.length + 1 ∨ (σ.mark i).dial.values.isEmpty = true
      · simp only [hturn, program, if_true, if_pos hlast]
        rfl
      · simp only [hturn, program, Program.run, perform, if_true, if_neg hlast]
        cases m.seek child (List.replicate (digits.length + 1) 0)
          ((σ.setDial i { (σ.mark i).dial with digits }).setDial i
            { (σ.mark i).dial with digits := List.replicate (digits.length + 1) 0 }) fuel <;> rfl
  | echo target => rfl

theorem perform_advanceRow (parts : List Nat) (σ : Marks) :
    m.perform (.advanceRow parts) σ (fuel + 1) =
      (m.program (.advanceRow parts) σ).run fun mv σ => m.perform mv σ fuel := by
  rw [perform, Machine.advanceRow.eq_def]
  cases parts with
  | nil => rfl
  | cons part parts =>
    rcases hrest : m.advanceRow parts σ fuel with _ | ⟨_ | _, σ₁⟩
    · simp [program, Program.run, perform, hrest]
    · rcases hadvance : m.advance part σ₁ fuel with _ | ⟨_ | _, σ₂⟩
      · simp [program, Program.run, perform, hrest, hadvance]
      · simp [program, Program.run, perform, hrest, hadvance]
      · cases heach : m.resetEach parts σ₂ fuel <;>
          simp [program, Program.run, perform, hrest, hadvance, heach]
    · simp [program, Program.run, perform, hrest]

theorem perform_settle (i : Nat) (branches : List Nat) (index : Nat) (σ : Marks) :
    m.perform (.settle i branches index) σ (fuel + 1) =
      (m.program (.settle i branches index) σ).run fun mv σ => m.perform mv σ fuel := by
  rw [perform, program, Machine.settle]
  cases branches[index]? with
  | none => rfl
  | some branch =>
    rcases hreset : m.reset branch (σ.setDial i { (σ.mark i).dial with index }) fuel with
      _ | ⟨_ | _, σ₁⟩
    · simp [Program.run, perform, hreset]
    · cases h : m.settle i branches (index + 1) σ₁ fuel <;> simp [Program.run, perform, hreset, h]
    · cases h : m.sift i branches index branch σ₁ fuel <;> simp [Program.run, perform, hreset, h]

theorem perform_sift (i : Nat) (branches : List Nat) (index branch : Nat) (σ : Marks) :
    m.perform (.sift i branches index branch) σ (fuel + 1) =
      (m.program (.sift i branches index branch) σ).run fun mv σ => m.perform mv σ fuel := by
  rw [perform, program, Machine.sift]
  cases htext : m.render σ branch fuel with
  | none => simp [Program.run, perform, htext]
  | some text =>
    by_cases hseen : text ∈ (σ.mark i).seen
    · rcases hadvance : m.advance branch σ fuel with _ | ⟨_ | _, σ₁⟩
      · simp [Program.run, perform, htext, hseen, hadvance]
      · cases h : m.settle i branches (index + 1) σ₁ fuel <;>
          simp [Program.run, perform, htext, hseen, hadvance, h]
      · cases h : m.sift i branches index branch σ₁ fuel <;>
          simp [Program.run, perform, htext, hseen, hadvance, h]
    · simp [Program.run, perform, htext, hseen]

theorem perform_seek (child : Nat) (digits : List Nat) (σ : Marks) :
    m.perform (.seek child digits) σ (fuel + 1) =
      (m.program (.seek child digits) σ).run fun mv σ => m.perform mv σ fuel := by
  rw [perform, program, Machine.seek]
  cases digits.getLast? with
  | none => rfl
  | some digit =>
    rcases hreset : m.reset child σ fuel with _ | ⟨found, σ₁⟩
    · simp [Program.run, perform, hreset]
    · cases h : m.spin child digit σ₁ fuel <;> simp [Program.run, perform, hreset, h]

theorem perform_spin (child count : Nat) (σ : Marks) :
    m.perform (.spin child count) σ (fuel + 1) =
      (m.program (.spin child count) σ).run fun mv σ => m.perform mv σ fuel := by
  rw [perform, Machine.spin.eq_def]
  cases count with
  | zero => rfl
  | succ count =>
    rcases hadvance : m.advance child σ fuel with _ | ⟨found, σ₁⟩
    · simp [program, Program.run, perform, hadvance]
    · cases h : m.spin child count σ₁ fuel <;> simp [program, Program.run, perform, hadvance, h]

/-- **A move does what its program does,** with less fuel for the moves in it. -/
theorem perform_succ (mv : Move) (σ : Marks) :
    m.perform mv σ (fuel + 1) = (m.program mv σ).run fun mv σ => m.perform mv σ fuel := by
  cases mv with
  | render i => exact perform_render i σ
  | renderRow parts => exact perform_renderRow parts σ
  | reset i => exact perform_reset i σ
  | resetGear i gear => exact perform_resetGear i gear σ
  | resetRow parts => exact perform_resetRow parts σ
  | resetEach parts => exact perform_resetEach parts σ
  | gather child values found => exact perform_gather child values found σ
  | advance i => exact perform_advance i σ
  | advanceGear i gear => exact perform_advanceGear i gear σ
  | advanceRow parts => exact perform_advanceRow parts σ
  | settle i branches index => exact perform_settle i branches index σ
  | sift i branches index branch => exact perform_sift i branches index branch σ
  | seek child digits => exact perform_seek child digits σ
  | spin child count => exact perform_spin child count σ

/-! ## Moves that are made -/

/-- The moves that are made while a program runs with some fuel: its own, and those made in turn
while they are performed. -/
inductive Made (m : Machine) : Nat → Program → Move → Marks → Prop where
  | now (fuel : Nat) (mv : Move) (σ : Marks) (next : Answer → Program) :
    Made m fuel (.move mv σ next) mv σ
  | within {fuel : Nat} {mv mv' : Move} {σ σ' : Marks} {next : Answer → Program} :
    Made m fuel (m.program mv σ) mv' σ' → Made m (fuel + 1) (.move mv σ next) mv' σ'
  | after {fuel : Nat} {mv mv' : Move} {σ σ' : Marks} {next : Answer → Program} {a : Answer} :
    m.perform mv σ fuel = some a → Made m fuel (next a) mv' σ' →
      Made m fuel (.move mv σ next) mv' σ'

variable {prog : Program} {mv : Move} {σ : Marks}

/-- **A program that has a result is not stuck in a move:** every move that is made has a result. -/
theorem Made.performed (h : m.Made fuel prog mv σ) {a : Answer}
    (ha : prog.run (fun mv σ => m.perform mv σ fuel) = some a) :
    ∃ fuel' b, (m.program mv σ).run (fun mv σ => m.perform mv σ fuel') = some b := by
  induction h generalizing a with
  | now fuel mv σ next =>
    obtain ⟨b, (hb : m.perform mv σ fuel = some b), -⟩ := Option.bind_eq_some_iff.1 ha
    cases fuel with
    | zero =>
      rw [perform_zero] at hb
      cases hb
    | succ fuel =>
      rw [perform_succ] at hb
      exact ⟨fuel, b, hb⟩
  | within _ ih =>
    obtain ⟨b, (hb : m.perform _ _ (_ + 1) = some b), -⟩ := Option.bind_eq_some_iff.1 ha
    rw [perform_succ] at hb
    exact ih hb
  | after hperform _ ih =>
    obtain ⟨b, hb, ha⟩ := Option.bind_eq_some_iff.1 ha
    cases hperform.symm.trans hb
    exact ih ha

theorem Made.of_done {mv' : Move} {σ' : Marks} {next : Answer → Program}
    (h : m.Made fuel (.move mv σ .done) mv' σ') : m.Made fuel (.move mv σ next) mv' σ' := by
  cases h with
  | now => exact .now ..
  | within h => exact .within h
  | after _ h => cases h

/-- The moves that are made, in order. -/
def moves (m : Machine) : Nat → Program → List (Move × Marks)
  | 0, prog => prog.moves (fun mv σ => m.perform mv σ 0) fun _ _ => []
  | fuel + 1, prog =>
    prog.moves (fun mv σ => m.perform mv σ (fuel + 1)) fun mv σ => m.moves fuel (m.program mv σ)

theorem mem_moves_move {next : Answer → Program} {x : Move × Marks} :
    x ∈ m.moves fuel (.move mv σ next) ↔ x = (mv, σ) ∨
      (∃ less, fuel = less + 1 ∧ x ∈ m.moves less (m.program mv σ)) ∨
        ∃ a, m.perform mv σ fuel = some a ∧ x ∈ m.moves fuel (next a) := by
  cases fuel <;> simp [moves, Program.mem_moves_move]

/-- **The moves that are made can be listed.** -/
theorem mem_moves : (mv, σ) ∈ m.moves fuel prog ↔ m.Made fuel prog mv σ := by
  constructor
  · intro h
    -- on the fuel for the moves within a move, and on the program for those after it
    induction fuel using Nat.strongRecOn generalizing prog with | ind fuel ihfuel =>
    induction prog with
    | done a => cases fuel <;> cases h
    | stuck => cases fuel <;> cases h
    | move mv₁ σ₁ next ih =>
      rcases mem_moves_move.1 h with heq | ⟨less, rfl, hwithin⟩ | ⟨a, ha, hafter⟩
      · cases heq
        exact .now ..
      · exact .within (ihfuel less (Nat.lt_succ_self less) hwithin)
      · exact .after ha (ih a hafter)
  · intro h
    induction h with
    | now => exact mem_moves_move.2 (.inl rfl)
    | within _ ih => exact mem_moves_move.2 (.inr (.inl ⟨_, rfl, ih⟩))
    | after ha _ ih => exact mem_moves_move.2 (.inr (.inr ⟨_, ha, ih⟩))

section Keeps

variable {pre : Move → Marks → Prop} {spec : Move → Marks → Answer → Prop}
  {post : Answer → Prop}

/-- A program that keeps something gives what it should, if the moves it makes do. -/
theorem keeps_of_made (h : prog.Keeps pre spec post)
    (hperform : ∀ mv σ a, (∀ mv' σ', m.Made fuel (.move mv σ .done) mv' σ' →
      m.Made fuel prog mv' σ') → pre mv σ → m.perform mv σ fuel = some a → spec mv σ a)
    {a : Answer} (ha : prog.run (fun mv σ => m.perform mv σ fuel) = some a) : post a := by
  induction prog with
  | done b =>
    cases ha
    exact h
  | stuck => cases ha
  | move mv σ next ih =>
    obtain ⟨b, hb, ha⟩ := Option.bind_eq_some_iff.1 ha
    have hspec : spec mv σ b := hperform mv σ b (fun _ _ => Made.of_done) h.1 hb
    exact ih b (h.2 b hspec) (fun mv₁ σ₁ a₁ hmade => hperform mv₁ σ₁ a₁
      fun mv' σ' h => .after hb (hmade mv' σ' h)) ha

/-- **What all programs keep holds of all results.** -/
theorem perform_keeps (h : ∀ mv σ, pre mv σ → (m.program mv σ).Keeps pre spec (spec mv σ))
    {a : Answer} (hmv : pre mv σ) (ha : m.perform mv σ fuel = some a) : spec mv σ a := by
  induction fuel generalizing mv σ a with
  | zero =>
    rw [perform_zero] at ha
    cases ha
  | succ fuel ih =>
    rw [perform_succ] at ha
    exact keeps_of_made (h mv σ hmv) (fun _ _ _ _ => ih) ha

/-- **Only moves that are allowed are made.** -/
theorem Made.allowed
    (h : ∀ mv σ, pre mv σ → (m.program mv σ).Keeps pre spec (spec mv σ))
    (hprog : prog.Keeps pre spec post) (hmade : m.Made fuel prog mv σ) : pre mv σ := by
  induction hmade generalizing post with
  | now fuel mv σ next => exact hprog.1
  | within _ ih => exact ih (h _ _ hprog.1)
  | after ha _ ih => exact ih (hprog.2 _ (perform_keeps h hprog.1 ha))

end Keeps

end Machine

end SequenceConstraint
