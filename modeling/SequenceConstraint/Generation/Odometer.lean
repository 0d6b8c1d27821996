import SequenceConstraint.Generation.Enumerate
import Std.Data.TreeMap

/-!
# Odometers

An odometer goes through the texts of a plan in place. It is a machine of wheels, each numbered
after those it is made of, and what changes is the marks on the wheels: a wheel is moved to its
first value (`reset`) or to its next one (`advance`), and tells whether there is one. What the
wheels show is put together from their dials (`render`).

The wheels a wheel is made of, and itself, are numbered without a gap from its `first` on. This is
how an echo tells whether its target takes part: the wheels around the target, but for those that
are also around the echo, must have turned to it.

Nothing is cleared when an odometer starts over. Marks left from before are in the way only as far
as `reset` leaves them.

## Termination

Nothing about a machine says how long its moves take, so they are given fuel, and have no result if
it runs out, nor if they ask for a wheel that is not there or advance one that has no value. A
computation ends (`Ends`) if it has a result as soon as it has fuel enough.
-/

namespace SequenceConstraint

/-! ## Fuel -/

/-- Whether a computation has a result once it has fuel enough. -/
def Ends {α : Type} (c : Nat → Option α) (a : α) : Prop := ∃ n, ∀ fuel, n ≤ fuel → c fuel = some a

namespace Ends

variable {α β γ δ : Type} {c : Nat → Option α} {d : Nat → Option β} {e : Nat → Option γ}
  {f : Nat → Option δ} {a a' : α} {b : β} {r : γ} {s : δ}

theorem pure (h : ∀ fuel, c fuel = some a) : Ends c a := ⟨0, fun fuel _ => h fuel⟩

/-- A step takes one unit of fuel. -/
theorem succ (h : Ends (fun fuel => c (fuel + 1)) a) : Ends c a := by
  obtain ⟨n, hn⟩ := h
  refine ⟨n + 1, fun fuel hfuel => ?_⟩
  cases fuel with
  | zero => cases hfuel
  | succ fuel => exact hn fuel (Nat.le_of_succ_le_succ hfuel)

/-- What asks for the result of three computations. -/
theorem of₃ (hc : Ends c a) (hd : Ends d b) (he : Ends e r)
    (h : ∀ fuel, c fuel = some a → d fuel = some b → e fuel = some r → f fuel = some s) :
    Ends f s := by
  obtain ⟨n₁, hc⟩ := hc
  obtain ⟨n₂, hd⟩ := hd
  obtain ⟨n₃, he⟩ := he
  refine ⟨max n₁ (max n₂ n₃), fun fuel hfuel => ?_⟩
  exact h fuel (hc fuel (by omega)) (hd fuel (by omega)) (he fuel (by omega))

theorem of₂ (hc : Ends c a) (hd : Ends d b)
    (h : ∀ fuel, c fuel = some a → d fuel = some b → e fuel = some r) : Ends e r :=
  hc.of₃ hd hd fun fuel hc hd _ => h fuel hc hd

theorem of (hc : Ends c a) (h : ∀ fuel, c fuel = some a → d fuel = some b) : Ends d b :=
  hc.of₂ hc fun fuel hc _ => h fuel hc

/-- There is only one result. -/
theorem unique (h : Ends c a) (h' : Ends c a') : a = a' := by
  obtain ⟨n, hn⟩ := h
  obtain ⟨n', hn'⟩ := h'
  have hc := hn (max n n') (Nat.le_max_left n n')
  rw [hn' _ (Nat.le_max_right n n')] at hc
  exact (Option.some.inj hc).symm

end Ends

/-! ## Wheels -/

/-- What a wheel does. Other wheels are given by their numbers. -/
inductive Gear where
  /-- Shows one text after the other. -/
  | texts (values : List (List Char))
  /-- Shows all parts; the rightmost moves fastest. -/
  | row (parts : List Nat)
  /-- Shows one branch after the other, but no text twice. -/
  | choice (branches : List Nat)
  /-- Shows words over the texts of the child. -/
  | times (min max child : Nat)
  /-- Shows what the target shows, if it takes part. -/
  | echo (target : Nat)

structure Wheel where
  gear : Gear
  /-- The first of the wheels it is made of. -/
  first : Nat

abbrev Machine := Array Wheel

/-! ## Marks -/

/-- What a wheel shows, as far as it does not hang on other wheels. -/
structure Dial where
  /-- The text, or the branch, that is shown. -/
  index : Nat := 0
  /-- The texts of a child, when it was last gone through. -/
  values : Array (List Char) := #[]
  /-- The number of the text for each repeat. -/
  digits : List Nat := []

/-- What is remembered of a wheel. -/
structure Mark where
  dial : Dial := {}
  /-- The texts that a choice has shown. -/
  seen : Std.TreeSet (List Char) compare := ∅
  /-- Whether its latest move has found a value. -/
  live : Bool := false

/-- The marks on all wheels. A wheel that has not been moved has no entry. -/
structure Marks where
  entries : Std.TreeMap Nat Mark compare := ∅

namespace Marks

def mark (σ : Marks) (i : Nat) : Mark := σ.entries.getD i {}

def set (σ : Marks) (i : Nat) (mark : Mark) : Marks := ⟨σ.entries.insert i mark⟩

def setDial (σ : Marks) (i : Nat) (dial : Dial) : Marks := σ.set i { σ.mark i with dial }

def setSeen (σ : Marks) (i : Nat) (seen : Std.TreeSet (List Char) compare) : Marks :=
  σ.set i { σ.mark i with seen }

def setLive (σ : Marks) (i : Nat) (live : Bool) : Marks := σ.set i { σ.mark i with live }

variable (σ : Marks) (i j : Nat)

theorem mark_set (mark : Mark) : (σ.set i mark).mark j = if j = i then mark else σ.mark j := by
  unfold Marks.mark set
  rw [Std.TreeMap.getD_insert]
  by_cases h : j = i
  · rw [if_pos (Std.LawfulEqCmp.compare_eq_iff_eq.2 h.symm), if_pos h]
  · rw [if_neg fun heq => h (Std.LawfulEqCmp.compare_eq_iff_eq.1 heq).symm, if_neg h]

@[simp] theorem mark_setDial_self (dial : Dial) :
    (σ.setDial i dial).mark i = { σ.mark i with dial } := by
  rw [setDial, mark_set, if_pos rfl]

@[simp] theorem mark_setSeen_self (seen : Std.TreeSet (List Char) compare) :
    (σ.setSeen i seen).mark i = { σ.mark i with seen } := by
  rw [setSeen, mark_set, if_pos rfl]

@[simp] theorem mark_setLive_self (live : Bool) :
    (σ.setLive i live).mark i = { σ.mark i with live } := by
  rw [setLive, mark_set, if_pos rfl]

variable {i j}

theorem mark_setDial_of_ne (dial : Dial) (h : j ≠ i) : (σ.setDial i dial).mark j = σ.mark j := by
  rw [setDial, mark_set, if_neg h]

theorem mark_setSeen_of_ne (seen : Std.TreeSet (List Char) compare) (h : j ≠ i) :
    (σ.setSeen i seen).mark j = σ.mark j := by
  rw [setSeen, mark_set, if_neg h]

theorem mark_setLive_of_ne (live : Bool) (h : j ≠ i) : (σ.setLive i live).mark j = σ.mark j := by
  rw [setLive, mark_set, if_neg h]

end Marks

namespace Machine

variable (m : Machine)

/-! ## What wheels show -/

/-- Whether a wheel is one of those that another is made of. -/
def within (i outer : Nat) : Bool :=
  match m[outer]? with
  | some w => decide (w.first ≤ i) && decide (i ≤ outer)
  | none => false

/-- Whether a wheel around the target has turned to it. -/
def selects (σ : Marks) (outer target : Nat) : Bool :=
  match m[outer]? with
  | some ⟨.choice branches, _⟩ =>
    match branches[(σ.mark outer).dial.index]? with
    | some branch => m.within target branch
    | none => false
  | some ⟨.times .., _⟩ => !(σ.mark outer).dial.digits.isEmpty
  | _ => true

/-- Whether the target of an echo takes part. Wheels around both are passed over. -/
def participates (σ : Marks) (target echo : Nat) : Bool :=
  (List.range' (target + 1) (m.size - (target + 1))).all fun outer =>
    !(m.within target outer && !m.within echo outer) || m.selects σ outer target

mutual

/-- The text that a wheel shows. -/
def render (σ : Marks) (i : Nat) : Nat → Option (List Char)
  | 0 => none
  | fuel + 1 => do
    let w ← m[i]?
    let dial := (σ.mark i).dial
    match w.gear with
    | .texts values => return values[dial.index]?.getD []
    | .row parts => renderRow σ parts fuel
    | .choice branches =>
      match branches[dial.index]? with
      | some branch => render σ branch fuel
      | none => return []
    | .times .. => return dial.digits.flatMap fun digit => dial.values[digit]?.getD []
    | .echo target => if m.participates σ target i then render σ target fuel else return []
termination_by structural fuel => fuel

def renderRow (σ : Marks) (parts : List Nat) : Nat → Option (List Char)
  | 0 => none
  | fuel + 1 =>
    match parts with
    | [] => some []
    | part :: parts => do
      let left ← render σ part fuel
      let right ← renderRow σ parts fuel
      return left ++ right
termination_by structural fuel => fuel

end

/-! ## Moves -/

/-- Turns the rightmost digit, and the one before it where a digit starts anew. Tells whether all of
them do. -/
def turn (size : Nat) : List Nat → Bool × List Nat
  | [] => (true, [])
  | digit :: digits =>
    match turn size digits with
    | (false, digits) => (false, digit :: digits)
    | (true, digits) =>
      if digit + 1 < size then (false, (digit + 1) :: digits) else (true, 0 :: digits)

mutual

/-- Moves a wheel to its first value and tells whether there is one. -/
def reset (i : Nat) (σ : Marks) : Nat → Option (Bool × Marks)
  | 0 => none
  | fuel + 1 => do
    let w ← m[i]?
    let (found, σ) ← resetGear i w.gear σ fuel
    return (found, σ.setLive i found)
termination_by structural fuel => fuel

def resetGear (i : Nat) (gear : Gear) (σ : Marks) : Nat → Option (Bool × Marks)
  | 0 => none
  | fuel + 1 =>
    match gear with
    | .texts values => some (!values.isEmpty, σ.setDial i { (σ.mark i).dial with index := 0 })
    | .row parts => resetRow parts σ fuel
    | .choice branches => settle i branches 0 (σ.setSeen i ∅) fuel
    | .times min max child => do
      let (found, σ) ← reset child σ fuel
      let (values, σ) ← gather child #[] found σ fuel
      let digits := List.replicate min 0
      let σ := σ.setDial i { (σ.mark i).dial with values, digits }
      if max < min ∨ (values.isEmpty ∧ 0 < min) then return (false, σ)
      else
        let σ ← seek child digits σ fuel
        return (true, σ)
    | .echo _ => some (true, σ)
termination_by structural fuel => fuel

/-- Resets parts up to one that has no value. -/
def resetRow (parts : List Nat) (σ : Marks) : Nat → Option (Bool × Marks)
  | 0 => none
  | fuel + 1 =>
    match parts with
    | [] => some (true, σ)
    | part :: parts => do
      let (found, σ) ← reset part σ fuel
      if found then resetRow parts σ fuel else return (false, σ)
termination_by structural fuel => fuel

/-- Resets all parts, whatever they tell. -/
def resetEach (parts : List Nat) (σ : Marks) : Nat → Option Marks
  | 0 => none
  | fuel + 1 =>
    match parts with
    | [] => some σ
    | part :: parts => do
      let (_, σ) ← reset part σ fuel
      resetEach parts σ fuel
termination_by structural fuel => fuel

/-- Goes through the values of a child and adds their texts. -/
def gather (child : Nat) (values : Array (List Char)) (found : Bool) (σ : Marks) :
    Nat → Option (Array (List Char) × Marks)
  | 0 => none
  | fuel + 1 =>
    if found then do
      let text ← m.render σ child fuel
      let (found, σ) ← advance child σ fuel
      gather child (values.push text) found σ fuel
    else some (values, σ)
termination_by structural fuel => fuel

/-- Moves a wheel that has a value to the next one and tells whether there is one. -/
def advance (i : Nat) (σ : Marks) : Nat → Option (Bool × Marks)
  | 0 => none
  | fuel + 1 => do
    let w ← m[i]?
    if (σ.mark i).live then
      let (found, σ) ← advanceGear i w.gear σ fuel
      return (found, σ.setLive i found)
    else none
termination_by structural fuel => fuel

def advanceGear (i : Nat) (gear : Gear) (σ : Marks) : Nat → Option (Bool × Marks)
  | 0 => none
  | fuel + 1 =>
    let dial := (σ.mark i).dial
    match gear with
    | .texts values =>
      let index := dial.index + 1
      some (decide (index < values.length), σ.setDial i { dial with index })
    | .row parts => advanceRow parts σ fuel
    | .choice branches => do
      let branch ← branches[dial.index]?
      let (found, σ) ← advance branch σ fuel
      if found then sift i branches dial.index branch σ fuel
      else settle i branches (dial.index + 1) σ fuel
    | .times _ max child => do
      let (carried, digits) := turn dial.values.size dial.digits
      let σ := σ.setDial i { dial with digits }
      if carried then
        if max < digits.length + 1 ∨ dial.values.isEmpty then return (false, σ)
        else
          -- one more repeat, all of them with the first text
          let digits := List.replicate (digits.length + 1) 0
          let σ ← seek child digits (σ.setDial i { dial with digits }) fuel
          return (true, σ)
      else
        let σ ← seek child digits σ fuel
        return (true, σ)
    | .echo _ => some (false, σ)
termination_by structural fuel => fuel

/-- Advances the rightmost part that has a next value; those after it start anew. -/
def advanceRow (parts : List Nat) (σ : Marks) : Nat → Option (Bool × Marks)
  | 0 => none
  | fuel + 1 =>
    match parts with
    | [] => some (false, σ)
    | part :: parts => do
      let (found, σ) ← advanceRow parts σ fuel
      if found then return (true, σ)
      else
        let (found, σ) ← advance part σ fuel
        if found then
          let σ ← resetEach parts σ fuel
          return (true, σ)
        else return (false, σ)
termination_by structural fuel => fuel

/-- Turns a choice to the first new text from a branch on. -/
def settle (i : Nat) (branches : List Nat) (index : Nat) (σ : Marks) : Nat → Option (Bool × Marks)
  | 0 => none
  | fuel + 1 =>
    match branches[index]? with
    | none => some (false, σ)
    | some branch => do
      let (found, σ) ← reset branch (σ.setDial i { (σ.mark i).dial with index }) fuel
      if found then sift i branches index branch σ fuel
      else settle i branches (index + 1) σ fuel
termination_by structural fuel => fuel

/-- Turns a choice to the first new text from what a branch shows on. -/
def sift (i : Nat) (branches : List Nat) (index branch : Nat) (σ : Marks) :
    Nat → Option (Bool × Marks)
  | 0 => none
  | fuel + 1 => do
    let text ← m.render σ branch fuel
    let seen := (σ.mark i).seen
    if seen.contains text then
      let (found, σ) ← advance branch σ fuel
      if found then sift i branches index branch σ fuel
      else settle i branches (index + 1) σ fuel
    else return (true, σ.setSeen i (seen.insert text))
termination_by structural fuel => fuel

/-- Moves a child to what the last of some digits stands for, so that echoes see the last repeat. -/
def seek (child : Nat) (digits : List Nat) (σ : Marks) : Nat → Option Marks
  | 0 => none
  | fuel + 1 =>
    match digits.getLast? with
    | none => some σ
    | some digit => do
      let (_, σ) ← reset child σ fuel
      spin child digit σ fuel
termination_by structural fuel => fuel

/-- Advances a child some times, whatever it tells. -/
def spin (child count : Nat) (σ : Marks) : Nat → Option Marks
  | 0 => none
  | fuel + 1 =>
    match count with
    | 0 => some σ
    | count + 1 => do
      let (_, σ) ← advance child σ fuel
      spin child count σ fuel
termination_by structural fuel => fuel

end

end Machine

/-! ## The machine of a plan -/

mutual

/-- The number of the wheel of a plan, if its wheels are numbered from `first` on. -/
def Plan.root (first : Nat) : Plan → Nat
  | .texts _ => first
  | .concat parts => past first parts
  | .choice branches => past first branches
  | .times _ _ body => body.root first + 1
  | .echo _ => first
  | .named _ body => body.root first

/-- The first number after the wheels of some plans. -/
def past (first : Nat) : List Plan → Nat
  | [] => first
  | p :: ps => past (p.root first + 1) ps

end

/-- The numbers of the wheels of some plans. -/
def roots (first : Nat) : List Plan → List Nat
  | [] => []
  | p :: ps => p.root first :: roots (p.root first + 1) ps

mutual

/-- The wheels that names stand for. -/
def Plan.places (first : Nat) : Plan → List (Nat × Nat)
  | .texts _ => []
  | .concat parts => partsPlaces first parts
  | .choice branches => partsPlaces first branches
  | .times _ _ body => body.places first
  | .echo _ => []
  | .named name body => (name, body.root first) :: body.places first

def partsPlaces (first : Nat) : List Plan → List (Nat × Nat)
  | [] => []
  | p :: ps => p.places first ++ partsPlaces (p.root first + 1) ps

end

mutual

/-- The wheels of a plan, those of its parts first. A repetition without bound repeats at most `cap`
times more than it must. -/
def Plan.wheels (cap : Nat) (place : Nat → Nat) (first : Nat) : Plan → List Wheel
  | .texts values => [⟨.texts values, first⟩]
  | .concat parts => partsWheels cap place first parts ++ [⟨.row (roots first parts), first⟩]
  | .choice branches =>
    partsWheels cap place first branches ++ [⟨.choice (roots first branches), first⟩]
  | .times min max body =>
    body.wheels cap place first ++
      [⟨.times min (Plan.limit cap min max) (body.root first), first⟩]
  | .echo name => [⟨.echo (place name), first⟩]
  | .named _ body => body.wheels cap place first

def partsWheels (cap : Nat) (place : Nat → Nat) (first : Nat) : List Plan → List Wheel
  | [] => []
  | p :: ps => p.wheels cap place first ++ partsWheels cap place (p.root first + 1) ps

end

namespace Plan

/-- The wheel that a name stands for. -/
def place (p : Plan) (name : Nat) : Nat := ((p.places 0).lookup name).getD 0

def machine (cap : Nat) (p : Plan) : Machine := (p.wheels cap p.place 0).toArray

end Plan

/-! ## Odometers -/

/-- Where an odometer is in its texts. -/
inductive Stage where
  | fresh
  | running
  | done
deriving DecidableEq

structure Odometer where
  machine : Machine
  root : Nat
  marks : Marks := {}
  stage : Stage := .fresh

namespace Odometer

def ofPlan (cap : Nat) (p : Plan) : Odometer := { machine := p.machine cap, root := p.root 0 }

/-- The odometer of the texts of a tree. -/
def ofTree (cap : Nat) (tree : Tree) : Except Dangling Odometer := tree.plan.map (ofPlan cap)

/-- Starts over. The marks stay as they are. -/
def restart (o : Odometer) : Odometer := { o with stage := .fresh }

/-- Moves the machine to the next text and tells whether there is one. -/
def move (o : Odometer) (fuel : Nat) : Option (Bool × Marks) :=
  match o.stage with
  | .fresh => o.machine.reset o.root o.marks fuel
  | .running => o.machine.advance o.root o.marks fuel
  | .done => some (false, o.marks)

/-- The next text. -/
def next (o : Odometer) (fuel : Nat) : Option (Option (List Char) × Odometer) := do
  let (more, marks) ← o.move fuel
  if more then
    let text ← o.machine.render marks o.root fuel
    return (some text, { o with marks, stage := .running })
  else return (none, { o with marks, stage := .done })

/-- The answers of `count` calls of `next`. -/
def nexts (o : Odometer) : (count fuel : Nat) → Option (List (Option (List Char)) × Odometer)
  | 0, _ => some ([], o)
  | count + 1, fuel => do
    let (answer, o) ← o.next fuel
    let (answers, o) ← o.nexts count fuel
    return (answer :: answers, o)

inductive Call where
  | next
  | restart

/-- Where some calls in a row leave an odometer. -/
def after (o : Odometer) : (calls : List Call) → (fuel : Nat) → Option Odometer
  | [], _ => some o
  | .next :: calls, fuel => do
    let (_, o) ← o.next fuel
    o.after calls fuel
  | .restart :: calls, fuel => o.restart.after calls fuel

end Odometer

end SequenceConstraint
