import SequenceConstraint.Generation.Enumerate

/-!
# Banks of cursors

A bank holds plans that are moved by hand, each on its own. They are numbered in the order in which
they are added, and a plan can echo those before it by their numbers: it then shows what they show
at that moment.

## Main statements

* `Cursor.plan_place` — a cursor that is moved keeps its plan
* `Bank.getElem?_move_of_ne` — a move leaves all other cursors where they are
-/

namespace SequenceConstraint

/-- A plan in one of its states. -/
structure Cursor where
  plan : Plan
  current : Snapshot
  rest : Unit → Run Snapshot

namespace Cursor

/-- Puts a cursor on the state that a run has come to, and says whether there is one. -/
def place (c : Cursor) : Run Snapshot → Bool × Cursor
  | .done last => (false, { c with current := last, rest := fun _ => .done last })
  | .yield now rest => (true, { c with current := now, rest := rest })

theorem plan_place (c : Cursor) (run : Run Snapshot) : (c.place run).2.plan = c.plan := by
  cases run <;> rfl

/-- Moves to the first state. -/
def reset (c : Cursor) (env : Bindings) : Bool × Cursor := c.place (c.plan.run 0 env)

/-- Moves to the next state. -/
def advance (c : Cursor) : Bool × Cursor := c.place (c.rest ())

/-- A cursor on the first state of a plan. -/
def ofPlan (plan : Plan) (env : Bindings) : Cursor :=
  ((⟨plan, plan.initial, fun _ => .done plan.initial⟩ : Cursor).reset env).2

end Cursor

structure Bank where
  cursors : List Cursor

namespace Bank

def empty : Bank := ⟨[]⟩

/-- The texts of some cursors by their numbers; `env` holds those of the cursors before them. -/
def bindingsFrom (env : Bindings) : List Cursor → Bindings
  | [] => env
  | c :: cursors => bindingsFrom ((env.length, (c.current env).text) :: env) cursors

/-- The texts that the cursor with a number can echo. -/
def bindings (bank : Bank) (id : Nat) : Bindings := bindingsFrom [] (bank.cursors.take id)

/-- Adds a plan and gives its number. -/
def add (bank : Bank) (plan : Plan) : Nat × Bank :=
  let id := bank.cursors.length
  (id, ⟨bank.cursors ++ [.ofPlan plan (bank.bindings id)]⟩)

/-- Moves one cursor. -/
def move (bank : Bank) (id : Nat) (step : Cursor → Bool × Cursor) : Bool × Bank :=
  match bank.cursors[id]? with
  | none => (false, bank)
  | some c =>
    let (found, c) := step c
    (found, ⟨bank.cursors.set id c⟩)

/-- **All other cursors stay where they are.** -/
theorem getElem?_move_of_ne (bank : Bank) {id other : Nat} (step : Cursor → Bool × Cursor)
    (h : other ≠ id) : (bank.move id step).2.cursors[other]? = bank.cursors[other]? := by
  unfold move
  split
  · rfl
  · exact List.getElem?_set_ne h.symm

def reset (bank : Bank) (id : Nat) : Bool × Bank :=
  bank.move id (·.reset (bank.bindings id))

def advance (bank : Bank) (id : Nat) : Bool × Bank := bank.move id Cursor.advance

/-- What a cursor shows. -/
def text? (bank : Bank) (id : Nat) : Option (List Char) :=
  bank.cursors[id]?.map fun c => (c.current (bank.bindings id)).text

/-- All texts that a plan of the bank shows from its first state on. -/
def collect (bank : Bank) (id : Nat) : List (List Char) :=
  let env := bank.bindings id
  match bank.cursors[id]? with
  | none => []
  | some c => (c.plan.run 0 env).collect.1.map fun s => (s env).text

end Bank

end SequenceConstraint
