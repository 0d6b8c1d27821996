/-!
# Snapshots

A part of a plan goes from state to state. In each it shows a text, and the texts of the groups in
it that take part in that text. Both may hang on groups that stand elsewhere, through echoes; a
*snapshot* is therefore a function of the texts of those groups.

A snapshot is kept when the part moves on: a state can be looked at again later, when other groups
have changed.
-/

namespace SequenceConstraint

/-- Texts of groups by name. A group without an entry takes no part. -/
abbrev Bindings := List (Nat × List Char)

/-- The text of a group; a group that takes no part has the empty text. -/
def Bindings.text (groups : Bindings) (name : Nat) : List Char := (groups.lookup name).getD []

/-- What a part shows. -/
structure Shown where
  text : List Char
  groups : Bindings

abbrev Snapshot := Bindings → Shown

namespace Snapshot

/-- Always the same text, and no groups. -/
def const (text : List Char) : Snapshot := fun _ => ⟨text, []⟩

def empty : Snapshot := const []

def echo (name : Nat) : Snapshot := fun env => ⟨env.text name, []⟩

/-- Two parts beside each other: the second sees the groups of the first. -/
def beside (s t : Snapshot) : Snapshot := fun env =>
  let left := s env
  let right := t (left.groups ++ env)
  ⟨left.text ++ right.text, right.groups ++ left.groups⟩

/-- A group: what it shows is bound to its name. -/
def named (name : Nat) (s : Snapshot) : Snapshot := fun env =>
  let body := s env
  ⟨body.text, (name, body.text) :: body.groups⟩

/-- The groups that a part sees, given those that its surroundings see. -/
abbrev Scope := Bindings → Bindings

/-- A part with a scope of its own. -/
def within (scope : Scope) (s : Snapshot) : Snapshot := fun env => s (scope env)

/-- A scope with the groups of a snapshot added. -/
def extend (scope : Scope) (s : Snapshot) : Scope := fun env =>
  let seen := scope env
  (s seen).groups ++ seen

end Snapshot

end SequenceConstraint
