import SequenceConstraint.Generation.Enumerate

/-!
# Streams of texts

A stream hands out the texts of a plan one at a time, and can start over. An exhausted stream stays
exhausted until then.

## Main statements

* `Stream.fst_next`, `Stream.toList_next` — a step takes the first of the texts to come
* `Stream.fst_take`, `Stream.toList_take` — steps in a row take that many of them
* `Stream.start_next`, `Stream.start_take` — no step changes what the stream starts with
-/

namespace SequenceConstraint

structure Stream where
  start : Unit → Run Snapshot
  rest : Unit → Run Snapshot

namespace Stream

def ofPlan (cap : Nat) (plan : Plan) : Stream :=
  ⟨fun _ => plan.run cap [], fun _ => plan.run cap []⟩

/-- The stream of the texts of a tree; a repetition without bound repeats at most `cap` times more
than it must. -/
def ofTree (cap : Nat) (tree : Tree) : Except Dangling Stream := tree.plan.map (ofPlan cap)

/-- The next text. -/
def next (s : Stream) : Option (List Char) × Stream :=
  match s.rest () with
  | .done last => (none, { s with rest := fun _ => .done last })
  | .yield now rest => (some (now []).text, { s with rest := rest })

def restart (s : Stream) : Stream := { s with rest := s.start }

/-- At most `count` texts. -/
def take (s : Stream) : (count : Nat) → List (List Char) × Stream
  | 0 => ([], s)
  | count + 1 =>
    match s.next with
    | (none, s) => ([], s)
    | (some text, s) =>
      let (texts, s) := s.take count
      (text :: texts, s)

/-! ## The texts to come -/

/-- All texts to come. -/
def toList (s : Stream) : List (List Char) := (s.rest ()).toList.map fun now => (now []).text

theorem toList_ofPlan (cap : Nat) (plan : Plan) :
    (ofPlan cap plan).toList = (plan.run cap []).toList.map fun now => (now []).text := rfl

theorem fst_next (s : Stream) : s.next.1 = s.toList.head? := by
  unfold next toList
  cases s.rest () <;> rfl

theorem toList_next (s : Stream) : s.next.2.toList = s.toList.tail := by
  unfold next toList
  cases s.rest () <;> rfl

theorem start_next (s : Stream) : s.next.2.start = s.start := by
  unfold next
  cases s.rest () <;> rfl

theorem rest_restart (s : Stream) : s.restart.rest = s.start := rfl

theorem fst_take (s : Stream) (count : Nat) : (s.take count).1 = s.toList.take count := by
  induction count generalizing s with
  | zero => rfl
  | succ count ih =>
    have hhead := s.fst_next
    have htail := s.toList_next
    unfold take
    split
    · rename_i h
      rw [h] at hhead
      rw [List.head?_eq_none_iff.1 hhead.symm]
      rfl
    · rename_i text t h
      rw [h] at hhead htail
      obtain ⟨texts, hs⟩ := List.head?_eq_some_iff.1 hhead.symm
      rw [hs] at htail ⊢
      simp [ih t, htail]

theorem toList_take (s : Stream) (count : Nat) : (s.take count).2.toList = s.toList.drop count := by
  induction count generalizing s with
  | zero => rfl
  | succ count ih =>
    have hhead := s.fst_next
    have htail := s.toList_next
    unfold take
    split
    · rename_i t h
      rw [h] at hhead htail
      rw [List.head?_eq_none_iff.1 hhead.symm] at htail ⊢
      exact htail
    · rename_i text t h
      rw [h] at htail
      rw [← List.drop_one] at htail
      simp [ih t, htail]

theorem start_take (s : Stream) (count : Nat) : (s.take count).2.start = s.start := by
  induction count generalizing s with
  | zero => rfl
  | succ count ih =>
    have hstart := s.start_next
    unfold take
    split
    · rename_i h
      rw [h] at hstart
      exact hstart
    · rename_i text t h
      rw [h] at hstart
      exact (ih t).trans hstart

end Stream

end SequenceConstraint
