import Std.Data.TreeSet

/-!
# Enumerations

A run yields values one after another and is computed no further than it is asked for. When its
values are used up it still has a *last* value: the one it is left with.

Each operation is pinned down by what it does to the list of the values (`toList`) and to the last
value, so that proofs can speak of lists and the order of evaluation does not matter.
-/

namespace SequenceConstraint

inductive Run (α : Type) where
  | done (last : α)
  | yield (now : α) (rest : Unit → Run α)

namespace Run

variable {α β γ : Type}

/-! ## Values -/

def toList : Run α → List α
  | done _ => []
  | yield a rest => a :: (rest ()).toList

def last : Run α → α
  | done a => a
  | yield _ rest => (rest ()).last

@[simp] theorem toList_done (a : α) : (done a).toList = [] := rfl

@[simp] theorem toList_yield (a : α) (rest : Unit → Run α) :
    (yield a rest).toList = a :: (rest ()).toList := rfl

@[simp] theorem last_done (a : α) : (done a).last = a := rfl

@[simp] theorem last_yield (a : α) (rest : Unit → Run α) :
    (yield a rest).last = (rest ()).last := rfl

/-- Goes through all values; those met before are in `values`, latest first. -/
def collectFrom (values : List α) : Run α → List α × α
  | done a => (values.reverse, a)
  | yield a rest => collectFrom (a :: values) (rest ())

/-- All values, and the last one. -/
def collect (r : Run α) : List α × α := collectFrom [] r

theorem collectFrom_eq (values : List α) (r : Run α) :
    collectFrom values r = (values.reverse ++ r.toList, r.last) := by
  induction r generalizing values with
  | done a => simp [collectFrom]
  | yield a rest ih => simp [collectFrom, ih]

theorem collect_eq (r : Run α) : r.collect = (r.toList, r.last) := by
  simp [collect, collectFrom_eq]

/-! ## Building runs -/

/-- Yields the values of a list. -/
def ofList (last : α) : List α → Run α
  | [] => done last
  | a :: as => yield a fun _ => ofList last as

@[simp] theorem toList_ofList (last : α) (as : List α) : (ofList last as).toList = as := by
  induction as with
  | nil => rfl
  | cons a as ih => simp [ofList, ih]

@[simp] theorem last_ofList (last : α) (as : List α) : (ofList last as).last = last := by
  induction as with
  | nil => rfl
  | cons a as ih => simp [ofList, ih]

/-- Yields the values of a run, each changed by `f`, and goes on from its last value. -/
def andThen (f : α → β) (next : α → Run β) : Run α → Run β
  | done a => next a
  | yield a rest => yield (f a) fun _ => andThen f next (rest ())

@[simp] theorem toList_andThen (f : α → β) (next : α → Run β) (r : Run α) :
    (r.andThen f next).toList = r.toList.map f ++ (next r.last).toList := by
  induction r with
  | done a => rfl
  | yield a rest ih => simp [andThen, ih]

@[simp] theorem last_andThen (f : α → β) (next : α → Run β) (r : Run α) :
    (r.andThen f next).last = (next r.last).last := by
  induction r with
  | done a => rfl
  | yield a rest ih => simp [andThen, ih]

def map (f : α → β) (r : Run α) : Run β := r.andThen f fun a => done (f a)

@[simp] theorem toList_map (f : α → β) (r : Run α) : (r.map f).toList = r.toList.map f := by
  simp [map]

@[simp] theorem last_map (f : α → β) (r : Run α) : (r.map f).last = f r.last := by
  simp [map]

/-- Joins each value of a run with the values of another run that depends on it. The last value
joins the two last ones; `before` stands for the second while there is none. -/
def cross (join : α → β → γ) (right : α → Run β) (before : β) : Run α → Run γ
  | done a => done (join a before)
  | yield a rest => (right a).andThen (join a) fun b => cross join right b (rest ())

@[simp] theorem toList_cross (join : α → β → γ) (right : α → Run β) (before : β) (r : Run α) :
    (r.cross join right before).toList =
      r.toList.flatMap fun a => (right a).toList.map (join a) := by
  induction r generalizing before with
  | done a => rfl
  | yield a rest ih => simp [cross, ih]

/-- Yields the values whose key has not been seen, and goes on with all keys seen by then. -/
def unseenThen {κ : Type} [Ord κ] (key : α → κ) (f : α → β)
    (next : Std.TreeSet κ compare → α → Run β) (seen : Std.TreeSet κ compare) : Run α → Run β
  | done a => next seen a
  | yield a rest =>
    if seen.contains (key a) then unseenThen key f next seen (rest ())
    else yield (f a) fun _ => unseenThen key f next (seen.insert (key a)) (rest ())

/-- Yields `f i`, `f (i + 1)`, … `count` times and goes on. -/
def counting (f : Nat → α) (next : Unit → Run α) : (count i : Nat) → Run α
  | 0, _ => next ()
  | count + 1, i => yield (f i) fun _ => counting f next count (i + 1)

@[simp] theorem toList_counting (f : Nat → α) (next : Unit → Run α) (count i : Nat) :
    (counting f next count i).toList = (List.range' i count).map f ++ (next ()).toList := by
  induction count generalizing i with
  | zero => rfl
  | succ count ih => simp [counting, ih, List.range'_succ]

@[simp] theorem last_counting (f : Nat → α) (next : Unit → Run α) (count i : Nat) :
    (counting f next count i).last = (next ()).last := by
  induction count generalizing i with
  | zero => rfl
  | succ count ih => simp [counting, ih]

end Run

end SequenceConstraint
