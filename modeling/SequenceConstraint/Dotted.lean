import Std.Data.TreeSet

/-!
# Sequences of symbols as text

A sequence of symbols is written with a dot between its symbols (`Open.Close`), or *flat*, without
the dots (`OpenClose`). A symbol begins with a capital, so the dots can be put back: one stands
before each capital but the first character.

Sequences are compared by their number of symbols first and by code points second; that order is
called *canonical*.

A pattern names symbols too: the runs between its operators.
-/

namespace SequenceConstraint

namespace Dotted

/-! ## The two spellings -/

def separator : Char := '.'

/-- The flat spelling: the dots are left out. -/
def flatten (s : List Char) : List Char := s.filter (· != separator)

/-- A character with a dot before it, if it is one of the capitals `A` to `Z`. -/
def separated (c : Char) : List Char := if c.isUpper then [separator, c] else [c]

/-- The dotted spelling: a dot goes before each capital after the first character. -/
def ofFlat : List Char → List Char
  | [] => []
  | c :: rest => c :: rest.flatMap separated

/-! ## Number of symbols -/

/-- The empty text has no symbols; any other has one more than it has dots. -/
def symbolCount (s : List Char) : Nat := if s.isEmpty then 0 else s.count separator + 1

@[simp] theorem symbolCount_nil : symbolCount [] = 0 := rfl

theorem symbolCount_cons (c : Char) (s : List Char) :
    symbolCount (c :: s) = (c :: s).count separator + 1 := rfl

/-! ## Canonical order -/

/-- The canonical order: fewer symbols first, then by code points. -/
def order : List Char → List Char → Ordering :=
  compareLex (compareOn symbolCount) compare

instance : Std.TransCmp order := inferInstanceAs (Std.TransCmp (compareLex _ _))

theorem order_eq_eq {s t : List Char} : order s t = .eq ↔ s = t := by
  rw [order, compareLex_eq_eq]
  constructor
  · rintro ⟨-, h⟩
    exact Std.LawfulEqCmp.eq_of_compare h
  · rintro rfl
    exact ⟨Std.ReflCmp.compare_self, Std.ReflCmp.compare_self⟩

instance : Std.LawfulEqCmp order where
  compare_self := order_eq_eq.2 rfl
  eq_of_compare := order_eq_eq.1

/-- Texts in canonical order. -/
def sort (texts : List (List Char)) : List (List Char) :=
  texts.mergeSort fun s t => (order s t).isLE

/-- The different texts of a list in canonical order, each once. -/
def ascending (texts : List (List Char)) : List (List Char) :=
  (Std.TreeSet.ofList texts order).toList

/-- **Nothing is lost and nothing is added.** -/
@[simp] theorem mem_ascending {texts : List (List Char)} {s : List Char} :
    s ∈ ascending texts ↔ s ∈ texts := by
  rw [ascending, Std.TreeSet.mem_toList, Std.TreeSet.mem_ofList, List.contains_iff_mem]

/-- **Each text comes before the next.** -/
theorem pairwise_ascending (texts : List (List Char)) :
    (ascending texts).Pairwise (fun s t => order s t = .lt) :=
  Std.TreeSet.ordered_toList

/-! ## Symbols of a pattern -/

/-- The characters that end a symbol in a pattern. -/
def operators : List Char := ['.', '|', '+', '*', '(', ')']

/-- The symbols that a pattern names, each once, in canonical order. -/
def symbols (pattern : List Char) : List (List Char) :=
  ascending ((pattern.splitOnP operators.contains).filter (!·.isEmpty))

end Dotted

end SequenceConstraint
