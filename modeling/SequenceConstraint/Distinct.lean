import Std.Data.TreeSet

/-!
# First occurrences

`distinct l` keeps the first occurrence of each value of `l`. The values met so far are kept in a
search tree, so long lists with few repeats are no burden.

## Main statements

* `mem_distinct` — nothing is lost and nothing is added
* `nodup_distinct` — nothing occurs twice
* `distinct_sublist` — the order is that of `l`
-/

namespace SequenceConstraint

open Std

variable {α : Type} [Ord α]

/-- Goes through a list with the set of the values `seen` and the values `kept`, latest first. -/
def distinctFrom (seen : TreeSet α compare) (kept : List α) : List α → List α
  | [] => kept.reverse
  | a :: rest =>
    if seen.contains a then distinctFrom seen kept rest
    else distinctFrom (seen.insert a) (a :: kept) rest

/-- The first occurrences of the values of a list, in their order. -/
def distinct (l : List α) : List α := distinctFrom ∅ [] l

/-! ## Laws -/

section Laws

variable [TransOrd α] [LawfulEqOrd α]

theorem contains_insert_iff {seen : TreeSet α compare} {a b : α} :
    (seen.insert a).contains b = true ↔ a = b ∨ seen.contains b = true := by
  rw [TreeSet.contains_insert, Bool.or_eq_true, beq_iff_eq, LawfulEqCmp.compare_eq_iff_eq]

theorem mem_distinctFrom {seen : TreeSet α compare} {kept l : List α} {a : α}
    (h : ∀ b, seen.contains b = true ↔ b ∈ kept) :
    a ∈ distinctFrom seen kept l ↔ a ∈ kept ∨ a ∈ l := by
  induction l generalizing seen kept with
  | nil => simp [distinctFrom]
  | cons b l ih =>
    rw [distinctFrom]
    split
    · rename_i hb
      have := (h b).1 hb
      rw [ih h, List.mem_cons]
      grind
    · rw [ih fun c => by rw [contains_insert_iff, h, List.mem_cons]; grind]
      simp only [List.mem_cons]
      grind

theorem nodup_distinctFrom {seen : TreeSet α compare} {kept l : List α}
    (h : ∀ b, seen.contains b = true ↔ b ∈ kept) (hk : kept.Nodup) :
    (distinctFrom seen kept l).Nodup := by
  induction l generalizing seen kept with
  | nil => simpa [distinctFrom, List.nodup_iff_pairwise_ne, List.pairwise_reverse, ne_comm] using hk
  | cons b l ih =>
    rw [distinctFrom]
    split
    · exact ih h hk
    · rename_i hb
      refine ih (fun c => by rw [contains_insert_iff, h, List.mem_cons]; grind) ?_
      exact List.nodup_cons.2 ⟨fun hmem => hb ((h b).2 hmem), hk⟩

omit [TransOrd α] [LawfulEqOrd α] in
theorem distinctFrom_sublist (seen : TreeSet α compare) (kept l : List α) :
    (distinctFrom seen kept l).Sublist (kept.reverse ++ l) := by
  induction l generalizing seen kept with
  | nil => simp [distinctFrom]
  | cons b l ih =>
    rw [distinctFrom]
    split
    · exact (ih _ _).trans (List.Sublist.append_left (List.sublist_cons_self b l) _)
    · simpa using ih (seen.insert b) (b :: kept)

omit [TransOrd α] [LawfulEqOrd α] in
theorem contains_empty_iff (b : α) :
    (∅ : TreeSet α compare).contains b = true ↔ b ∈ ([] : List α) := by
  simp

/-- **Nothing is lost and nothing is added.** -/
@[simp] theorem mem_distinct {l : List α} {a : α} : a ∈ distinct l ↔ a ∈ l := by
  rw [distinct, mem_distinctFrom contains_empty_iff]
  simp

/-- **Nothing occurs twice.** -/
theorem nodup_distinct (l : List α) : (distinct l).Nodup :=
  nodup_distinctFrom contains_empty_iff List.nodup_nil

omit [TransOrd α] [LawfulEqOrd α] in
/-- **The order is kept.** -/
theorem distinct_sublist (l : List α) : (distinct l).Sublist l := by
  exact distinctFrom_sublist ∅ [] l

end Laws

end SequenceConstraint
