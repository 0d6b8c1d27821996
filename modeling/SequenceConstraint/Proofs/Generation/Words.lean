import Mathlib.Data.List.Basic
import SequenceConstraint.Generation.Enumerate

/-!
# The words of a repetition

The words of `count` repeats over `b` texts are numbered from `0` to `b ^ count - 1`, and the digits
of the number to the base `b` name the texts. Taken in order, the numbers give all lists of `count`
texts, the last text changing fastest.

## Main statements

* `map_digits_range` — the digits of the numbers below `b ^ count` are all lists of `count` digits
* `Repeats.toList_run` — the states of a repetition are its words, for each number of repeats
-/

namespace SequenceConstraint

/-! ## Words -/

section Words

variable {α β : Type}

/-- All words of some length. The last letter changes fastest. -/
def wordsOf (letters : List α) : Nat → List (List α)
  | 0 => [[]]
  | k + 1 => (wordsOf letters k).flatMap fun w => letters.map fun a => w ++ [a]

theorem mem_wordsOf {letters w : List α} {k : Nat} :
    w ∈ wordsOf letters k ↔ w.length = k ∧ ∀ a ∈ w, a ∈ letters := by
  induction k generalizing w with
  | zero =>
    rw [wordsOf, List.mem_singleton, List.length_eq_zero_iff]
    constructor
    · rintro rfl
      exact ⟨rfl, fun _ => List.not_mem_nil.elim⟩
    · exact And.left
  | succ k ih =>
    simp only [wordsOf, List.mem_flatMap, List.mem_map, ih]
    constructor
    · rintro ⟨w, ⟨rfl, hw⟩, a, ha, rfl⟩
      refine ⟨List.length_append, fun b hb => ?_⟩
      rcases List.mem_append.1 hb with hb | hb
      · exact hw b hb
      · rwa [List.mem_singleton.1 hb]
    · rintro ⟨hlength, hw⟩
      rcases List.eq_nil_or_concat' w with rfl | ⟨front, a, rfl⟩
      · cases hlength
      · rw [List.length_append, List.length_singleton, Nat.succ.injEq] at hlength
        exact ⟨front, ⟨hlength, fun b hb => hw b (List.mem_append_left _ hb)⟩, a,
          hw a (by simp), rfl⟩

theorem wordsOf_map (f : α → β) (letters : List α) (k : Nat) :
    wordsOf (letters.map f) k = (wordsOf letters k).map (List.map f) := by
  induction k with
  | zero => rfl
  | succ k ih =>
    rw [wordsOf, wordsOf, ih, List.map_flatMap, List.flatMap_map]
    refine List.flatMap_congr fun w _ => ?_
    rw [List.map_map, List.map_map]
    exact List.map_congr_left fun a _ => by simp

theorem range_mul (m n : Nat) :
    List.range (m * n) = (List.range m).flatMap fun q => (List.range n).map fun r => q * n + r := by
  induction m with
  | zero => simp
  | succ m ih =>
    rw [Nat.succ_mul, List.range_add, ih, List.range_succ, List.flatMap_append,
      List.flatMap_singleton]

end Words

namespace Plan

/-! ## Digits -/

theorem digits_eq_append (b count i : Nat) (right : List Nat) :
    digits b count i right = digits b count i [] ++ right := by
  induction count generalizing i right with
  | zero => rfl
  | succ count ih =>
    rw [digits, digits, ih (i / b) (i % b :: right), ih (i / b) [i % b], List.append_assoc]
    rfl

theorem digits_succ (b count i : Nat) :
    digits b (count + 1) i [] = digits b count (i / b) [] ++ [i % b] := by
  rw [digits, digits_eq_append]

/-- **The digits of the numbers below `b ^ count` are the words over the digits,** in order. -/
theorem map_digits_range (b count : Nat) :
    (List.range (b.pow count)).map (fun i => digits b count i []) =
      wordsOf (List.range b) count := by
  induction count with
  | zero => rfl
  | succ count ih =>
    have hpow : b.pow (count + 1) = b.pow count * b := rfl
    rw [wordsOf, ← ih, List.flatMap_map, hpow, range_mul, List.map_flatMap]
    refine List.flatMap_congr fun q _ => ?_
    rw [List.map_map]
    refine List.map_congr_left fun r hr => ?_
    have hr := List.mem_range.1 hr
    have hdiv : (q * b + r) / b = q := by
      rw [Nat.mul_comm, Nat.mul_add_div (by omega), Nat.div_eq_of_lt hr, Nat.add_zero]
    have hmod : (q * b + r) % b = r := by
      rw [Nat.mul_comm, Nat.mul_add_mod, Nat.mod_eq_of_lt hr]
    show digits b (count + 1) (q * b + r) [] = _
    rw [digits_succ, hdiv, hmod]

namespace Repeats

variable (r : Repeats)

/-- Without texts there are no words with repeats. -/
theorem map_word_of_isEmpty {k : Nat} (hempty : r.texts.isEmpty = true) (hk : 0 < k) :
    (List.range (r.texts.size.pow k)).map (r.word k) = [] := by
  have hsize : r.texts.size = 0 := by simpa [Array.isEmpty_iff] using hempty
  have hpow : r.texts.size.pow k = 0 := by
    rw [hsize]
    exact Nat.zero_pow hk
  rw [hpow]
  rfl

theorem toList_words (limit more count : Nat) :
    (r.words limit more count).toList =
      (List.range' count (more + 1)).flatMap fun k =>
        (List.range (r.texts.size.pow k)).map (r.word k) := by
  induction more generalizing count with
  | zero => simp [words, List.range_eq_range']
  | succ more ih =>
    rw [words, Run.toList_counting, List.range'_succ, List.flatMap_cons, ← List.range_eq_range']
    congr 1
    split
    · rename_i hempty
      symm
      rw [Run.toList_done, List.flatMap_eq_nil_iff]
      intro k hk
      obtain ⟨hk, -⟩ := List.mem_range'_1.1 hk
      exact r.map_word_of_isEmpty hempty (by omega)
    · exact ih (count + 1)

/-- **The states of a repetition are its words,** those with fewer repeats first. -/
theorem toList_run (min limit : Nat) :
    (r.run min limit).toList =
      (List.range' min (limit + 1 - min)).flatMap fun k =>
        (List.range (r.texts.size.pow k)).map (r.word k) := by
  unfold run
  split
  · rename_i h
    symm
    rw [Run.toList_done, List.flatMap_eq_nil_iff]
    intro k hk
    obtain ⟨hmin, hlimit⟩ := List.mem_range'_1.1 hk
    rcases h with h | ⟨hempty, hpos⟩
    · omega
    · exact r.map_word_of_isEmpty hempty (by omega)
  · rename_i h
    have hcount : limit + 1 - min = limit - min + 1 := by omega
    rw [toList_words, hcount]

end Repeats

end Plan

end SequenceConstraint
