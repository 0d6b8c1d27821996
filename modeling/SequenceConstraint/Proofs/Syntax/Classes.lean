import Mathlib.Data.List.Count
import SequenceConstraint.Syntax.CharClass

/-!
# The set of a class

The members of a class add to one set, and what is added need not be in the base alphabet: a
character or an interval adds all that it holds, and only a class among the members is cut down to
the base alphabet before. Whatever is outside is dropped at the end, or was never in the complement.
So the set can be told from the members one by one, each taken for itself (`ClassMember.Matches`).

## Main statements

* `CharClass.mem_resolve_iff` — which characters are in the set of a class
* `CharClass.resolve_negate` — the other mark gives the rest of the base alphabet
* `Charset.count_toList` — a set lists its members once
-/

namespace SequenceConstraint

/-- Whether a member of a class matches a character. A class among the members stands for a set of
its own. -/
def ClassMember.Matches (c : Char) : ClassMember → Prop
  | .char d => c = d
  | .interval lo hi => lo ≤ c ∧ c ≤ hi
  | .nested negated members => c ∈ CharClass.resolve ⟨negated, members⟩

variable {c : Char}

theorem ClassMember.holds_iff {m : ClassMember} : m.holds c = true ↔ m.Matches c := by
  cases m with
  | char d => rw [holds, Matches, beq_iff_eq]
  | interval lo hi => rw [holds, Matches, Bool.and_eq_true, decide_eq_true_eq, decide_eq_true_eq]
  | nested negated members =>
    rw [Matches, CharClass.mem_resolve]
    rfl

theorem anyHolds_iff {ms : List ClassMember} :
    anyHolds c ms = true ↔ ∃ m ∈ ms, m.Matches c := by
  induction ms with
  | nil => simp [anyHolds]
  | cons m ms ih => simp [anyHolds, ClassMember.holds_iff, ih]

namespace CharClass

variable (k : CharClass)

/-- **A character is in the set of a class** if it is in the base alphabet and just one of two things
holds: the class is negated, or some member matches the character. -/
theorem mem_resolve_iff :
    c ∈ k.resolve ↔
      (' ' ≤ c ∧ c ≤ '~') ∧ ¬(k.negated = true ↔ ∃ m ∈ k.members, m.Matches c) := by
  rw [mem_resolve, accepts, Charset.isBase, Bool.and_eq_true, Bool.and_eq_true, decide_eq_true_eq,
    decide_eq_true_eq, ← anyHolds_iff, bne_iff_ne, ne_eq, Bool.eq_iff_iff]
  rfl

/-- **Negation is the complement** in the base alphabet. -/
theorem resolve_negate : resolve ⟨!k.negated, k.members⟩ = Charset.base \ k.resolve := by
  refine Charset.ext fun c => ?_
  have hflip : ((!k.negated) != anyHolds c k.members) = !(k.negated != anyHolds c k.members) :=
    Bool.not_bne _ _
  rw [Charset.mem_diff, Charset.mem_base, mem_resolve, mem_resolve, accepts, accepts, hflip]
  cases Charset.isBase c <;> simp

end CharClass

/-- **Each member of a set is listed once.** -/
theorem Charset.count_toList (s : Charset) (c : Char) :
    s.toList.count c = if c ∈ s then 1 else 0 := by
  have hdistinct : s.toList.Nodup := by
    refine s.sorted.imp ?_
    rintro a _ hlt rfl
    exact Char.lt_irrefl a hlt
  exact hdistinct.count

/-- **The set of a class,** however deep classes are nested in it: which characters are in it, what
becomes of it if the class is negated or no longer so, and in which order it lists its members. -/
theorem CharClass.resolve_spec (k : CharClass) :
    (∀ c, k.resolve.contains c = true ↔
      (' ' ≤ c ∧ c ≤ '~') ∧ ¬(k.negated = true ↔ ∃ m ∈ k.members, m.Matches c)) ∧
      resolve ⟨!k.negated, k.members⟩ = Charset.base \ k.resolve ∧
      k.resolve.toList.Pairwise (fun a b => a.toNat < b.toNat) ∧
      ∀ c, k.resolve.toList.count c = if k.resolve.contains c then 1 else 0 := by
  refine ⟨fun c => ?_, k.resolve_negate, k.resolve.sorted, fun c => ?_⟩
  · rw [Charset.contains_iff, k.mem_resolve_iff]
  · simp only [k.resolve.count_toList, Charset.contains_iff]

/-- The complement within the class is the tilde alone, the interval from `Z` to `A` is empty, and a
line feed is outside of the base alphabet. -/
example : (CharClass.resolve ⟨false, [.nested true [.interval ' ' '}', .char 'é'], .interval 'Z' 'A',
    .char '\n', .char '7']⟩).toList = ['7', '~'] := by decide +kernel

end SequenceConstraint
