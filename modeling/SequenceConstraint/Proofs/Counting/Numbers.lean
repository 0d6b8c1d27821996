import Mathlib.Algebra.BigOperators.Intervals
import Mathlib.Algebra.GroupWithZero.Basic
import Mathlib.Algebra.Order.BigOperators.Group.Finset
import Mathlib.Order.Interval.Finset.Nat
import SequenceConstraint.Cardinality
import SequenceConstraint.Generation.Enumerate

/-!
# Numbers that saturate

Cardinalities are added and multiplied like numbers, but stay infinite from `Cardinality.bound` on.
So a sum of powers is the exact one or infinite, wherever the summation is broken off.

A cardinality is told from a tree without the cap, and what it says about the caps is this: a finite
one is the number for every cap, and with an infinite one the number is at least the bound from some
cap on (`Cardinality.Tells`).

## Main statements

* `Cardinality.powerSum_eq` — the sum of powers is exact below the bound
* `Cardinality.Tells.add`, `mul`, `repeated` — sums, products and repetitions of what is told
-/

namespace SequenceConstraint

namespace Cardinality

/-! ## Exact below the bound -/

theorem bound_pos : 0 < bound := Nat.pow_pos (by decide)

theorem ofNat_of_lt {n : Nat} (h : n < bound) : ofNat n = .finite n := if_pos h

theorem ofNat_of_le {n : Nat} (h : bound ≤ n) : ofNat n = .infinite := if_neg (Nat.not_lt.2 h)

theorem finite_eq_ofNat_iff {a n : Nat} : finite a = ofNat n ↔ a = n ∧ n < bound := by
  unfold ofNat
  split
  · next h => simp [h]
  · next h => simp [h]

theorem add_ofNat (a b : Nat) : (ofNat a).add (ofNat b) = ofNat (a + b) := by
  by_cases ha : a < bound
  · by_cases hb : b < bound
    · rw [ofNat_of_lt ha, ofNat_of_lt hb]
      rfl
    · rw [ofNat_of_lt ha, ofNat_of_le (by omega), ofNat_of_le (by omega)]
      rfl
  · rw [ofNat_of_le (by omega), ofNat_of_le (n := a + b) (by omega)]
    rfl

theorem zero_mul (c : Cardinality) : (finite 0).mul c = .finite 0 := by
  cases c <;> rfl

theorem mul_zero (c : Cardinality) : c.mul (.finite 0) = .finite 0 := by
  rcases c with (_ | n) | _ <;> rfl

theorem finite_mul_finite (a b : Nat) (ha : a ≠ 0) (hb : b ≠ 0) :
    (finite a).mul (.finite b) = ofNat (a * b) := by
  obtain ⟨a, rfl⟩ := Nat.exists_eq_succ_of_ne_zero ha
  obtain ⟨b, rfl⟩ := Nat.exists_eq_succ_of_ne_zero hb
  rfl

theorem mul_infinite {c : Cardinality} (hc : c ≠ .finite 0) : c.mul .infinite = .infinite := by
  rcases c with (_ | n) | _
  · exact absurd rfl hc
  · rfl
  · rfl

theorem infinite_mul {c : Cardinality} (hc : c ≠ .finite 0) : infinite.mul c = .infinite := by
  rcases c with (_ | n) | _
  · exact absurd rfl hc
  · rfl
  · rfl

/-! ## Sums of powers -/

theorem finite_pow_mul {c : Nat} (hc : 0 < c) (k : Nat) :
    (finite (c ^ k)).mul (.finite c) = ofNat (c ^ (k + 1)) := by
  rw [finite_mul_finite _ _ (Nat.pow_pos hc).ne' hc.ne', Nat.pow_succ]

/-- Of the powers of zero only the one with exponent zero is not zero. -/
theorem sum_zero_pow (min max : Nat) :
    ∑ k ∈ Finset.Icc min max, 0 ^ k = if min = 0 then 1 else 0 := by
  simp only [zero_pow_eq, Finset.sum_ite_eq', Finset.mem_Icc]
  exact if_congr (by omega) rfl rfl

/-- **The powers that are still to be added** may be broken off at the first one that is too large:
there is a last one, which is not smaller. -/
theorem addPowers_eq {c : Nat} (hc : 0 < c) (min : Nat) (more k total : Nat)
    (hmin : min < k + more) :
    addPowers c min more k (ofNat (c ^ k)) (ofNat total) =
      ofNat (total + ∑ j ∈ Finset.Ico k (k + more), if min ≤ j then c ^ j else 0) := by
  induction more generalizing k total with
  | zero => simp [addPowers]
  | succ more ih =>
    have hhead := Finset.sum_eq_sum_Ico_succ_bot (show k < k + (more + 1) by omega)
      fun j => if min ≤ j then c ^ j else 0
    by_cases hpower : c ^ k < bound
    · have htotal : (if min ≤ k then (ofNat total).add (.finite (c ^ k)) else ofNat total) =
          ofNat (total + if min ≤ k then c ^ k else 0) := by
        split
        · rw [← ofNat_of_lt hpower, add_ofNat]
        · rfl
      rw [ofNat_of_lt hpower, addPowers, finite_pow_mul hc, htotal, ih _ _ (by omega), hhead,
        show k + 1 + more = k + (more + 1) by omega, Nat.add_assoc]
    · rw [ofNat_of_le (Nat.not_lt.1 hpower), addPowers, ofNat_of_le]
      have hlast : k + more ∈ Finset.Ico k (k + (more + 1)) := Finset.mem_Ico.2 ⟨by omega, by omega⟩
      have hle := Finset.single_le_sum (f := fun j => if min ≤ j then c ^ j else 0)
        (fun _ _ => Nat.zero_le _) hlast
      have hgrows : c ^ k ≤ c ^ (k + more) := Nat.pow_le_pow_right hc (by omega)
      rw [if_pos (show min ≤ k + more by omega)] at hle
      omega

theorem powerSum_of_lt {c min max : Nat} (h : max < min) : powerSum c min max = .finite 0 :=
  if_pos h

theorem powerSum_zero {min max : Nat} (h : min ≤ max) :
    powerSum 0 min max = .finite (if min = 0 then 1 else 0) :=
  if_neg (Nat.not_lt.2 h)

theorem powerSum_one {min max : Nat} (h : min ≤ max) :
    powerSum 1 min max = ofNat (max - min + 1) :=
  if_neg (Nat.not_lt.2 h)

theorem powerSum_of_two_le {c min max : Nat} (hc : 2 ≤ c) (h : min ≤ max) :
    powerSum c min max = addPowers c min (max + 1) 0 (.finite 1) (.finite 0) := by
  obtain ⟨c, rfl⟩ := Nat.exists_eq_add_of_le' hc
  exact if_neg (Nat.not_lt.2 h)

/-- **The sum of powers is exact** below the bound. -/
theorem powerSum_eq (c min max : Nat) :
    powerSum c min max = ofNat (∑ k ∈ Finset.Icc min max, c ^ k) := by
  by_cases hmax : max < min
  · rw [powerSum_of_lt hmax, Finset.Icc_eq_empty (by omega), Finset.sum_empty,
      ofNat_of_lt bound_pos]
  · have hle : min ≤ max := Nat.not_lt.1 hmax
    rcases c with _ | _ | c
    · have hlt : (if min = 0 then 1 else 0) < bound := by
        split
        · decide
        · exact bound_pos
      rw [powerSum_zero hle, sum_zero_pow, ofNat_of_lt hlt]
    · simp only [Nat.zero_add, one_pow, ← Finset.card_eq_sum_ones, Nat.card_Icc]
      rw [powerSum_one hle, show max - min + 1 = max + 1 - min by omega]
    · have hsum : ∑ k ∈ Finset.Icc min max, (c + 2) ^ k =
          ∑ k ∈ Finset.Ico 0 (0 + (max + 1)), if min ≤ k then (c + 2) ^ k else 0 := by
        rw [← Finset.sum_filter]
        refine Finset.sum_congr (Finset.ext fun k => ?_) fun _ _ => rfl
        simp only [Finset.mem_Icc, Finset.mem_filter, Finset.mem_Ico]
        omega
      rw [powerSum_of_two_le (by omega) hle, hsum, ← Nat.zero_add (∑ k ∈ Finset.Ico _ _, _),
        ← addPowers_eq (by omega) min _ 0 0 (by omega)]
      rfl

/-! ## Numbers that hang on the cap -/

/-- Whether a cardinality is right about a number that hangs on the cap: a finite one is that
number, and with an infinite one the number is large from some cap on. The latter is only asked for
if `spread` holds. -/
def Tells (spread : Prop) : Cardinality → (Nat → Nat) → Prop
  | .finite k, choices => ∀ cap, choices cap = k
  | .infinite, choices => spread → ∃ start, ∀ cap, start ≤ cap → bound ≤ choices cap

section Tells

variable {spread : Prop} {a b : Cardinality} {f g : Nat → Nat}

theorem tells_ofNat (n : Nat) : (ofNat n).Tells spread fun _ => n := by
  by_cases h : n < bound
  · rw [ofNat_of_lt h]
    exact fun _ => rfl
  · rw [ofNat_of_le (Nat.not_lt.1 h)]
    exact fun _ => ⟨0, fun _ _ => Nat.not_lt.1 h⟩

/-- What is told is positive from some cap on, unless it is nothing. -/
theorem Tells.pos (h : a.Tells spread f) (hspread : spread) (ha : a ≠ .finite 0) :
    ∃ start, ∀ cap, start ≤ cap → 0 < f cap := by
  cases a with
  | finite k =>
    refine ⟨0, fun cap _ => ?_⟩
    rw [h cap]
    exact Nat.pos_of_ne_zero fun hk => ha (congrArg _ hk)
  | infinite =>
    obtain ⟨start, hstart⟩ := h hspread
    exact ⟨start, fun cap hcap => Nat.lt_of_lt_of_le bound_pos (hstart cap hcap)⟩

/-- What is infinite stays so when something is added, or when it is multiplied by something. -/
theorem tells_infinite_of_le (h : Tells spread .infinite f)
    (hle : spread → ∃ start, ∀ cap, start ≤ cap → f cap ≤ g cap) : Tells spread .infinite g := by
  intro hspread
  obtain ⟨start, hstart⟩ := h hspread
  obtain ⟨start', hle⟩ := hle hspread
  refine ⟨Nat.max start start', fun cap hcap => ?_⟩
  exact (hstart cap (Nat.le_trans (Nat.le_max_left _ _) hcap)).trans
    (hle cap (Nat.le_trans (Nat.le_max_right _ _) hcap))

theorem Tells.add (ha : a.Tells spread f) (hb : b.Tells spread g) :
    (a.add b).Tells spread fun cap => f cap + g cap := by
  cases a with
  | infinite => exact tells_infinite_of_le ha fun _ => ⟨0, fun cap _ => Nat.le_add_right _ _⟩
  | finite k =>
    cases b with
    | infinite => exact tells_infinite_of_le hb fun _ => ⟨0, fun cap _ => Nat.le_add_left _ _⟩
    | finite l =>
      have hsum : (fun cap => f cap + g cap) = fun _ => k + l :=
        funext fun cap => congrArg₂ (· + ·) (ha cap) (hb cap)
      rw [hsum]
      exact tells_ofNat (k + l)

theorem Tells.mul (ha : a.Tells spread f) (hb : b.Tells spread g) :
    (a.mul b).Tells spread fun cap => f cap * g cap := by
  by_cases ha₀ : a = .finite 0
  · subst ha₀
    rw [zero_mul]
    intro cap
    show f cap * g cap = 0
    rw [ha cap, Nat.zero_mul]
  by_cases hb₀ : b = .finite 0
  · subst hb₀
    rw [mul_zero]
    intro cap
    show f cap * g cap = 0
    rw [hb cap, Nat.mul_zero]
  -- a product of two numbers is at least either of them, the other not being zero
  have hleft : spread → ∃ start, ∀ cap, start ≤ cap → f cap ≤ f cap * g cap := by
    intro hspread
    obtain ⟨start, hpos⟩ := hb.pos hspread hb₀
    exact ⟨start, fun cap hcap => Nat.le_mul_of_pos_right _ (hpos cap hcap)⟩
  have hright : spread → ∃ start, ∀ cap, start ≤ cap → g cap ≤ f cap * g cap := by
    intro hspread
    obtain ⟨start, hpos⟩ := ha.pos hspread ha₀
    exact ⟨start, fun cap hcap => Nat.le_mul_of_pos_left _ (hpos cap hcap)⟩
  rcases a with k | _
  · rcases b with l | _
    · have hproduct : (fun cap => f cap * g cap) = fun _ => k * l :=
        funext fun cap => congrArg₂ (· * ·) (ha cap) (hb cap)
      rw [hproduct, finite_mul_finite k l (fun h => ha₀ (congrArg _ h)) fun h => hb₀ (congrArg _ h)]
      exact tells_ofNat (k * l)
    · rw [mul_infinite ha₀]
      exact tells_infinite_of_le hb hright
  · rw [infinite_mul hb₀]
    exact tells_infinite_of_le ha hleft

/-- The last of the powers is one of them. -/
theorem pow_le_sum_pow {c min max : Nat} (h : min ≤ max) :
    c ^ max ≤ ∑ k ∈ Finset.Icc min max, c ^ k :=
  Finset.single_le_sum (f := fun k => c ^ k) (fun _ _ => Nat.zero_le _)
    (Finset.mem_Icc.2 ⟨h, Nat.le_refl _⟩)

/-- **A repetition of what is told,** if what is infinite can be repeated at all. -/
theorem Tells.repeated (h : a.Tells spread f) (min : Nat) (max : Option Nat)
    (hrepeats : spread → a = .infinite → ∀ m, max = some m → 0 < m ∧ min ≤ m) :
    (a.repeated min max).Tells spread fun cap =>
      ∑ k ∈ Finset.Icc min (Plan.limit cap min max), f cap ^ k := by
  rcases a with (_ | c) | _
  · intro cap
    show ∑ k ∈ Finset.Icc min (Plan.limit cap min max), f cap ^ k = _
    rw [h cap, sum_zero_pow]
  · have hpos : ∀ cap, 0 < f cap := fun cap => by
      rw [h cap]
      exact Nat.succ_pos c
    cases max with
    | some m =>
      have hsum : (fun cap => ∑ k ∈ Finset.Icc min (Plan.limit cap min (some m)), f cap ^ k) =
          fun _ => ∑ k ∈ Finset.Icc min m, (c + 1) ^ k :=
        funext fun cap => by rw [h cap, Plan.limit, Option.getD_some]
      have hrepeated : (finite (c + 1)).repeated min (some m) = powerSum (c + 1) min m := rfl
      rw [hsum, hrepeated, powerSum_eq]
      exact tells_ofNat _
    | none =>
      -- each number of repeats brings at least one word
      refine fun _ => ⟨bound, fun cap hcap => ?_⟩
      have hwords : (Finset.Icc min (min + cap)).card ≤
          ∑ k ∈ Finset.Icc min (min + cap), f cap ^ k := by
        rw [Finset.card_eq_sum_ones]
        exact Finset.sum_le_sum fun k _ => Nat.pow_pos (hpos cap)
      rw [Nat.card_Icc] at hwords
      show bound ≤ ∑ k ∈ Finset.Icc min (min + cap), f cap ^ k
      omega
  · have hlarge : spread → ∃ start, ∀ cap, start ≤ cap →
        f cap ≤ ∑ k ∈ Finset.Icc min (Plan.limit cap min max), f cap ^ k := by
      intro hspread
      refine ⟨1, fun cap hcap => ?_⟩
      have hlimit : 0 < Plan.limit cap min max ∧ min ≤ Plan.limit cap min max := by
        cases max with
        | none =>
          show 0 < min + cap ∧ min ≤ min + cap
          omega
        | some m => exact hrepeats hspread rfl m rfl
      calc f cap ≤ f cap ^ Plan.limit cap min max := Nat.le_self_pow hlimit.1.ne' _
        _ ≤ _ := pow_le_sum_pow hlimit.2
    exact tells_infinite_of_le h hlarge

end Tells

end Cardinality

end SequenceConstraint
