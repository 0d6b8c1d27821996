import SequenceConstraint.Proofs.Counting.Numbers

/-!
# Sums of powers with numbers of fixed width

Counting does not need large numbers. A sum of powers can be told with numbers of 128 bits, from
bounds of 64 bits, and no operation overflows but where an overflow stands for infinity. Here this
is done step by step, each operation with a look at whether it overflows, and with the rounds of the
loop counted.

## Main statements

* `FixedCardinality.value_add`, `value_mul` — operations with numbers of fixed width are those on
  cardinalities
* `FixedCardinality.addPowers_spec` — the loop adds the powers that are to be added
* `FixedCardinality.rounds_le` — and is short, if the base is at least two
* `FixedCardinality.powerSum_exact` — the sum of powers is exact below the bound, and nothing
  overflows
-/

namespace SequenceConstraint

/-! ## Operations that tell an overflow -/

section Checked

variable {width : Nat} {a b n : BitVec width}

def checkedAdd (a b : BitVec width) : Option (BitVec width) :=
  if a.uaddOverflow b then none else some (a + b)

def checkedSub (a b : BitVec width) : Option (BitVec width) :=
  if a.usubOverflow b then none else some (a - b)

def checkedMul (a b : BitVec width) : Option (BitVec width) :=
  if a.umulOverflow b then none else some (a * b)

theorem checkedAdd_eq_some : checkedAdd a b = some n ↔ n.toNat = a.toNat + b.toNat := by
  have hn := n.isLt
  unfold checkedAdd
  split
  · next hover =>
    have hover : 2 ^ width ≤ a.toNat + b.toNat := by simpa [BitVec.uaddOverflow] using hover
    simp only [reduceCtorEq, false_iff]
    omega
  · next hfits => rw [Option.some_inj, ← BitVec.toNat_inj,
      BitVec.toNat_add_of_not_uaddOverflow hfits, eq_comm]

theorem checkedSub_eq_some : checkedSub a b = some n ↔ n.toNat + b.toNat = a.toNat := by
  unfold checkedSub
  split
  · next hover =>
    have hover : a.toNat < b.toNat := by simpa [BitVec.usubOverflow] using hover
    simp only [reduceCtorEq, false_iff]
    omega
  · next hfits =>
    have hle : b.toNat ≤ a.toNat := by simpa [BitVec.usubOverflow] using hfits
    rw [Option.some_inj, ← BitVec.toNat_inj, BitVec.toNat_sub_of_not_usubOverflow hfits]
    omega

theorem checkedMul_eq_some : checkedMul a b = some n ↔ n.toNat = a.toNat * b.toNat := by
  have hn := n.isLt
  unfold checkedMul
  split
  · next hover =>
    have hover : 2 ^ width ≤ a.toNat * b.toNat := by simpa [BitVec.umulOverflow] using hover
    simp only [reduceCtorEq, false_iff]
    omega
  · next hfits => rw [Option.some_inj, ← BitVec.toNat_inj,
      BitVec.toNat_mul_of_not_umulOverflow hfits, eq_comm]

theorem exists_checkedAdd (h : a.toNat + b.toNat < 2 ^ width) :
    ∃ n, checkedAdd a b = some n ∧ n.toNat = a.toNat + b.toNat := by
  have hvalue : (BitVec.ofNat width (a.toNat + b.toNat)).toNat = a.toNat + b.toNat :=
    Nat.mod_eq_of_lt h
  exact ⟨_, checkedAdd_eq_some.2 hvalue, hvalue⟩

theorem exists_checkedSub (h : b.toNat ≤ a.toNat) :
    ∃ n, checkedSub a b = some n ∧ n.toNat = a.toNat - b.toNat := by
  have ha := a.isLt
  have hvalue : (BitVec.ofNat width (a.toNat - b.toNat)).toNat = a.toNat - b.toNat :=
    Nat.mod_eq_of_lt (by omega)
  exact ⟨_, checkedSub_eq_some.2 (by omega), hvalue⟩

end Checked

/-! ## Cardinalities -/

/-- A cardinality with a number of 128 bits. -/
inductive FixedCardinality where
  | finite (n : BitVec 128)
  | infinite
deriving DecidableEq

namespace FixedCardinality

/-- The cardinality that is meant. -/
def value : FixedCardinality → Cardinality
  | .finite n => .finite n.toNat
  | .infinite => .infinite

/-- An overflow stands for infinity. -/
def ofChecked : Option (BitVec 128) → FixedCardinality
  | some n => .finite n
  | none => .infinite

def add : FixedCardinality → FixedCardinality → FixedCardinality
  | .finite a, .finite b => ofChecked (checkedAdd a b)
  | _, _ => .infinite

/-- Nothing times anything is nothing. -/
def mul (a b : FixedCardinality) : FixedCardinality :=
  if a = .finite 0 ∨ b = .finite 0 then .finite 0
  else
    match a, b with
    | .finite a, .finite b => ofChecked (checkedMul a b)
    | _, _ => .infinite

theorem value_ofChecked {checked : Option (BitVec 128)} {k : Nat}
    (h : ∀ n, checked = some n ↔ n.toNat = k) : (ofChecked checked).value = .ofNat k := by
  by_cases hk : k < Cardinality.bound
  · rw [(h (BitVec.ofNat 128 k)).2 (Nat.mod_eq_of_lt hk), Cardinality.ofNat_of_lt hk]
    exact congrArg _ (Nat.mod_eq_of_lt hk)
  · rw [Cardinality.ofNat_of_le (Nat.not_lt.1 hk)]
    cases hchecked : checked with
    | none => rfl
    | some n =>
      have hn : n.toNat < Cardinality.bound := n.isLt
      rw [(h n).1 hchecked] at hn
      exact absurd hn hk

theorem value_add (a b : FixedCardinality) : (a.add b).value = a.value.add b.value := by
  cases a with
  | infinite => rfl
  | finite a =>
    cases b with
    | infinite => rfl
    | finite b => exact value_ofChecked fun _ => checkedAdd_eq_some

theorem value_eq_zero {a : FixedCardinality} (h : a.value = .finite 0) : a = .finite 0 := by
  cases a with
  | finite n => exact congrArg _ (BitVec.toNat_inj.1 (Cardinality.finite.inj h))
  | infinite => cases h

theorem value_mul (a b : FixedCardinality) : (a.mul b).value = a.value.mul b.value := by
  unfold mul
  split
  · next hzero =>
    rcases hzero with rfl | rfl
    · exact (Cardinality.zero_mul b.value).symm
    · exact (Cardinality.mul_zero a.value).symm
  · next hne =>
    obtain ⟨ha, hb⟩ := not_or.1 hne
    have ha : a.value ≠ .finite 0 := fun h => ha (value_eq_zero h)
    have hb : b.value ≠ .finite 0 := fun h => hb (value_eq_zero h)
    cases a with
    | infinite => exact (Cardinality.infinite_mul hb).symm
    | finite a =>
      cases b with
      | infinite => exact (Cardinality.mul_infinite ha).symm
      | finite b =>
        rw [value, value, Cardinality.finite_mul_finite _ _ (fun h => ha (congrArg _ h))
          fun h => hb (congrArg _ h)]
        exact value_ofChecked fun _ => checkedMul_eq_some

/-! ## The loop -/

/-- Adds the powers of `c` to `total`, from the `k`th, which is `power`, up to the `max`th; those
below the `min`th are not added. Tells the rounds that it takes as well, and nothing if the number
of a round overflows. -/
def addPowers (c : BitVec 128) (min max k : BitVec 64) (power total : FixedCardinality) :
    Option (FixedCardinality × Nat) :=
  if power = .infinite then some (.infinite, 1)
  else
    let total := if min ≤ k then total.add power else total
    let power := power.mul (.finite c)
    if k < max then
      match _hnext : checkedAdd k 1 with
      | none => none
      | some next =>
        (addPowers c min max next power total).map fun (sum, rounds) => (sum, rounds + 1)
    else some (total, 1)
termination_by max.toNat - k.toNat
decreasing_by
  have hnext : next.toNat = k.toNat + 1 := checkedAdd_eq_some.1 _hnext
  have hlt : k.toNat < max.toNat := ‹k < max›
  omega

section Loop

variable {c p : BitVec 128} {min max k next : BitVec 64} {power total sum : FixedCardinality}
  {rounds : Nat}

theorem addPowers_infinite : addPowers c min max k .infinite total = some (.infinite, 1) := by
  rw [addPowers, if_pos rfl]

theorem addPowers_last (hk : ¬k < max) : addPowers c min max k (.finite p) total =
    some (if min ≤ k then total.add (.finite p) else total, 1) := by
  rw [addPowers, if_neg FixedCardinality.noConfusion]
  simp only [if_neg hk]

theorem addPowers_next (hk : k < max) (hnext : checkedAdd k 1 = some next) :
    addPowers c min max k (.finite p) total =
      (addPowers c min max next (mul (.finite p) (.finite c))
        (if min ≤ k then total.add (.finite p) else total)).map
          fun (sum, rounds) => (sum, rounds + 1) := by
  rw [addPowers, if_neg FixedCardinality.noConfusion]
  simp only [if_pos hk]
  split
  · next hnone => cases hnone.symm.trans hnext
  · next hsome =>
    cases hsome.symm.trans hnext
    rfl

/-- The number of a round that is not the last one can be counted up. -/
theorem exists_next (hk : k < max) :
    ∃ next, checkedAdd k 1 = some next ∧ next.toNat = k.toNat + 1 := by
  have hlt : k.toNat < max.toNat := hk
  exact exists_checkedAdd (Nat.lt_of_le_of_lt hlt max.isLt)

theorem value_ite : (if min ≤ k then total.add power else total).value =
    if min.toNat ≤ k.toNat then total.value.add power.value else total.value := by
  rw [apply_ite value, value_add]
  rfl

/-- **The loop adds the powers that are to be added,** and the number of a round never overflows. -/
theorem addPowers_spec {more : Nat} (hmore : max.toNat = k.toNat + more) :
    ∃ sum rounds, addPowers c min max k power total = some (sum, rounds) ∧
      sum.value = Cardinality.addPowers c.toNat min.toNat (more + 1) k.toNat power.value
        total.value := by
  induction more generalizing k power total with
  | zero =>
    cases power with
    | infinite => exact ⟨.infinite, 1, addPowers_infinite, rfl⟩
    | finite p =>
      have hk : ¬k < max := fun hlt => absurd hmore (Nat.ne_of_gt hlt)
      exact ⟨_, 1, addPowers_last hk, value_ite⟩
  | succ more ih =>
    cases power with
    | infinite => exact ⟨.infinite, 1, addPowers_infinite, rfl⟩
    | finite p =>
      have hk : k < max := BitVec.lt_def.2 (by omega)
      obtain ⟨next, hnext, hvalue⟩ := exists_next hk
      obtain ⟨sum, rounds, hsum, hspec⟩ := ih (show max.toNat = next.toNat + more by omega)
      refine ⟨sum, rounds + 1, (addPowers_next hk hnext).trans (congrArg _ hsum), ?_⟩
      rw [hspec, hvalue, value_mul, value_ite]
      rfl

/-- A power of two or more that is below the bound has an exponent below 128. -/
theorem lt_of_pow_lt {base exponent : Nat} (hbase : 2 ≤ base)
    (h : base ^ exponent < Cardinality.bound) : exponent < 128 :=
  (Nat.pow_lt_pow_iff_right Nat.one_lt_two).1
    (Nat.lt_of_le_of_lt (Nat.pow_le_pow_left hbase exponent) h)

/-- **The loop is short,** if the base is at least two. -/
theorem rounds_le (hc : 2 ≤ c.toNat) (hpower : power.value = .ofNat (c.toNat ^ k.toNat))
    {left : Nat} (hleft : k.toNat + left = 128)
    (h : addPowers c min max k power total = some (sum, rounds)) : rounds ≤ left + 1 := by
  induction left generalizing k power total sum rounds with
  | zero =>
    cases power with
    | infinite =>
      cases addPowers_infinite.symm.trans h
      exact Nat.le_refl 1
    | finite p =>
      have hexponent := lt_of_pow_lt hc (Cardinality.finite_eq_ofNat_iff.1 hpower).2
      omega
  | succ left ih =>
    cases power with
    | infinite =>
      cases addPowers_infinite.symm.trans h
      exact Nat.le_add_left 1 _
    | finite p =>
      by_cases hk : k < max
      · obtain ⟨next, hnext, hvalue⟩ := exists_next hk
        have hpower' : (mul (.finite p) (.finite c)).value = .ofNat (c.toNat ^ next.toNat) := by
          rw [value_mul, value, (Cardinality.finite_eq_ofNat_iff.1 hpower).1, hvalue]
          exact Cardinality.finite_pow_mul (by omega) k.toNat
        rw [addPowers_next hk hnext] at h
        obtain ⟨⟨sum', rounds'⟩, hrest, h⟩ := Option.map_eq_some_iff.1 h
        cases h
        exact Nat.succ_le_succ (ih hpower' (by omega) hrest)
      · cases (addPowers_last hk).symm.trans h
        exact Nat.le_add_left 1 _

/-- From a base of two on, a sum of powers is what the loop gives. -/
theorem addPowers_zero (hc : 2 ≤ c.toNat) (hle : min.toNat ≤ max.toNat) :
    ∃ sum rounds, addPowers c min max 0 (.finite 1) (.finite 0) = some (sum, rounds) ∧
      sum.value = Cardinality.powerSum c.toNat min.toNat max.toNat ∧ rounds ≤ 129 := by
  obtain ⟨sum, rounds, hsum, hspec⟩ : ∃ sum rounds,
      addPowers c min max 0 (.finite 1) (.finite 0) = some (sum, rounds) ∧
        sum.value = Cardinality.addPowers c.toNat min.toNat (max.toNat + 1) 0 (.finite 1)
          (.finite 0) := addPowers_spec (Nat.zero_add max.toNat).symm
  have hleft : (0 : BitVec 64).toNat + 128 = 128 := rfl
  refine ⟨sum, rounds, hsum, ?_, rounds_le hc rfl hleft hsum⟩
  rw [Cardinality.powerSum_of_two_le hc hle]
  exact hspec

end Loop

/-! ## Sums of powers -/

/-- `c ^ min + … + c ^ max`, and how many rounds the loop has taken. There is no result if an
operation overflows where that does not stand for infinity. -/
def powerSum (c : BitVec 128) (min max : BitVec 64) : Option (FixedCardinality × Nat) :=
  if max < min then some (.finite 0, 0)
  else if c = 0 then some (.finite (if min = 0 then 1 else 0), 0)
  else if c = 1 then do
    let span ← checkedSub max min
    let count ← checkedAdd (span.setWidth 128) 1
    return (.finite count, 0)
  else addPowers c min max 0 (.finite 1) (.finite 0)

section PowerSum

variable {min max : BitVec 64}

/-- Of the powers of zero only the one with exponent zero is counted. -/
theorem value_powers_zero : (finite (if min = 0 then 1 else 0)).value =
    .finite (if min.toNat = 0 then 1 else 0) := by
  by_cases hmin : min = 0
  · subst hmin
    rfl
  · have hmin' : min.toNat ≠ 0 := fun h => hmin (BitVec.toNat_inj.1 h)
    rw [if_neg hmin, if_neg hmin']
    rfl

/-- The powers of one are counted, and there are not too many. -/
theorem exists_count (h : min.toNat ≤ max.toNat) :
    ∃ span count, checkedSub max min = some span ∧
      checkedAdd (span.setWidth 128) 1 = some count ∧ count.toNat = max.toNat - min.toNat + 1 := by
  obtain ⟨span, hspan, hvalue⟩ := exists_checkedSub h
  have hwide : (span.setWidth 128).toNat = max.toNat - min.toNat := by
    rw [BitVec.toNat_setWidth, hvalue]
    exact Nat.mod_eq_of_lt (by omega)
  have hfits : (span.setWidth 128).toNat + (1 : BitVec 128).toNat < 2 ^ 128 := by
    rw [hwide]
    show max.toNat - min.toNat + 1 < 2 ^ 128
    omega
  obtain ⟨count, hcount, hsum⟩ := exists_checkedAdd hfits
  exact ⟨span, count, hspan, hcount, hsum.trans (congrArg (· + 1) hwide)⟩

end PowerSum

/-- **A sum of powers with numbers of fixed width** is the sum of powers, and the loop is short. -/
theorem powerSum_spec (c : BitVec 128) (min max : BitVec 64) :
    ∃ sum rounds, powerSum c min max = some (sum, rounds) ∧
      sum.value = Cardinality.powerSum c.toNat min.toNat max.toNat ∧
      (2 ≤ c.toNat → rounds ≤ 129) := by
  unfold powerSum
  by_cases hmax : max < min
  · exact ⟨.finite 0, 0, if_pos hmax, (Cardinality.powerSum_of_lt hmax).symm,
      fun _ => Nat.zero_le _⟩
  have hle : min.toNat ≤ max.toNat := Nat.not_lt.1 hmax
  rw [if_neg hmax]
  by_cases hzero : c = 0
  · subst hzero
    exact ⟨_, 0, if_pos rfl, value_powers_zero.trans (Cardinality.powerSum_zero hle).symm,
      fun _ => Nat.zero_le _⟩
  rw [if_neg hzero]
  by_cases hone : c = 1
  · subst hone
    obtain ⟨span, count, hspan, hcount, hvalue⟩ := exists_count hle
    have hexact : Cardinality.powerSum 1 min.toNat max.toNat = .finite count.toNat := by
      rw [Cardinality.powerSum_one hle, ← hvalue]
      exact Cardinality.ofNat_of_lt count.isLt
    refine ⟨.finite count, 0, ?_, hexact.symm, fun _ => Nat.zero_le _⟩
    rw [if_pos rfl, hspan]
    show (checkedAdd _ 1).bind _ = _
    rw [hcount]
    rfl
  rw [if_neg hone]
  have hc : 2 ≤ c.toNat := by
    have hne : c.toNat ≠ 0 := fun h => hzero (BitVec.toNat_inj.1 h)
    have hne' : c.toNat ≠ 1 := fun h => hone (BitVec.toNat_inj.1 h)
    omega
  obtain ⟨sum, rounds, hsum, hvalue, hrounds⟩ := addPowers_zero hc hle
  exact ⟨sum, rounds, hsum, hvalue, fun _ => hrounds⟩

/-- **Sums of powers are exact below the bound** and infinite from there on. No operation overflows
where that does not stand for infinity, and from a base of two on the loop never takes more than 129
rounds. -/
theorem powerSum_exact (c : BitVec 128) (min max : BitVec 64) :
    ∃ sum rounds, powerSum c min max = some (sum, rounds) ∧
      sum.value = Cardinality.powerSum c.toNat min.toNat max.toNat ∧
      sum.value = (if ∑ k ∈ Finset.Icc min.toNat max.toNat, c.toNat ^ k < 2 ^ 128 then
        .finite (∑ k ∈ Finset.Icc min.toNat max.toNat, c.toNat ^ k) else .infinite) ∧
      (2 ≤ c.toNat → rounds ≤ 129) := by
  obtain ⟨sum, rounds, hsum, hvalue, hrounds⟩ := powerSum_spec c min max
  exact ⟨sum, rounds, hsum, hvalue, hvalue.trans (Cardinality.powerSum_eq _ _ _), hrounds⟩

/-- The largest number of 128 bits is a sum of powers of two, and told as it is. -/
theorem powerSum_exact_two : ∃ sum rounds, powerSum 2 0 127 = some (sum, rounds) ∧
    sum.value = .finite (2 ^ 128 - 1) ∧ rounds ≤ 129 := by
  obtain ⟨sum, rounds, hsum, hvalue, -, hrounds⟩ := powerSum_exact 2 0 127
  exact ⟨sum, rounds, hsum, hvalue.trans (by decide +kernel), hrounds (by decide)⟩

end FixedCardinality

end SequenceConstraint
