/-!
# Sets of characters

A set of characters is the strictly increasing list of its members, so two sets with the same
members are equal. The *base alphabet* is the printable part of ASCII, from the blank to the
tilde: only its characters take part in generated texts and in character classes.

## Main statements

* `Charset.ext` — a set is determined by its members
* `Charset.mem_insertInterval`, `mem_insert`, `mem_union`, `mem_inter`, `mem_diff`, `mem_base` — one
  for each operation
-/

namespace SequenceConstraint

/-- A finite set of characters, kept as its members in ascending order. -/
structure Charset where
  toList : List Char
  sorted : toList.Pairwise (· < ·)
deriving DecidableEq

namespace Charset

/-! ## Membership -/

def contains (s : Charset) (c : Char) : Bool := s.toList.contains c

instance : Membership Char Charset := ⟨fun s c => c ∈ s.toList⟩

theorem mem_def {s : Charset} {c : Char} : c ∈ s ↔ c ∈ s.toList := Iff.rfl

@[simp] theorem contains_iff {s : Charset} {c : Char} : s.contains c = true ↔ c ∈ s := by
  simp [contains, mem_def]

instance (c : Char) (s : Charset) : Decidable (c ∈ s) :=
  decidable_of_iff (s.contains c = true) contains_iff

/-- **A set is determined by its members.** -/
theorem ext {s t : Charset} (h : ∀ c, c ∈ s ↔ c ∈ t) : s = t := by
  have key : ∀ (l m : List Char), l.Pairwise (· < ·) → m.Pairwise (· < ·) →
      (∀ c, c ∈ l ↔ c ∈ m) → l = m := by
    intro l m hl hm h
    induction l generalizing m with
    | nil =>
      cases m with
      | nil => rfl
      | cons b m => simpa using h b
    | cons a l ih =>
      cases m with
      | nil => simpa using h a
      | cons b m =>
        rw [List.pairwise_cons] at hl hm
        have hab : a = b := by
          rcases List.mem_cons.1 ((h a).1 List.mem_cons_self) with hab | ha
          · exact hab
          · rcases List.mem_cons.1 ((h b).2 List.mem_cons_self) with hba | hb
            · exact hba.symm
            · exact absurd (Char.lt_trans (hl.1 b hb) (hm.1 a ha)) (Char.lt_irrefl _)
        subst hab
        congr 1
        refine ih m hl.2 hm.2 fun c => ?_
        have hc := h c
        simp only [List.mem_cons] at hc
        constructor
        · intro hcl
          rcases hc.1 (.inr hcl) with rfl | hcm
          · exact absurd (hl.1 _ hcl) (Char.lt_irrefl _)
          · exact hcm
        · intro hcm
          rcases hc.2 (.inr hcm) with rfl | hcl
          · exact absurd (hm.1 _ hcm) (Char.lt_irrefl _)
          · exact hcl
  cases s with
  | mk l hl =>
    cases t with
    | mk m hm =>
      have := key l m hl hm h
      subst this
      rfl

/-! ## Small sets -/

def empty : Charset := ⟨[], List.Pairwise.nil⟩

def isEmpty (s : Charset) : Bool := s.toList.isEmpty

def size (s : Charset) : Nat := s.toList.length

@[simp] theorem not_mem_empty (c : Char) : c ∉ empty := by simp [mem_def, empty]

/-! ## Restriction -/

/-- The members that satisfy a test. -/
def filter (s : Charset) (p : Char → Bool) : Charset :=
  ⟨s.toList.filter p, s.sorted.filter p⟩

@[simp] theorem mem_filter {s : Charset} {p : Char → Bool} {c : Char} :
    c ∈ s.filter p ↔ c ∈ s ∧ p c = true := by
  simp [mem_def, filter]

instance : Inter Charset := ⟨fun s t => s.filter t.contains⟩

instance : SDiff Charset := ⟨fun s t => s.filter (fun c => !t.contains c)⟩

@[simp] theorem mem_inter {s t : Charset} {c : Char} : c ∈ s ∩ t ↔ c ∈ s ∧ c ∈ t := by
  change c ∈ s.filter t.contains ↔ _
  simp

@[simp] theorem mem_diff {s t : Charset} {c : Char} : c ∈ s \ t ↔ c ∈ s ∧ c ∉ t := by
  change c ∈ s.filter (fun c => !t.contains c) ↔ _
  rw [mem_filter, Bool.not_eq_true', ← Bool.not_eq_true, contains_iff]

/-! ## Intervals

The code points from `lo` to `hi` are counted through; the surrogates among them are no
characters and are left out. -/

/-- The character with a code point, if there is one. -/
def ofCodePoint? (n : Nat) : Option Char :=
  if n.isValidChar then some (Char.ofNat n) else none

theorem ofCodePoint?_eq_some {n : Nat} {c : Char} : ofCodePoint? n = some c ↔ c.toNat = n := by
  unfold ofCodePoint?
  split
  · rename_i h
    rw [Option.some.injEq]
    constructor
    · rintro rfl
      rw [Char.ofNat, dif_pos h]
      rfl
    · rintro rfl
      exact Char.ofNat_toNat c
  · rename_i h
    constructor
    · intro hc
      exact absurd hc (by simp)
    · rintro rfl
      exact absurd c.valid h

theorem sorted_codePoints (n start : Nat) :
    ((List.range' start n).filterMap ofCodePoint?).Pairwise (· < ·) := by
  rw [List.pairwise_filterMap]
  refine (List.pairwise_lt_range' (s := start) (n := n)).imp ?_
  intro a b hab c hc d hd
  rw [ofCodePoint?_eq_some] at hc hd
  subst hc hd
  exact Char.lt_def.2 hab

/-- All characters from `lo` to `hi`, both included; none if `hi` is below `lo`. -/
def interval (lo hi : Char) : Charset :=
  ⟨(List.range' lo.toNat (hi.toNat + 1 - lo.toNat)).filterMap ofCodePoint?, sorted_codePoints _ _⟩

@[simp] theorem mem_interval {lo hi c : Char} : c ∈ interval lo hi ↔ lo ≤ c ∧ c ≤ hi := by
  have hle : ∀ a b : Char, a ≤ b ↔ a.toNat ≤ b.toNat := fun _ _ => Iff.rfl
  simp only [mem_def, interval, List.mem_filterMap, ofCodePoint?_eq_some, List.mem_range'_1, hle]
  constructor
  · rintro ⟨n, hn, rfl⟩
    omega
  · intro h
    exact ⟨c.toNat, by omega, rfl⟩

/-! ## Insertion

What an interval covers is cut out of the set, and the whole interval is put in its place. -/

theorem sorted_splice {below middle above : List Char} {lo hi : Char}
    (hb : below.Pairwise (· < ·)) (hm : middle.Pairwise (· < ·)) (ha : above.Pairwise (· < ·))
    (hbelow : ∀ c ∈ below, c < lo) (hmiddle : ∀ c ∈ middle, lo ≤ c ∧ c ≤ hi)
    (habove : ∀ c ∈ above, hi < c) (hle : lo ≤ hi) :
    (below ++ middle ++ above).Pairwise (· < ·) := by
  refine List.pairwise_append.2 ⟨List.pairwise_append.2 ⟨hb, hm, ?_⟩, ha, ?_⟩
  · intro a hab b hbm
    exact Std.lt_of_lt_of_le (hbelow a hab) (hmiddle b hbm).1
  · intro a hab b hba
    rcases List.mem_append.1 hab with hab | ham
    · exact Char.lt_trans (Std.lt_of_lt_of_le (hbelow a hab) hle) (habove b hba)
    · exact Std.lt_of_le_of_lt (hmiddle a ham).2 (habove b hba)

/-- Adds all characters from `lo` to `hi`. -/
def insertInterval (s : Charset) (lo hi : Char) : Charset :=
  if h : lo ≤ hi then
    ⟨s.toList.filter (fun c => decide (c < lo)) ++ (interval lo hi).toList ++
        s.toList.filter (fun c => decide (hi < c)),
      sorted_splice (s.sorted.filter _) (interval lo hi).sorted (s.sorted.filter _)
        (fun _ hc => of_decide_eq_true (List.mem_filter.1 hc).2)
        (fun _ hc => mem_interval.1 hc)
        (fun _ hc => of_decide_eq_true (List.mem_filter.1 hc).2) h⟩
  else s

@[simp] theorem mem_insertInterval {s : Charset} {lo hi c : Char} :
    c ∈ s.insertInterval lo hi ↔ c ∈ s ∨ (lo ≤ c ∧ c ≤ hi) := by
  unfold insertInterval
  split
  · have hmem : c ∈ (interval lo hi).toList ↔ lo ≤ c ∧ c ≤ hi := mem_interval
    simp only [mem_def, List.mem_append, List.mem_filter, decide_eq_true_eq, hmem]
    have h₁ : c < lo ∨ lo ≤ c := (Decidable.em _).imp_right Char.not_lt.1
    have h₂ : hi < c ∨ c ≤ hi := (Decidable.em _).imp_right Char.not_lt.1
    grind
  · rename_i h
    constructor
    · exact Or.inl
    · rintro (hc | hc)
      · exact hc
      · exact absurd (Char.le_trans hc.1 hc.2) h

def insert (s : Charset) (c : Char) : Charset := s.insertInterval c c

@[simp] theorem mem_insert {s : Charset} {c d : Char} : d ∈ s.insert c ↔ d ∈ s ∨ d = c := by
  rw [insert, mem_insertInterval]
  constructor
  · rintro (h | h)
    · exact .inl h
    · exact .inr (Char.le_antisymm h.2 h.1)
  · rintro (h | rfl)
    · exact .inl h
    · exact .inr ⟨Char.le_refl _, Char.le_refl _⟩

/-- Adds the characters of a list, in any order and with repeats. -/
def insertAll (s : Charset) (cs : List Char) : Charset := cs.foldl insert s

@[simp] theorem mem_insertAll {s : Charset} {cs : List Char} {c : Char} :
    c ∈ s.insertAll cs ↔ c ∈ s ∨ c ∈ cs := by
  unfold insertAll
  induction cs generalizing s with
  | nil => simp
  | cons d cs ih =>
    rw [List.foldl_cons, ih, mem_insert, List.mem_cons, or_assoc]

/-- The set of the characters of a list. -/
def ofList (cs : List Char) : Charset := empty.insertAll cs

@[simp] theorem mem_ofList {cs : List Char} {c : Char} : c ∈ ofList cs ↔ c ∈ cs := by
  simp [ofList]

instance : Union Charset := ⟨fun s t => s.insertAll t.toList⟩

@[simp] theorem mem_union {s t : Charset} {c : Char} : c ∈ s ∪ t ↔ c ∈ s ∨ c ∈ t := by
  change c ∈ s.insertAll t.toList ↔ _
  rw [mem_insertAll]
  rfl

/-! ## The base alphabet -/

def baseFirst : Char := ' '

def baseLast : Char := '~'

/-- Whether a character belongs to the base alphabet. -/
def isBase (c : Char) : Bool := decide (baseFirst ≤ c) && decide (c ≤ baseLast)

/-- The printable characters of ASCII. -/
def base : Charset := interval baseFirst baseLast

@[simp] theorem mem_base {c : Char} : c ∈ base ↔ isBase c = true := by
  simp [base, isBase]

end Charset

end SequenceConstraint
