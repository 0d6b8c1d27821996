import SequenceConstraint.Charset

/-!
# Character classes

A class is a list of members, possibly negated: characters, intervals, and classes again. It stands
for a set of characters of the base alphabet, and negation is the complement in that alphabet at
every level. Two definitions give that set:

* `CharClass.accepts` decides whether a character belongs to it
* `CharClass.resolve` lists it

## Main statements

* `CharClass.mem_resolve` — the two agree
-/

namespace SequenceConstraint

/-- A member of a class. An interval whose ends are in the wrong order is empty. -/
inductive ClassMember where
  | char (c : Char)
  | interval (lo hi : Char)
  | nested (negated : Bool) (members : List ClassMember)

/-- A list of members, or what is left of the base alphabet without them. -/
structure CharClass where
  negated : Bool
  members : List ClassMember

/-! ## Equality -/

mutual

/-- Whether two members are written alike. -/
def ClassMember.same : ClassMember → ClassMember → Bool
  | .char c, .char d => c == d
  | .interval a b, .interval c d => a == c && b == d
  | .nested n ms, .nested k ns => n == k && sameMembers ms ns
  | _, _ => false

def sameMembers : List ClassMember → List ClassMember → Bool
  | [], [] => true
  | m :: ms, n :: ns => m.same n && sameMembers ms ns
  | _, _ => false

end

mutual

theorem ClassMember.same_iff : ∀ {m n : ClassMember}, m.same n = true ↔ m = n
  | .char c, .char d => by simp [ClassMember.same]
  | .interval a b, .interval c d => by simp [ClassMember.same]
  | .nested n ms, .nested k ns => by simp [ClassMember.same, sameMembers_iff]
  | .char _, .interval _ _ => by simp [ClassMember.same]
  | .char _, .nested _ _ => by simp [ClassMember.same]
  | .interval _ _, .char _ => by simp [ClassMember.same]
  | .interval _ _, .nested _ _ => by simp [ClassMember.same]
  | .nested _ _, .char _ => by simp [ClassMember.same]
  | .nested _ _, .interval _ _ => by simp [ClassMember.same]

theorem sameMembers_iff : ∀ {ms ns : List ClassMember}, sameMembers ms ns = true ↔ ms = ns
  | [], [] => by simp [sameMembers]
  | m :: ms, n :: ns => by simp [sameMembers, ClassMember.same_iff, sameMembers_iff]
  | [], _ :: _ => by simp [sameMembers]
  | _ :: _, [] => by simp [sameMembers]

end

instance : DecidableEq ClassMember := fun _ _ => decidable_of_iff _ ClassMember.same_iff

deriving instance DecidableEq for CharClass

/-! ## Deciding -/

mutual

/-- Whether a member holds a character. Only a nested class looks at the base alphabet. -/
def ClassMember.holds (c : Char) : ClassMember → Bool
  | .char d => c == d
  | .interval lo hi => decide (lo ≤ c) && decide (c ≤ hi)
  | .nested negated members => Charset.isBase c && (negated != anyHolds c members)

def anyHolds (c : Char) : List ClassMember → Bool
  | [] => false
  | m :: ms => m.holds c || anyHolds c ms

end

/-- Whether a class stands for a set with the character `c` in it. -/
def CharClass.accepts (k : CharClass) (c : Char) : Bool :=
  Charset.isBase c && (k.negated != anyHolds c k.members)

/-! ## Listing -/

/-- The part of the base alphabet that lies in a set, or outside it. -/
def Charset.inBase (negated : Bool) (s : Charset) : Charset :=
  if negated then Charset.base \ s else Charset.base ∩ s

mutual

/-- Adds what a member holds to a set. -/
def ClassMember.addTo (s : Charset) : ClassMember → Charset
  | .char c => s.insert c
  | .interval lo hi => s.insertInterval lo hi
  | .nested negated members => s ∪ .inBase negated (addMembers .empty members)

def addMembers (s : Charset) : List ClassMember → Charset
  | [] => s
  | m :: ms => addMembers (m.addTo s) ms

end

/-- The set that a class stands for. -/
def CharClass.resolve (k : CharClass) : Charset := .inBase k.negated (addMembers .empty k.members)

/-! ## Agreement -/

theorem Charset.mem_inBase {negated : Bool} {s : Charset} {c : Char} :
    c ∈ inBase negated s ↔ isBase c = true ∧ (negated != s.contains c) = true := by
  cases negated <;> simp [inBase, ← Bool.not_eq_true]

mutual

theorem ClassMember.mem_addTo (c : Char) (s : Charset) :
    ∀ m : ClassMember, c ∈ m.addTo s ↔ c ∈ s ∨ m.holds c = true
  | .char d => by simp [ClassMember.addTo, ClassMember.holds]
  | .interval lo hi => by simp [ClassMember.addTo, ClassMember.holds]
  | .nested negated members => by
    have h : (addMembers .empty members).contains c = anyHolds c members := by
      rw [Bool.eq_iff_iff, Charset.contains_iff, mem_addMembers]
      simp
    rw [ClassMember.addTo, ClassMember.holds, Charset.mem_union, Charset.mem_inBase, h,
      Bool.and_eq_true]

theorem mem_addMembers (c : Char) (s : Charset) :
    ∀ ms : List ClassMember, c ∈ addMembers s ms ↔ c ∈ s ∨ anyHolds c ms = true
  | [] => by simp [addMembers, anyHolds]
  | m :: ms => by
    rw [addMembers, mem_addMembers c _ ms, ClassMember.mem_addTo c s m, anyHolds, Bool.or_eq_true,
      or_assoc]

end

/-- **Listing and deciding agree.** -/
theorem CharClass.mem_resolve {k : CharClass} {c : Char} : c ∈ k.resolve ↔ k.accepts c = true := by
  have h : (addMembers .empty k.members).contains c = anyHolds c k.members := by
    rw [Bool.eq_iff_iff, Charset.contains_iff, mem_addMembers]
    simp
  rw [CharClass.resolve, CharClass.accepts, Charset.mem_inBase, h, Bool.and_eq_true]

/-! ## Shorthands -/

namespace CharClass

/-- A list of intervals as members; an interval of one character is that character. -/
def ofIntervals (negated : Bool) (intervals : List (Char × Char)) : CharClass :=
  ⟨negated, intervals.map fun (lo, hi) => if lo = hi then .char lo else .interval lo hi⟩

def digits : List (Char × Char) := [('0', '9')]

def wordChars : List (Char × Char) := [('0', '9'), ('A', 'Z'), ('_', '_'), ('a', 'z')]

/-- Blanks and line ends of all of Unicode. -/
def blanks : List (Char × Char) :=
  [('\t', '\r'), (' ', ' '), ('\u00a0', '\u00a0'), ('\u1680', '\u1680'), ('\u2000', '\u200a'),
    ('\u2028', '\u2029'), ('\u202f', '\u202f'), ('\u205f', '\u205f'), ('\u3000', '\u3000'),
    ('\ufeff', '\ufeff')]

/-- The class that a letter stands for after a backslash: a small letter for the class, the capital
for its negation. -/
def shorthand? : Char → Option CharClass
  | 'd' => some (ofIntervals false digits)
  | 'D' => some (ofIntervals true digits)
  | 'w' => some (ofIntervals false wordChars)
  | 'W' => some (ofIntervals true wordChars)
  | 's' => some (ofIntervals false blanks)
  | 'S' => some (ofIntervals true blanks)
  | _ => none

/-- Any character that does not end a line. -/
def notLineEnd : CharClass := ⟨true, [.char '\n', .char '\r', .char '\u2028', .char '\u2029']⟩

end CharClass

end SequenceConstraint
