import SequenceConstraint.Proofs.Matching.Leads

/-!
# Matching by positions

A tree without backreferences can be read without any captures: each node relates the positions
where it may begin to those where it may end (`Reaches`). That relation knows no rounds that are
dropped, no largest number of rounds that the text sets, and no steps. The search decides it.

A repetition that goes on without bound is cut off by the search one round after the length of the
text. Nothing is lost by that if at most one round has to be made, because rounds that stay where
they are can be left out.

## Main statements

* `exists_rounds` — leaving out the rounds that do not move on
* `placed_of_positional` — the states that a node leads to are at the positions it reaches
* `matches?_iff_reaches` — a text is accepted if and only if its end is reached from its beginning
-/

namespace SequenceConstraint.Matching

/-! ## The relation on positions -/

/-- A relation followed a number of times. -/
def Times {α : Type} (R : α → α → Prop) : Nat → α → α → Prop
  | 0, p, q => q = p
  | k + 1, p, q => ∃ r, R p r ∧ Times R k r q

/-- Whether a word character stands right after a position. -/
def WordAt (text : Array Char) (p : Nat) : Prop := ∃ c, text[p]? = some c ∧ isWordChar c = true

/-- Whether a word begins or ends at a position. -/
def Boundary (text : Array Char) (p : Nat) : Prop :=
  ¬((∃ r, p = r + 1 ∧ WordAt text r) ↔ WordAt text p)

/-- Whether a position satisfies the condition of an anchor. -/
def Satisfies (text : Array Char) (p : Nat) : Anchor → Prop
  | .start => p = 0
  | .finish => p = text.size
  | .wordBoundary => Boundary text p
  | .insideWord => ¬Boundary text p

mutual

/-- Whether a node can begin at one position and end at another. Backreferences have no place
here: what they take hangs on more than the position. -/
def Reaches (text : Array Char) : Node → Nat → Nat → Prop
  | .char c, p, q => text[p]? = some c ∧ q = p + 1
  | .charClass k, p, q => (∃ c ∈ k.resolve, text[p]? = some c) ∧ q = p + 1
  | .anchor a, p, q => Satisfies text p a ∧ q = p
  | .backreference _, _, _ => False
  | .group (.lookahead false) branches, p, q => (∃ r, AnyReaches text branches p r) ∧ q = p
  | .group (.lookahead true) branches, p, q => (¬∃ r, AnyReaches text branches p r) ∧ q = p
  | .group _ branches, p, q => AnyReaches text branches p q
  | .repetition 0 (some 1) (.repetition min max body), p, q =>
    ∃ k, min ≤ k ∧ (∀ m, max = some m → k ≤ m) ∧ Times (fun p q => Reaches text body p q) k p q
  | .repetition min max body, p, q =>
    ∃ k, min ≤ k ∧ (∀ m, max = some m → k ≤ m) ∧ Times (fun p q => Reaches text body p q) k p q

/-- Whether the nodes of a branch, one after the other, can begin at one position and end at
another. -/
def BranchReaches (text : Array Char) : List Node → Nat → Nat → Prop
  | [], p, q => q = p
  | n :: ns, p, q => ∃ r, Reaches text n p r ∧ BranchReaches text ns r q

/-- Whether one of some branches can begin at one position and end at another. -/
def AnyReaches (text : Array Char) : List (List Node) → Nat → Nat → Prop
  | [], _, _ => False
  | b :: bs, p, q => BranchReaches text b p q ∨ AnyReaches text bs p q

end

/-! ## Rounds that do not move on -/

section Rounds

variable {R : MatchState → MatchState → Prop} {Q : Nat → Nat → Prop} {I : MatchState → Prop}
  {min count k : Nat} {s t : MatchState} {q : Nat}

/-- **Rounds that stay where they are can be left out** once there are enough of them. The others
are no more than the positions they go through. -/
theorem exists_rounds (forward : ∀ s t, R s t → s.position ≤ t.position)
    (step : ∀ s q, I s → Q s.position q → ∃ t, R s t ∧ I t ∧ t.position = q)
    (hs : I s) (h : Times Q k s.position q) (hm : min ≤ count + k) :
    ∃ k' t, k' ≤ k ∧ min ≤ count + k' ∧ k' ≤ (min - count) + (q - s.position) ∧
      s.position ≤ q ∧ Rounds R min count k' s t ∧ I t ∧ t.position = q := by
  induction k generalizing count s with
  | zero =>
    obtain rfl : q = s.position := h
    exact ⟨0, s, Nat.le_refl 0, hm, Nat.zero_le _, Nat.le_refl _, rfl, hs, rfl⟩
  | succ k ih =>
    obtain ⟨r, hr, hrest⟩ := h
    obtain ⟨u, hu, hIu, rfl⟩ := step s r hs hr
    have hsu := forward s u hu
    by_cases hmove : u.position ≠ s.position ∨ count < min
    · have hm' : min ≤ count + 1 + k := by omega
      obtain ⟨k', t, hk, hmin, hbound, hle, hrounds, ht⟩ := ih hIu hrest hm'
      exact ⟨k' + 1, t, by omega, by omega, by omega, by omega, ⟨u, hu, hmove, hrounds⟩, ht⟩
    · -- the round from `s` to `u` is left out, so the others are made from `s`
      have hpos : u.position = s.position := by omega
      rw [hpos] at hrest
      have hm' : min ≤ count + k := by omega
      obtain ⟨k', t, hk, h⟩ := ih hs hrest hm'
      exact ⟨k', t, by omega, h⟩

/-- Rounds past the smallest number move on, so they are no more than the positions they go
through. -/
theorem length_rounds_le (forward : ∀ s t, R s t → s.position ≤ t.position)
    (h : Rounds R min count k s t) :
    s.position ≤ t.position ∧ k ≤ (min - count) + (t.position - s.position) := by
  induction k generalizing count s with
  | zero =>
    obtain rfl : t = s := h
    exact ⟨Nat.le_refl _, Nat.zero_le _⟩
  | succ k ih =>
    obtain ⟨u, hu, hmove, hrest⟩ := h
    have hsu := forward s u hu
    obtain ⟨hut, hk⟩ := ih hrest
    omega

theorem times_of_rounds (step : ∀ s t, I s → R s t → Q s.position t.position ∧ I t)
    (hs : I s) (h : Rounds R min count k s t) : Times Q k s.position t.position ∧ I t := by
  induction k generalizing count s with
  | zero =>
    obtain rfl : t = s := h
    exact ⟨rfl, hs⟩
  | succ k ih =>
    obtain ⟨u, hu, -, hrest⟩ := h
    obtain ⟨hQ, hIu⟩ := step s u hs hu
    obtain ⟨htimes, ht⟩ := ih hIu hrest
    exact ⟨⟨u.position, hQ, htimes⟩, ht⟩

end Rounds

/-! ## Nodes -/

/-- A node whose ends hang on nothing but positions, and that the length of the text cuts off too
early in no text. -/
def Positional : Node → Prop
  | .backreference _ => False
  | .repetition min none _ => min ≤ 1
  | _ => True

section Leaves

variable {text : Array Char} {s : MatchState} {q : Nat}

theorem exists_consume_iff {test : Char → Bool} :
    (∃ t, t ∈ consume text test s ∧ t.position = q) ↔
      (∃ c, test c = true ∧ text[s.position]? = some c) ∧ q = s.position + 1 := by
  unfold consume
  constructor
  · rintro ⟨t, ht, rfl⟩
    split at ht
    · rename_i c hc
      split at ht
      · rename_i htest
        obtain rfl := List.mem_singleton.1 ht
        exact ⟨⟨c, htest, hc⟩, rfl⟩
      · cases ht
    · cases ht
  · rintro ⟨⟨c, htest, hc⟩, rfl⟩
    rw [hc]
    exact ⟨s.advance 1, by simp [htest], rfl⟩

/-- A node that takes no characters. -/
theorem exists_staying_iff {P : Prop} :
    (∃ t, (P ∧ t = s) ∧ t.position = q) ↔ P ∧ q = s.position := by
  constructor
  · rintro ⟨t, ⟨hP, rfl⟩, rfl⟩
    exact ⟨hP, rfl⟩
  · rintro ⟨hP, rfl⟩
    exact ⟨s, ⟨hP, rfl⟩, rfl⟩

theorem any_isWordChar_iff {p : Nat} : (text[p]?).any isWordChar = true ↔ WordAt text p := by
  cases h : text[p]? with
  | none => simp [WordAt, h]
  | some c => simp [WordAt, h]

theorem atWordBoundary_iff {p : Nat} : atWordBoundary text p = true ↔ Boundary text p := by
  have hbefore : (∃ r, p = r + 1 ∧ WordAt text r) ↔ 0 < p ∧ WordAt text (p - 1) := by
    constructor
    · rintro ⟨r, rfl, h⟩
      exact ⟨Nat.succ_pos r, h⟩
    · rintro ⟨hp, h⟩
      exact ⟨p - 1, by omega, h⟩
  unfold atWordBoundary Boundary
  rw [hbefore, ← any_isWordChar_iff, ← any_isWordChar_iff]
  rw [bne_iff_ne, ne_eq, Bool.eq_iff_iff, Bool.and_eq_true, decide_eq_true_eq]

theorem holdsAt_iff {p : Nat} {a : Anchor} : holdsAt text p a = true ↔ Satisfies text p a := by
  cases a with
  | start => simp [holdsAt, Satisfies]
  | finish => simp [holdsAt, Satisfies]
  | wordBoundary => exact atWordBoundary_iff
  | insideWord =>
    rw [Satisfies, ← atWordBoundary_iff]
    simp [holdsAt]

end Leaves

section Nodes

variable {text : Array Char}

/-- The states that a node leads to from within a text are at the positions it reaches. -/
def Placed (text : Array Char) (n : Node) : Prop :=
  ∀ s q, s.position ≤ text.size →
    ((∃ t, Leads text n s t ∧ t.position = q) ↔ Reaches text n s.position q)

theorem exists_branchLeads_iff_of_placed {branch : List Node} (h : ∀ n ∈ branch, Placed text n)
    {s : MatchState} (hs : s.position ≤ text.size) (q : Nat) :
    (∃ t, BranchLeads text branch s t ∧ t.position = q) ↔
      BranchReaches text branch s.position q := by
  induction branch generalizing s with
  | nil => simp [BranchLeads, BranchReaches, eq_comm]
  | cons n ns ih =>
    have hn := h n List.mem_cons_self
    have hns : ∀ m ∈ ns, Placed text m := fun m hm => h m (List.mem_cons_of_mem n hm)
    simp only [BranchLeads, BranchReaches]
    constructor
    · rintro ⟨t, ⟨u, hu, ht⟩, rfl⟩
      refine ⟨u.position, (hn s _ hs).1 ⟨u, hu, rfl⟩, ?_⟩
      exact (ih hns (hu.follows.inside hs)).1 ⟨t, ht, rfl⟩
    · rintro ⟨r, hr, hrest⟩
      obtain ⟨u, hu, rfl⟩ := (hn s r hs).2 hr
      obtain ⟨t, ht, rfl⟩ := (ih hns (hu.follows.inside hs)).2 hrest
      exact ⟨t, ⟨u, hu, ht⟩, rfl⟩

theorem exists_anyLeads_iff_of_placed {branches : List (List Node)}
    (h : ∀ b ∈ branches, ∀ n ∈ b, Placed text n) {s : MatchState} (hs : s.position ≤ text.size)
    (q : Nat) :
    (∃ t, AnyLeads text branches s t ∧ t.position = q) ↔
      AnyReaches text branches s.position q := by
  induction branches with
  | nil => simp [AnyLeads, AnyReaches]
  | cons b bs ih =>
    have hb := exists_branchLeads_iff_of_placed (h b List.mem_cons_self) hs q
    have hbs := ih fun c hc => h c (List.mem_cons_of_mem b hc)
    simp only [AnyLeads, AnyReaches, or_and_right, exists_or, hb, hbs]

/-- A group that looks ahead finds a way if and only if some position is reached. -/
theorem exists_anyLeads_iff_exists {branches : List (List Node)}
    (h : ∀ b ∈ branches, ∀ n ∈ b, Placed text n) {s : MatchState} (hs : s.position ≤ text.size) :
    (∃ t, AnyLeads text branches s t) ↔ ∃ r, AnyReaches text branches s.position r := by
  simp only [← exists_anyLeads_iff_of_placed h hs]
  exact ⟨fun ⟨t, ht⟩ => ⟨_, t, ht, rfl⟩, fun ⟨_, t, ht, _⟩ => ⟨t, ht⟩⟩

theorem placed_group (kind : GroupKind) {branches : List (List Node)}
    (h : ∀ b ∈ branches, ∀ n ∈ b, Placed text n) : Placed text (.group kind branches) := by
  intro s q hs
  cases kind with
  | capture index =>
    simp only [Leads, Reaches, ← exists_anyLeads_iff_of_placed h hs]
    constructor
    · rintro ⟨_, ⟨u, hu, rfl⟩, rfl⟩
      exact ⟨u, hu, rfl⟩
    · rintro ⟨u, hu, rfl⟩
      exact ⟨s.capture index u, ⟨u, hu, rfl⟩, rfl⟩
  | plain =>
    simp only [Leads, Reaches]
    exact exists_anyLeads_iff_of_placed h hs q
  | lookahead negative =>
    have hany := exists_anyLeads_iff_exists h hs
    cases negative with
    | false => simp only [Leads, Reaches, hany, iff_true, exists_staying_iff]
    | true =>
      simp only [Leads, Reaches, hany, reduceCtorEq, iff_false, exists_staying_iff]

theorem placed_repeated {body : Node} {min : Nat} {max : Option Nat} (h : Placed text body)
    (hmin : max = none → min ≤ 1) {s : MatchState} (hs : s.position ≤ text.size) (q : Nat) :
    (∃ t, Repeated (Leads text body) min (max.getD (text.size + 1)) s t ∧ t.position = q) ↔
      ∃ k, min ≤ k ∧ (∀ m, max = some m → k ≤ m) ∧
        Times (fun p q => Reaches text body p q) k s.position q := by
  -- all states of a run of rounds lie in the text
  let I : MatchState → Prop := fun s => s.position ≤ text.size
  have forward : ∀ s t, Leads text body s t → s.position ≤ t.position :=
    fun s t hst => hst.follows.forward
  have reach : ∀ s t, I s → Leads text body s t →
      Reaches text body s.position t.position ∧ I t :=
    fun s t hs hst => ⟨(h s t.position hs).1 ⟨t, hst, rfl⟩, hst.follows.inside hs⟩
  have lead : ∀ s q, I s → Reaches text body s.position q →
      ∃ t, Leads text body s t ∧ I t ∧ t.position = q := by
    intro s q hs hQ
    obtain ⟨t, ht, hq⟩ := (h s q hs).2 hQ
    exact ⟨t, ht, ht.follows.inside hs, hq⟩
  constructor
  · rintro ⟨t, ⟨k, hk, hmost, hrounds⟩, rfl⟩
    refine ⟨k, hk, ?_, (times_of_rounds reach hs hrounds).1⟩
    rintro m rfl
    exact hmost
  · rintro ⟨k, hk, hmost, htimes⟩
    have hk₀ : min ≤ 0 + k := by omega
    obtain ⟨k', t, hk', hmin', hbound, -, hrounds, ht, rfl⟩ :=
      exists_rounds forward lead hs htimes hk₀
    refine ⟨t, ⟨k', by omega, ?_, hrounds⟩, rfl⟩
    cases max with
    | none =>
      -- one round that has to be made, and one for each character
      have hone := hmin rfl
      have hin : t.position ≤ text.size := ht
      simp only [Option.getD_none]
      omega
    | some m => exact Nat.le_trans hk' (hmost m rfl)

/-- **The states that a node leads to are at the positions it reaches.** -/
theorem placed_of_positional {n : Node} (h : ∀ m ∈ n.nodes, Positional m) : Placed text n := by
  induction n with
  | char c =>
    intro s q _
    simp only [Leads, Reaches, exists_consume_iff, beq_iff_eq, exists_eq_left]
  | charClass k =>
    intro s q _
    simp only [Leads, Reaches, exists_consume_iff, CharClass.mem_resolve]
  | anchor a =>
    intro s q _
    simp only [Leads, Reaches, holdsAt_iff, exists_staying_iff]
  | backreference index => exact absurd (h _ (Node.self_mem_nodes _)) id
  | group kind branches ih =>
    simp only [Node.nodes, List.forall_mem_cons, forall_branchesNodes, forall_branchNodes] at h
    exact placed_group kind fun b hb n hn => ih b hb n hn (h.2 b hb n hn)
  | marked min max body ih =>
    simp only [Node.nodes, List.forall_mem_cons] at h
    intro s q hs
    rw [leads_marked, Reaches]
    refine placed_repeated (ih h.2.2) ?_ hs q
    rintro rfl
    exact h.2.1
  | repetition min max body hm ih =>
    simp only [Node.nodes, List.forall_mem_cons] at h
    intro s q hs
    rw [leads_repetition hm, Reaches]
    · refine placed_repeated (ih h.2) ?_ hs q
      rintro rfl
      exact h.1
    · exact hm

theorem exists_anyLeads_iff {branches : List (List Node)}
    (h : ∀ m ∈ branchesNodes branches, Positional m) {s : MatchState}
    (hs : s.position ≤ text.size) (q : Nat) :
    (∃ t, AnyLeads text branches s t ∧ t.position = q) ↔
      AnyReaches text branches s.position q := by
  simp only [forall_branchesNodes, forall_branchNodes] at h
  exact exists_anyLeads_iff_of_placed (fun b hb n hn => placed_of_positional (h b hb n hn)) hs q

end Nodes

/-! ## Whole texts -/

/-- **A tree without backreferences accepts a text if and only if the end of the text is reached
from its beginning.** -/
theorem matches?_iff_reaches {tree : Tree} {word : List Char} {b : Bool}
    (href : ∀ index, .backreference index ∉ tree.nodes)
    (hmin : ∀ min body, .repetition min none body ∈ tree.nodes → min ≤ 1)
    (h : tree.matches? word = some b) :
    b = true ↔ AnyReaches word.toArray tree.branches 0 word.length := by
  have hpos : ∀ m ∈ branchesNodes tree.branches, Positional m := by
    intro m hm
    unfold Positional
    split
    · exact href _ hm
    · exact hmin _ _ hm
    · trivial
  rw [matches?_eq_some h]
  exact exists_anyLeads_iff hpos (Nat.zero_le _) word.length

/-- The tree of `^(?!B)((A*)*|[BC])+\bB?`. -/
def nestedStars : Tree :=
  ⟨[[.anchor .start, .group (.lookahead true) [[.char 'B']],
    .repetition 1 none (.group (.capture 1)
      [[.repetition 0 none (.group (.capture 2) [[.repetition 0 none (.char 'A')]])],
        [.charClass ⟨false, [.interval 'B' 'C']⟩]]),
    .anchor .wordBoundary, .repetition 0 (some 1) (.char 'B')]], 2⟩

theorem matches?_nestedStars :
    nestedStars.matches? ['A', 'A', 'C'] = some true ∧
      AnyReaches ['A', 'A', 'C'].toArray nestedStars.branches 0 3 := by
  have h : nestedStars.matches? ['A', 'A', 'C'] = some true := by decide +kernel
  refine ⟨h, (matches?_iff_reaches ?_ ?_ h).1 rfl⟩
  · simp [nestedStars, Tree.nodes, branchesNodes, branchNodes, Node.nodes]
  · intro min body hm
    simp [nestedStars, Tree.nodes, branchesNodes, branchNodes, Node.nodes] at hm
    omega

end SequenceConstraint.Matching
