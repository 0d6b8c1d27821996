import SequenceConstraint.Proofs.Matching.Positions

/-!
# Unrolling a repetition

At least `n` rounds are `n` rounds and then any number of them. A search that goes through a
repetition without bound makes no more rounds than one for each character and one more, so for
`x{n,}` this is a law of the search as long as `n` is not larger than that; if it is, `x{n,}` leads
nowhere, even where `x` can stay where it is.

The law is one of positions: among the rounds, those that stay where they are can be left out, which
changes what has been captured. It hangs on nothing but positions where there are no backreferences
(`Memoryless`).

## Main statements

* `memoryless_leads` — where a node without backreferences leads to hangs on the position
* `exists_times_le` — rounds that stay where they are can be left out, down to a smallest number
* `exists_atLeast_iff` — at least `n` rounds are `n` rounds and then any number of them
* `matches?_unrolled` — what becomes of the verdict if a repetition is unrolled
-/

namespace SequenceConstraint.Matching

/-! ## Nodes without memory -/

/-- Whether the positions that a relation on states leads to hang on the position alone. -/
def Memoryless (R : MatchState → MatchState → Prop) : Prop :=
  ∀ s s' t, s'.position = s.position → R s t → ∃ t', R s' t' ∧ t'.position = t.position

section Memoryless

variable {text : Array Char} {R : MatchState → MatchState → Prop} {min count k most : Nat}

theorem Memoryless.rounds (h : Memoryless R) : Memoryless (Rounds R min count k) := by
  intro s s' t hpos hrounds
  induction k generalizing count s s' with
  | zero =>
    obtain rfl : t = s := hrounds
    exact ⟨s', rfl, hpos⟩
  | succ k ih =>
    obtain ⟨u, hu, hmove, hrest⟩ := hrounds
    obtain ⟨u', hu', hposu⟩ := h s s' u hpos hu
    obtain ⟨t', ht', hpost⟩ := ih u u' hposu hrest
    exact ⟨t', ⟨u', hu', by rwa [hposu, hpos], ht'⟩, hpost⟩

theorem Memoryless.repeated (h : Memoryless R) : Memoryless (Repeated R min most) := by
  rintro s s' t hpos ⟨k, hmin, hmost, hrounds⟩
  obtain ⟨t', ht', hpost⟩ := h.rounds s s' t hpos hrounds
  exact ⟨t', ⟨k, hmin, hmost, ht'⟩, hpost⟩

theorem memoryless_consume (test : Char → Bool) :
    Memoryless fun s t => t ∈ consume text test s := by
  intro s s' t hpos ht
  have hreach := exists_consume_iff.1 ⟨t, ht, rfl⟩
  rw [← hpos] at hreach
  exact exists_consume_iff.2 hreach

/-- A node that takes no characters. -/
theorem memoryless_staying {P : Nat → Prop} : Memoryless fun s t => P s.position ∧ t = s := by
  rintro s s' t hpos ⟨hP, rfl⟩
  exact ⟨s', ⟨hpos ▸ hP, rfl⟩, hpos⟩

theorem memoryless_branchLeads_of {branch : List Node}
    (h : ∀ n ∈ branch, Memoryless (Leads text n)) : Memoryless (BranchLeads text branch) := by
  induction branch with
  | nil =>
    rintro s s' t hpos rfl
    exact ⟨s', rfl, hpos⟩
  | cons n ns ih =>
    obtain ⟨hn, hns⟩ := List.forall_mem_cons.1 h
    rintro s s' t hpos ⟨u, hu, hrest⟩
    obtain ⟨u', hu', hposu⟩ := hn s s' u hpos hu
    obtain ⟨t', ht', hpost⟩ := ih hns u u' t hposu hrest
    exact ⟨t', ⟨u', hu', ht'⟩, hpost⟩

theorem memoryless_anyLeads_of {branches : List (List Node)}
    (h : ∀ b ∈ branches, ∀ n ∈ b, Memoryless (Leads text n)) :
    Memoryless (AnyLeads text branches) := by
  intro s s' t hpos ht
  obtain ⟨b, hb, ht⟩ := anyLeads_iff.1 ht
  obtain ⟨t', ht', hpost⟩ := memoryless_branchLeads_of (h b hb) s s' t hpos ht
  exact ⟨t', anyLeads_iff.2 ⟨b, hb, ht'⟩, hpost⟩

theorem memoryless_group (kind : GroupKind) {branches : List (List Node)}
    (h : ∀ b ∈ branches, ∀ n ∈ b, Memoryless (Leads text n)) :
    Memoryless (Leads text (.group kind branches)) := by
  have hbody := memoryless_anyLeads_of h
  intro s s' t hpos ht
  cases kind with
  | capture index =>
    rw [Leads] at ht
    obtain ⟨u, hu, rfl⟩ := ht
    obtain ⟨u', hu', hposu⟩ := hbody s s' u hpos hu
    exact ⟨s'.capture index u', by rw [Leads]; exact ⟨u', hu', rfl⟩, hposu⟩
  | plain =>
    simp only [Leads] at ht ⊢
    exact hbody s s' t hpos ht
  | lookahead negative =>
    simp only [Leads] at ht ⊢
    obtain ⟨hahead, rfl⟩ := ht
    have hsame : (∃ u, AnyLeads text branches s' u) ↔ ∃ u, AnyLeads text branches t u := by
      constructor
      · rintro ⟨u, hu⟩
        exact (hbody s' t u hpos.symm hu).imp fun _ h => h.1
      · rintro ⟨u, hu⟩
        exact (hbody t s' u hpos hu).imp fun _ h => h.1
    exact ⟨s', ⟨hsame.trans hahead, rfl⟩, hpos⟩

/-- **Without backreferences** the positions that a node leads to hang on the position alone. -/
theorem memoryless_leads {n : Node} (h : ∀ index, .backreference index ∉ n.nodes) :
    Memoryless (Leads text n) := by
  induction n with
  | char c =>
    simp only [Memoryless, Leads]
    exact memoryless_consume _
  | charClass k =>
    simp only [Memoryless, Leads]
    exact memoryless_consume _
  | anchor a =>
    simp only [Memoryless, Leads]
    exact memoryless_staying (P := fun p => holdsAt text p a = true)
  | backreference index => exact absurd (Node.self_mem_nodes _) (h index)
  | group kind branches ih =>
    refine memoryless_group kind fun b hb n hn => ih b hb n hn fun index hmem => h index ?_
    exact List.mem_cons_of_mem _ (mem_branchesNodes_of_mem hb hn hmem)
  | marked min max body ih =>
    have hbody := ih fun index hmem =>
      h index (List.mem_cons_of_mem _ (List.mem_cons_of_mem _ hmem))
    intro s s' t
    rw [leads_marked, leads_marked]
    exact hbody.repeated s s' t
  | repetition min max body hm ih =>
    have hbody := ih fun index hmem => h index (List.mem_cons_of_mem _ hmem)
    intro s s' t
    rw [leads_repetition hm, leads_repetition hm]
    exact hbody.repeated s s' t

theorem memoryless_branchLeads {branch : List Node}
    (h : ∀ index, .backreference index ∉ branchNodes branch) :
    Memoryless (BranchLeads text branch) :=
  memoryless_branchLeads_of fun _ hn => memoryless_leads fun index hmem =>
    h index (mem_branchNodes.2 ⟨_, hn, hmem⟩)

end Memoryless

/-! ## Rounds on positions -/

section Times

variable {R : Nat → Nat → Prop} {j k n p q : Nat}

theorem times_add : Times R (j + k) p q ↔ ∃ r, Times R j p r ∧ Times R k r q := by
  induction j generalizing p with
  | zero => simp [Times]
  | succ j ih =>
    rw [Nat.succ_add]
    constructor
    · rintro ⟨r, hr, hrest⟩
      obtain ⟨r', hj, hk⟩ := ih.1 hrest
      exact ⟨r', ⟨r, hr, hj⟩, hk⟩
    · rintro ⟨r', ⟨r, hr, hj⟩, hk⟩
      exact ⟨r, hr, ih.2 ⟨r', hj, hk⟩⟩

/-- Of more rounds than there are positions to move on by, one stays where it is. -/
theorem Times.shorten (forward : ∀ p q, R p q → p ≤ q) (h : Times R (k + 1) p q)
    (hk : q < p + (k + 1)) : Times R k p q := by
  induction k generalizing p with
  | zero =>
    obtain ⟨r, hr, rfl⟩ := h
    have := forward p q hr
    show q = p
    omega
  | succ k ih =>
    obtain ⟨r, hr, hrest⟩ := h
    rcases Nat.lt_or_eq_of_le (forward p r hr) with hlt | rfl
    · exact ⟨r, hr, ih hrest (by omega)⟩
    · exact hrest

/-- **Rounds that stay where they are can be left out,** but for a smallest number of rounds. -/
theorem exists_times_le (forward : ∀ p q, R p q → p ≤ q) (h : Times R k p q) (hn : n ≤ k) :
    ∃ k', n ≤ k' ∧ k' ≤ max n (q - p) ∧ Times R k' p q := by
  induction k with
  | zero => exact ⟨0, hn, Nat.zero_le _, h⟩
  | succ k ih =>
    by_cases hk : k + 1 ≤ max n (q - p)
    · exact ⟨k + 1, hn, hk, h⟩
    · exact ih (h.shorten forward (by omega)) (by omega)

end Times

/-! ## Repetitions -/

/-- What a relation on states does to the positions. -/
def OnPositions (R : MatchState → MatchState → Prop) (p q : Nat) : Prop :=
  ∃ s t, s.position = p ∧ R s t ∧ t.position = q

section Repeated

variable {R : MatchState → MatchState → Prop} {min most n size : Nat} {s : MatchState} {q : Nat}

/-- The positions that a repetition leads to are those that its rounds lead to. -/
theorem exists_repeated_iff (hR : Memoryless R) (forward : ∀ s t, R s t → s.position ≤ t.position) :
    (∃ t, Repeated R min most s t ∧ t.position = q) ↔
      ∃ k, min ≤ k ∧ k ≤ most ∧ Times (OnPositions R) k s.position q := by
  constructor
  · rintro ⟨t, ⟨k, hmin, hmost, hrounds⟩, rfl⟩
    refine ⟨k, hmin, hmost, ?_⟩
    exact (times_of_rounds (I := fun _ => True) (fun s t _ h => ⟨⟨s, t, rfl, h, rfl⟩, trivial⟩)
      trivial hrounds).1
  · rintro ⟨k, hmin, hmost, htimes⟩
    have step : ∀ s q, True → OnPositions R s.position q →
        ∃ t, R s t ∧ True ∧ t.position = q := by
      rintro s q - ⟨s', t', hpos, h, rfl⟩
      obtain ⟨t, ht, hpost⟩ := hR s' s t' hpos.symm h
      exact ⟨t, ht, trivial, hpost⟩
    obtain ⟨k', t, hk', hmin', -, -, hrounds, -, hpost⟩ :=
      exists_rounds (I := fun _ => True) forward step trivial htimes (show min ≤ 0 + k by omega)
    exact ⟨t, ⟨k', by omega, by omega, hrounds⟩, hpost⟩

/-- **At least `n` rounds are `n` rounds and then any number of them,** if the search makes as many
as `n` at all. -/
theorem exists_atLeast_iff (hR : Memoryless R) (forward : ∀ s t, R s t → s.position ≤ t.position)
    (inside : ∀ s t, R s t → s.position ≤ size → t.position ≤ size) (hs : s.position ≤ size) :
    (∃ t, Repeated R n (size + 1) s t ∧ t.position = q) ↔
      n ≤ size + 1 ∧ ∃ u, Repeated R n n s u ∧ ∃ t, Repeated R 0 (size + 1) u t ∧
        t.position = q := by
  have forward' : ∀ p q, OnPositions R p q → p ≤ q := by
    rintro _ _ ⟨s, t, rfl, h, rfl⟩
    exact forward s t h
  constructor
  · intro h
    obtain ⟨k, hn, hmost, htimes⟩ := (exists_repeated_iff hR forward).1 h
    obtain ⟨j, rfl⟩ := Nat.exists_eq_add_of_le hn
    obtain ⟨r, hmust, hmore⟩ := times_add.1 htimes
    obtain ⟨u, hu, rfl⟩ :=
      (exists_repeated_iff hR forward).2 ⟨n, Nat.le_refl n, Nat.le_refl n, hmust⟩
    have hrest : ∃ t, Repeated R 0 (size + 1) u t ∧ t.position = q :=
      (exists_repeated_iff hR forward).2 ⟨j, Nat.zero_le j, by omega, hmore⟩
    exact ⟨by omega, u, hu, hrest⟩
  · rintro ⟨hn, u, hu, t, ht, rfl⟩
    obtain ⟨n', hle, hge, hmust⟩ := (exists_repeated_iff hR forward).1 ⟨u, hu, rfl⟩
    obtain rfl := Nat.le_antisymm hle hge
    obtain ⟨j, -, -, hmore⟩ := (exists_repeated_iff hR forward).1 ⟨t, ht, rfl⟩
    have hend : t.position ≤ size := by
      obtain ⟨_, -, -, hmust⟩ := hu
      obtain ⟨_, -, -, hmore⟩ := ht
      have hkeep : ∀ s t, s.position ≤ size → R s t → True ∧ t.position ≤ size :=
        fun s t hs h => ⟨trivial, inside s t h hs⟩
      have hmid := (times_of_rounds (Q := fun _ _ => True) hkeep hs hmust).2
      exact (times_of_rounds (Q := fun _ _ => True) hkeep hmid hmore).2
    -- all rounds in a row, and of those that stay no more than have to be made
    obtain ⟨k, hnk, hk, htimes⟩ :=
      exists_times_le forward' (times_add.2 ⟨_, hmust, hmore⟩) (Nat.le_add_right n j)
    exact (exists_repeated_iff hR forward).2 ⟨k, hnk, by omega, htimes⟩

end Repeated

/-! ## Whole texts -/

theorem branchLeads_append {text : Array Char} {b c : List Node} {s t : MatchState} :
    BranchLeads text (b ++ c) s t ↔ ∃ u, BranchLeads text b s u ∧ BranchLeads text c u t := by
  induction b generalizing s with
  | nil => simp [BranchLeads]
  | cons n ns ih =>
    simp only [List.cons_append, BranchLeads, ih]
    constructor
    · rintro ⟨v, hv, u, hu, ht⟩
      exact ⟨u, ⟨v, hv, hu⟩, ht⟩
    · rintro ⟨u, ⟨v, hv, hu⟩, ht⟩
      exact ⟨v, hv, u, hu, ht⟩

/-- What a text needs to be accepted by a tree with one branch. -/
theorem matches?_branch {branch : Branch} {captures : Nat} {word : List Char} {b : Bool}
    (h : Tree.matches? ⟨[branch], captures⟩ word = some b) :
    b = true ↔ ∃ t, BranchLeads word.toArray branch (.start captures) t ∧
      t.position = word.length := by
  rw [matches?_eq_some h]
  simp only [AnyLeads, or_false]

/-- **A repetition of at least `n` rounds is `n` rounds and then any number of them,** on every text
that has at least `n - 1` characters. A shorter text is never accepted through such a repetition. -/
theorem matches?_unrolled {before after : Branch} {x : Node} {n captures : Nat} {word : List Char}
    {b b' : Bool} (href : ∀ index, .backreference index ∉ branchNodes (x :: after))
    (h : Tree.matches? ⟨[before ++ .repetition n none x :: after], captures⟩ word = some b)
    (h' : Tree.matches?
      ⟨[before ++ .repetition n (some n) x :: .repetition 0 none x :: after], captures⟩ word =
        some b') :
    b = true ↔ n ≤ word.length + 1 ∧ b' = true := by
  simp only [branchNodes, List.mem_append, not_or] at href
  have hx : Memoryless (Leads word.toArray x) := memoryless_leads fun index => (href index).1
  have hafter : Memoryless (BranchLeads word.toArray after) :=
    memoryless_branchLeads fun index => (href index).2
  have hatLeast : ∀ s, Leads word.toArray (.repetition n none x) s =
      Repeated (Leads word.toArray x) n (word.length + 1) s :=
    leads_repetition (by simp) word.toArray
  have hexactly : ∀ s, Leads word.toArray (.repetition n (some n) x) s =
      Repeated (Leads word.toArray x) n n s :=
    leads_repetition (by simp; omega) word.toArray
  have hmore : ∀ s, Leads word.toArray (.repetition 0 none x) s =
      Repeated (Leads word.toArray x) 0 (word.length + 1) s :=
    leads_repetition (by simp) word.toArray
  -- the two ways through the middle lead from one state to the same positions
  have hmiddle : ∀ s q, s.position ≤ word.length →
      ((∃ t, Repeated (Leads word.toArray x) n (word.length + 1) s t ∧ t.position = q) ↔
        n ≤ word.length + 1 ∧ ∃ u, Repeated (Leads word.toArray x) n n s u ∧
          ∃ t, Repeated (Leads word.toArray x) 0 (word.length + 1) u t ∧ t.position = q) :=
    fun s q hs => exists_atLeast_iff hx (fun _ _ hst => hst.follows.forward)
      (fun _ _ hst => hst.follows.inside) hs
  have hstart : ∀ s, BranchLeads word.toArray before (.start captures) s →
      s.position ≤ word.length := by
    intro s hs
    have hany : AnyLeads word.toArray [before] (.start captures) s := .inl hs
    exact hany.follows.inside (Nat.zero_le _)
  rw [matches?_branch h, matches?_branch h']
  simp only [branchLeads_append, BranchLeads, hatLeast, hexactly, hmore]
  constructor
  · rintro ⟨t, ⟨s, hs, v, hv, ht⟩, hend⟩
    obtain ⟨hn, u, hu, v', hv', hpos⟩ := (hmiddle s v.position (hstart s hs)).1 ⟨v, hv, rfl⟩
    obtain ⟨t', ht', hpost⟩ := hafter v v' t hpos ht
    exact ⟨hn, t', ⟨s, hs, u, hu, v', hv', ht'⟩, hpost.trans hend⟩
  · rintro ⟨hn, t, ⟨s, hs, u, hu, v, hv, ht⟩, hend⟩
    obtain ⟨v', hv', hpos⟩ := (hmiddle s v.position (hstart s hs)).2 ⟨hn, u, hu, v, hv, rfl⟩
    obtain ⟨t', ht', hpost⟩ := hafter v v' t hpos ht
    exact ⟨t', ⟨s, hs, v', hv', ht'⟩, hpost.trans hend⟩

/-- The node of `(A*|C)`, which can stay where it is. -/
def starredOrOne : Node :=
  .group (.capture 1) [[.repetition 0 none (.char 'A')], [.char 'C']]

/-- `B(A*|C){3,}$` on `BAC`: with two rounds that move on, the third one stays. -/
theorem matches?_unrolled_starredOrOne : ∃ b b',
    Tree.matches? ⟨[[.char 'B'] ++ .repetition 3 none starredOrOne :: [.anchor .finish]], 1⟩
      ['B', 'A', 'C'] = some b ∧
    Tree.matches? ⟨[[.char 'B'] ++ .repetition 3 (some 3) starredOrOne ::
      .repetition 0 none starredOrOne :: [.anchor .finish]], 1⟩ ['B', 'A', 'C'] = some b' ∧
    b' = true ∧ b = true := by
  have h : Tree.matches? ⟨[[.char 'B'] ++ .repetition 3 none starredOrOne :: [.anchor .finish]], 1⟩
      ['B', 'A', 'C'] = some true := by decide +kernel
  have h' : Tree.matches? ⟨[[.char 'B'] ++ .repetition 3 (some 3) starredOrOne ::
      .repetition 0 none starredOrOne :: [.anchor .finish]], 1⟩ ['B', 'A', 'C'] = some true := by
    decide +kernel
  have href : ∀ index, .backreference index ∉ branchNodes (starredOrOne :: [.anchor .finish]) := by
    simp [starredOrOne, branchNodes, branchesNodes, Node.nodes]
  exact ⟨true, true, h, h', rfl, (matches?_unrolled href h h').2 ⟨by decide, rfl⟩⟩

/-- **On a shorter text the law fails:** the empty text is two empty rounds of `A*`, but the search
for `(A*|C){2,}` ends after one. -/
theorem not_forall_matches?_unrolled : ¬∀ (before after : Branch) (x : Node) (n captures : Nat)
    (word : List Char) (b b' : Bool),
    (∀ index, .backreference index ∉ branchNodes (before ++ x :: after)) →
    Tree.matches? ⟨[before ++ .repetition n none x :: after], captures⟩ word = some b →
    Tree.matches? ⟨[before ++ .repetition n (some n) x :: .repetition 0 none x :: after], captures⟩
      word = some b' → b = b' := by
  intro h
  have href : ∀ index, .backreference index ∉ branchNodes ([] ++ starredOrOne :: []) := by
    simp [starredOrOne, branchNodes, branchesNodes, Node.nodes]
  have hne : false = true :=
    h [] [] starredOrOne 2 1 [] false true href (by decide +kernel) (by decide +kernel)
  cases hne

end SequenceConstraint.Matching
