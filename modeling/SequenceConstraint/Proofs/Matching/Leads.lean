import SequenceConstraint.Matching
import SequenceConstraint.Proofs.Syntax.Nodes

/-!
# Where a search leads

The search keeps lists of states, drops a state that it has already, and counts its steps. None of
that matters for the states it finds: as long as the steps last, they are those that a relation on
states describes, node by node (`Leads`). It follows every way through a tree and counts nothing.

## Main statements

* `mem_ends`, `mem_branchesEnds` — a search that comes to an end has found the states that a node or
  an alternation leads to
* `matches?_eq_some` — the verdict on a whole text
* `Leads.follows` — a node moves on within the text and captures only its own groups
-/

namespace SequenceConstraint.Matching

/-! ## The relation -/

/-- More rounds of a repetition, `k` of them after `count` others. Past the smallest number of
rounds, each has to move on. -/
def Rounds (R : MatchState → MatchState → Prop) (min : Nat) :
    (count k : Nat) → MatchState → MatchState → Prop
  | _, 0, s, t => t = s
  | count, k + 1, s, t =>
    ∃ u, R s u ∧ (u.position ≠ s.position ∨ count < min) ∧ Rounds R min (count + 1) k u t

/-- A repetition from `min` to `most` rounds. -/
def Repeated (R : MatchState → MatchState → Prop) (min most : Nat) (s t : MatchState) : Prop :=
  ∃ k, min ≤ k ∧ k ≤ most ∧ Rounds R min 0 k s t

mutual

/-- Whether a node leads from one state to another. -/
def Leads (text : Array Char) : Node → MatchState → MatchState → Prop
  | .char c, s, t => t ∈ consume text (· == c) s
  | .charClass k, s, t => t ∈ consume text k.accepts s
  | .anchor a, s, t => holdsAt text s.position a = true ∧ t = s
  | .backreference index, s, t => t ∈ repeatCaptured text index s
  | .group (.capture index) branches, s, t =>
    ∃ u, AnyLeads text branches s u ∧ t = s.capture index u
  | .group .plain branches, s, t => AnyLeads text branches s t
  | .group (.lookahead negative) branches, s, t =>
    ((∃ u, AnyLeads text branches s u) ↔ negative = false) ∧ t = s
  | .repetition 0 (some 1) (.repetition min max body), s, t =>
    Repeated (fun s t => Leads text body s t) min (max.getD (text.size + 1)) s t
  | .repetition min max body, s, t =>
    Repeated (fun s t => Leads text body s t) min (max.getD (text.size + 1)) s t

/-- Whether the nodes of a branch lead from one state to another, one after the other. -/
def BranchLeads (text : Array Char) : List Node → MatchState → MatchState → Prop
  | [], s, t => t = s
  | n :: ns, s, t => ∃ u, Leads text n s u ∧ BranchLeads text ns u t

/-- Whether one of some branches leads from one state to another. -/
def AnyLeads (text : Array Char) : List (List Node) → MatchState → MatchState → Prop
  | [], _, _ => False
  | b :: bs, s, t => BranchLeads text b s t ∨ AnyLeads text bs s t

end

/-- A repetition that only marks another one as lazy leads where the other one leads. -/
theorem leads_marked (text : Array Char) (min : Nat) (max : Option Nat) (body : Node)
    (s : MatchState) :
    Leads text (.repetition 0 (some 1) (.repetition min max body)) s =
      Repeated (Leads text body) min (max.getD (text.size + 1)) s := by
  funext t
  rw [Leads]

theorem leads_repetition {min : Nat} {max : Option Nat} {body : Node}
    (h : ∀ min' max' body', min = 0 → max = some 1 → body = .repetition min' max' body' → False)
    (text : Array Char) (s : MatchState) :
    Leads text (.repetition min max body) s =
      Repeated (Leads text body) min (max.getD (text.size + 1)) s := by
  funext t
  rw [Leads]
  exact h

theorem anyLeads_iff {text : Array Char} {branches : List (List Node)} {s t : MatchState} :
    AnyLeads text branches s t ↔ ∃ b ∈ branches, BranchLeads text b s t := by
  induction branches with
  | nil => simp [AnyLeads]
  | cons b bs ih => simp [AnyLeads, ih]

/-! ## Searches that find what a relation describes -/

/-- Whether a search that comes to an end has found the states that a relation describes. -/
def Finds (search : MatchState → Metered (List MatchState)) (R : MatchState → MatchState → Prop) :
    Prop :=
  ∀ s left found left', search s left = some (found, left') → ∀ t, t ∈ found ↔ R s t

section Loops

variable {search : MatchState → Metered (List MatchState)} {R : MatchState → MatchState → Prop}

/-- **Searching from several states finds what is found from any of them.** -/
theorem mem_gather (h : Finds search R) {found starts ends : List MatchState} {left left' : Nat}
    (hg : gather search found starts left = some (ends, left')) (t : MatchState) :
    t ∈ ends ↔ t ∈ found ∨ ∃ s ∈ starts, R s t := by
  induction starts generalizing found left with
  | nil =>
    cases hg
    simp
  | cons s rest ih =>
    rw [gather] at hg
    split at hg
    · cases hg
    · rename_i more left'' hs
      rw [ih hg, List.reverseAux_eq, List.mem_append, List.mem_reverse, h s left more left'' hs]
      grind

/-- One more round finds the states that move on, or all while there are too few rounds. -/
theorem finds_oneMore (h : Finds search R) (min count : Nat) :
    Finds (oneMore search min count)
      fun s t => R s t ∧ (t.position ≠ s.position ∨ count < min) := by
  intro s left found left' hf t
  unfold oneMore at hf
  split at hf
  · cases hf
  · rename_i hs
    cases hf
    rw [List.mem_filter, h s left _ _ hs]
    simp

/-- The states after `count` rounds are ends if that is enough of them. -/
theorem mem_found {min count : Nat} {found frontier : List MatchState} {t : MatchState} :
    t ∈ (if min ≤ count then frontier.reverseAux found else found) ↔
      t ∈ found ∨ (t ∈ frontier ∧ min ≤ count) := by
  split
  · rename_i hm
    simp [List.reverseAux_eq, hm, or_comm]
  · rename_i hm
    simp [hm]

/-- **A repetition finds where its rounds lead.** -/
theorem mem_repeats (h : Finds search R) {min more count left left' : Nat}
    {found frontier ends : List MatchState}
    (hr : repeats search min more count found frontier left = some (ends, left'))
    (t : MatchState) :
    t ∈ ends ↔ t ∈ found ∨
      ∃ s ∈ frontier, ∃ k, k ≤ more ∧ min ≤ count + k ∧ Rounds R min count k s t := by
  induction more generalizing count found frontier left with
  | zero =>
    rw [repeats] at hr
    cases hr
    rw [mem_distinct, List.mem_reverse, mem_found]
    constructor
    · rintro (ht | ⟨ht, hm⟩)
      · exact .inl ht
      · exact .inr ⟨t, ht, 0, Nat.le_refl 0, hm, rfl⟩
    · rintro (ht | ⟨s, hs, k, hk, hm, hrounds⟩)
      · exact .inl ht
      · obtain rfl := Nat.le_zero.1 hk
        obtain rfl : t = s := hrounds
        exact .inr ⟨hs, hm⟩
  | succ more ih =>
    rw [repeats] at hr
    split at hr
    · rename_i hempty
      cases hr
      rw [mem_distinct, List.mem_reverse, mem_found]
      simp [List.isEmpty_iff.1 hempty]
    · split at hr
      · cases hr
      · rename_i next left'' hg
        rw [ih hr, mem_found]
        simp only [mem_distinct, mem_gather (finds_oneMore h min count) hg, List.not_mem_nil,
          false_or]
        -- an end of no further round is found now, any other is an end of the next frontier
        constructor
        · rintro ((ht | ⟨ht, hm⟩) | ⟨u, ⟨s, hs, hsu, hmove⟩, k, hk, hm, hrounds⟩)
          · exact .inl ht
          · exact .inr ⟨t, ht, 0, Nat.zero_le _, hm, rfl⟩
          · exact .inr ⟨s, hs, k + 1, by omega, by omega, u, hsu, hmove, hrounds⟩
        · rintro (ht | ⟨s, hs, k, hk, hm, hrounds⟩)
          · exact .inl (.inl ht)
          · cases k with
            | zero =>
              obtain rfl : t = s := hrounds
              exact .inl (.inr ⟨hs, hm⟩)
            | succ k =>
              obtain ⟨u, hsu, hmove, hrounds⟩ := hrounds
              exact .inr ⟨u, ⟨s, hs, hsu, hmove⟩, k, by omega, by omega, hrounds⟩

/-- A repetition from its start finds the states it leads to. -/
theorem finds_repeats (h : Finds search R) (min most : Nat) :
    Finds (fun s left => repeats search min most 0 [] [s] left) (Repeated R min most) := by
  intro s left found left' hr t
  rw [mem_repeats h hr]
  simp [Repeated, and_left_comm]

end Loops

/-! ## Nodes -/

/-- The search of a node finds the states it leads to. -/
def Exact (text : Array Char) (n : Node) : Prop :=
  Finds (fun s left => ends text n s left) (Leads text n)

theorem mem_branchEnds_of_exact {text : Array Char} {branch : List Node}
    (h : ∀ n ∈ branch, Exact text n) {frontier found : List MatchState} {left left' : Nat}
    (hb : branchEnds text branch frontier left = some (found, left')) (t : MatchState) :
    t ∈ found ↔ ∃ s ∈ frontier, BranchLeads text branch s t := by
  induction branch generalizing frontier left with
  | nil =>
    rw [branchEnds] at hb
    cases hb
    simp [BranchLeads]
  | cons n ns ih =>
    rw [branchEnds] at hb
    split at hb
    · rename_i hempty
      cases hb
      simp [List.isEmpty_iff.1 hempty]
    · split at hb
      · cases hb
      · rename_i next left'' hg
        rw [ih (fun m hm => h m (List.mem_cons_of_mem n hm)) hb]
        simp only [mem_distinct, mem_gather (h n List.mem_cons_self) hg, List.not_mem_nil, false_or,
          BranchLeads]
        constructor
        · rintro ⟨u, ⟨s, hs, hsu⟩, hut⟩
          exact ⟨s, hs, u, hsu, hut⟩
        · rintro ⟨s, hs, u, hsu, hut⟩
          exact ⟨u, ⟨s, hs, hsu⟩, hut⟩

theorem mem_branchesEnds_of_exact {text : Array Char} {branches : List (List Node)}
    (h : ∀ b ∈ branches, ∀ n ∈ b, Exact text n) {s : MatchState} {found ends : List MatchState}
    {left left' : Nat} (hb : branchesEnds text branches s found left = some (ends, left'))
    (t : MatchState) : t ∈ ends ↔ t ∈ found ∨ AnyLeads text branches s t := by
  induction branches generalizing found left with
  | nil =>
    rw [branchesEnds] at hb
    cases hb
    simp [AnyLeads]
  | cons b bs ih =>
    rw [branchesEnds] at hb
    split at hb
    · cases hb
    · rename_i next left'' hn
      rw [ih (fun c hc => h c (List.mem_cons_of_mem b hc)) hb, List.reverseAux_eq, List.mem_append,
        List.mem_reverse, mem_branchEnds_of_exact (h b List.mem_cons_self) hn, AnyLeads]
      simp [or_assoc, or_left_comm]

/-- Without steps left nothing is found, so only the nodes that are evaluated matter. -/
theorem exact_of_step {text : Array Char} {n : Node}
    (h : ∀ s left found left', ends text n s (left + 1) = some (found, left') →
      ∀ t, t ∈ found ↔ Leads text n s t) : Exact text n := by
  intro s left found left' hf
  cases left with
  | zero =>
    simp only [ends] at hf
    cases hf
  | succ left => exact h s left found left' hf

theorem exact_group {text : Array Char} (kind : GroupKind) {branches : List (List Node)}
    (h : ∀ b ∈ branches, ∀ n ∈ b, Exact text n) : Exact text (.group kind branches) := by
  refine exact_of_step fun s left ends left' hg t => ?_
  rw [Matching.ends] at hg
  split at hg
  · cases hg
  · rename_i found left'' hb
    have hmem : ∀ u, u ∈ found ↔ AnyLeads text branches s u := by
      intro u
      rw [mem_branchesEnds_of_exact h hb]
      simp
    cases kind with
    | capture index =>
      cases hg
      simp only [mem_distinct, List.mem_map, hmem, Leads, eq_comm]
    | plain =>
      cases hg
      rw [hmem, Leads]
    | lookahead negative =>
      cases hg
      have hany : found.isEmpty = false ↔ ∃ u, AnyLeads text branches s u := by
        simp only [← hmem]
        cases found with
        | nil => simp
        | cons u us => simp
      -- nothing is kept of the ways ahead but whether there are any
      rw [Leads, ← hany]
      cases found.isEmpty <;> cases negative <;> simp

/-- **The search of a node finds exactly the states it leads to,** if its steps last. -/
theorem mem_ends (text : Array Char) (n : Node) : Exact text n := by
  induction n with
  | char c =>
    refine exact_of_step fun s left found left' h t => ?_
    rw [ends] at h
    cases h
    rw [Leads]
  | charClass k =>
    refine exact_of_step fun s left found left' h t => ?_
    rw [ends] at h
    cases h
    rw [Leads]
  | anchor a =>
    refine exact_of_step fun s left found left' h t => ?_
    rw [ends] at h
    cases h
    rw [Leads]
    split
    · rename_i ha
      simp [ha]
    · rename_i ha
      simp [ha]
  | backreference index =>
    refine exact_of_step fun s left found left' h t => ?_
    rw [ends] at h
    cases h
    rw [Leads]
  | group kind branches ih => exact exact_group kind ih
  | marked min max body ih =>
    refine exact_of_step fun s left found left' h t => ?_
    rw [leads_marked]
    rw [ends] at h
    exact finds_repeats ih min _ s left found left' h t
  | repetition min max body hm ih =>
    refine exact_of_step fun s left found left' h t => ?_
    rw [leads_repetition hm]
    rw [ends] at h
    · exact finds_repeats ih min _ s left found left' h t
    · exact hm

theorem mem_branchesEnds {text : Array Char} {branches : List (List Node)} {s t : MatchState}
    {ends : List MatchState} {left left' : Nat}
    (h : branchesEnds text branches s [] left = some (ends, left')) :
    t ∈ ends ↔ AnyLeads text branches s t := by
  rw [mem_branchesEnds_of_exact (fun _ _ n _ => mem_ends text n) h]
  simp

/-- A text is decided as the relation says. -/
theorem matches?_eq_some {tree : Tree} {word : List Char} {b : Bool}
    (h : tree.matches? word = some b) :
    b = true ↔ ∃ t, AnyLeads word.toArray tree.branches (.start tree.captures) t ∧
      t.position = word.length := by
  unfold Tree.matches? at h
  simp only at h
  split at h
  · cases h
  · rename_i found left hf
    cases h
    simp [List.any_eq_true, mem_branchesEnds hf]

/-! ## What a step leaves alone -/

/-- A state after another in a text, with nothing captured in between but the groups with some
indices. -/
structure Follows (text : Array Char) (indices : List Nat) (s t : MatchState) : Prop where
  forward : s.position ≤ t.position
  inside : s.position ≤ text.size → t.position ≤ text.size
  places : t.captures.length = s.captures.length
  kept : ∀ index, index ∉ indices → t.captured? index = s.captured? index

namespace Follows

variable {text : Array Char} {indices indices' : List Nat} {s t u : MatchState}

theorem refl (s : MatchState) : Follows text indices s s :=
  ⟨Nat.le_refl _, id, rfl, fun _ _ => rfl⟩

theorem trans (h : Follows text indices s t) (h' : Follows text indices t u) :
    Follows text indices s u where
  forward := Nat.le_trans h.forward h'.forward
  inside hs := h'.inside (h.inside hs)
  places := h'.places.trans h.places
  kept index hi := (h'.kept index hi).trans (h.kept index hi)

theorem mono (h : Follows text indices s t) (hi : ∀ i ∈ indices, i ∈ indices') :
    Follows text indices' s t where
  forward := h.forward
  inside := h.inside
  places := h.places
  kept index hn := h.kept index fun hm => hn (hi index hm)

theorem advance {count : Nat} (h : s.position + count ≤ text.size) :
    Follows text indices s (s.advance count) :=
  ⟨Nat.le_add_right s.position count, fun _ => h, rfl, fun _ _ => rfl⟩

theorem capture {index : Nat} (h : Follows text indices s t) (hi : index ∈ indices) :
    Follows text indices s (s.capture index t) where
  forward := h.forward
  inside := h.inside
  places := by simp [MatchState.capture, h.places]
  kept other ho := by
    have hne : index ≠ other := fun he => ho (he ▸ hi)
    rw [← h.kept other ho]
    simp [MatchState.captured?, MatchState.capture, List.getElem?_set_ne hne]

theorem consume {test : Char → Bool} (h : t ∈ consume text test s) : Follows text indices s t := by
  unfold Matching.consume at h
  split at h
  · rename_i c hc
    split at h
    · obtain rfl := List.mem_singleton.1 h
      have := (Array.getElem?_eq_some_iff.1 hc).1
      exact advance (by omega)
    · cases h
  · cases h

theorem repeatCaptured {index : Nat} (h : t ∈ repeatCaptured text index s) :
    Follows text indices s t := by
  unfold Matching.repeatCaptured at h
  split at h
  · obtain rfl := List.mem_singleton.1 h
    exact refl t
  · simp only at h
    split at h
    · rename_i hin
      obtain rfl := List.mem_singleton.1 h
      exact advance hin.1
    · cases h

theorem rounds {R : MatchState → MatchState → Prop} {min count k : Nat}
    (hR : ∀ s t, R s t → Follows text indices s t) (h : Rounds R min count k s t) :
    Follows text indices s t := by
  induction k generalizing count s with
  | zero =>
    obtain rfl : t = s := h
    exact refl t
  | succ k ih =>
    obtain ⟨u, hu, -, hrest⟩ := h
    exact (hR s u hu).trans (ih hrest)

end Follows

section Frame

variable {text : Array Char}

theorem BranchLeads.follows {branch : List Node} {s t : MatchState} {indices : List Nat}
    (h : ∀ n ∈ branch, ∀ s t, Leads text n s t → Follows text (captureIndices n.nodes) s t)
    (hi : ∀ i ∈ captureIndices (branchNodes branch), i ∈ indices)
    (hb : BranchLeads text branch s t) : Follows text indices s t := by
  induction branch generalizing s with
  | nil =>
    obtain rfl : t = s := hb
    exact Follows.refl t
  | cons n ns ih =>
    obtain ⟨u, hu, hrest⟩ := hb
    simp only [branchNodes, captureIndices_append, List.mem_append] at hi
    refine ((h n List.mem_cons_self s u hu).mono fun i hn => hi i (.inl hn)).trans ?_
    exact ih (fun m hm => h m (List.mem_cons_of_mem n hm)) (fun i hn => hi i (.inr hn)) hrest

theorem AnyLeads.follows_of {branches : List (List Node)} {s t : MatchState} {indices : List Nat}
    (h : ∀ b ∈ branches, ∀ n ∈ b, ∀ s t, Leads text n s t →
      Follows text (captureIndices n.nodes) s t)
    (hi : ∀ i ∈ captureIndices (branchesNodes branches), i ∈ indices)
    (hb : AnyLeads text branches s t) : Follows text indices s t := by
  obtain ⟨b, hmem, hb⟩ := anyLeads_iff.1 hb
  refine BranchLeads.follows (h b hmem) (fun i hn => hi i ?_) hb
  exact captureIndices_subset (fun m hm => mem_branchesNodes.2 ⟨b, hmem, hm⟩) i hn

/-- **A node moves on within the text and captures only its own groups.** -/
theorem Leads.follows {n : Node} {s t : MatchState} (h : Leads text n s t) :
    Follows text (captureIndices n.nodes) s t := by
  induction n generalizing s t with
  | char c =>
    rw [Leads] at h
    exact .consume h
  | charClass k =>
    rw [Leads] at h
    exact .consume h
  | anchor a =>
    rw [Leads] at h
    obtain ⟨-, rfl⟩ := h
    exact .refl t
  | backreference index =>
    rw [Leads] at h
    exact .repeatCaptured h
  | group kind branches ih =>
    cases kind with
    | capture index =>
      rw [Leads] at h
      obtain ⟨u, hu, rfl⟩ := h
      rw [captureIndices_capture]
      refine (hu.follows_of (fun b hb n hn s t => ih b hb n hn) fun i hi => ?_).capture ?_
      · exact List.mem_cons_of_mem index hi
      · exact List.mem_cons_self
    | plain =>
      rw [Leads] at h
      exact h.follows_of (fun b hb n hn s t => ih b hb n hn) fun i hi => hi
    | lookahead negative =>
      rw [Leads] at h
      obtain ⟨-, rfl⟩ := h
      exact .refl t
  | marked min max body ih =>
    rw [leads_marked] at h
    obtain ⟨k, -, -, hk⟩ := h
    exact Follows.rounds (fun s t => ih) hk
  | repetition min max body hm ih =>
    rw [leads_repetition hm] at h
    obtain ⟨k, -, -, hk⟩ := h
    exact Follows.rounds (fun s t => ih) hk

theorem AnyLeads.follows {branches : List (List Node)} {s t : MatchState}
    (h : AnyLeads text branches s t) :
    Follows text (captureIndices (branchesNodes branches)) s t :=
  h.follows_of (fun _ _ _ _ _ _ => Leads.follows) fun _ hi => hi

end Frame

end SequenceConstraint.Matching
