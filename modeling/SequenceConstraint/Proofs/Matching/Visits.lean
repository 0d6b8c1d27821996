import SequenceConstraint.Proofs.Matching.Leads

/-!
# What a search comes across

On its way a search evaluates nodes, each from a state that it has come to before. These evaluations
are its *visits*, those of a search that gives up included (`visits`); there is one for each step
that is spent. Whatever a node keeps true of states is therefore true of all states that a search
comes across, on every text and for every tree: groups and references may have any indices, bounds
may be in the wrong order.

What is kept is that a state lies in the text, has its places for captures, and that what has been
captured lies before it. This is what makes it safe to cut captured parts out of the text.

## Main statements

* `length_visits`, `length_branchesVisits` — there is one visit for each step
* `forall_visits` — what every node keeps holds in every visit
* `Leads.proper` — every node keeps states proper
* `Tree.visits_proper` — all states that a search comes across are proper
-/

namespace SequenceConstraint

namespace Matching

/-! ## Visits -/

/-- The evaluation of a node from a state, with some steps left. -/
structure Visit where
  node : Node
  state : MatchState
  left : Nat
deriving DecidableEq

/-- The visits of a search from each of some states. -/
def gatherVisits (search : MatchState → Metered (List MatchState))
    (visits : MatchState → Nat → List Visit) : (starts : List MatchState) → Nat → List Visit
  | [], _ => []
  | s :: rest, left =>
    visits s left ++
      match search s left with
      | none => []
      | some (_, left) => gatherVisits search visits rest left

/-- The visits of up to `more` repeats. -/
def repeatsVisits (search : MatchState → Metered (List MatchState))
    (visits : MatchState → Nat → List Visit) (min : Nat) :
    (more count : Nat) → (frontier : List MatchState) → Nat → List Visit
  | 0, _, _, _ => []
  | more + 1, count, frontier, left =>
    if frontier.isEmpty then []
    else
      gatherVisits (oneMore search min count) visits frontier left ++
        match gather (oneMore search min count) [] frontier left with
        | none => []
        | some (next, left) =>
          repeatsVisits search visits min more (count + 1) (distinct next) left

mutual

/-- The visits that the evaluation of a node makes, its own first. Without a step left for it there
is none. -/
def visits (text : Array Char) : Node → MatchState → Nat → List Visit
  | _, _, 0 => []
  | .group kind branches, s, left + 1 =>
    ⟨.group kind branches, s, left + 1⟩ :: branchesVisits text branches s left
  | .repetition 0 (some 1) (.repetition min max body), s, left + 1 =>
    ⟨.repetition 0 (some 1) (.repetition min max body), s, left + 1⟩ ::
      repeatsVisits (fun s left => ends text body s left) (fun s left => visits text body s left)
        min (max.getD (text.size + 1)) 0 [s] left
  | .repetition min max body, s, left + 1 =>
    ⟨.repetition min max body, s, left + 1⟩ ::
      repeatsVisits (fun s left => ends text body s left) (fun s left => visits text body s left)
        min (max.getD (text.size + 1)) 0 [s] left
  | n, s, left + 1 => [⟨n, s, left + 1⟩]

def branchVisits (text : Array Char) : List Node → List MatchState → Nat → List Visit
  | [], _, _ => []
  | node :: nodes, frontier, left =>
    if frontier.isEmpty then []
    else
      gatherVisits (fun s left => ends text node s left) (fun s left => visits text node s left)
          frontier left ++
        match gather (fun s left => ends text node s left) [] frontier left with
        | none => []
        | some (next, left) => branchVisits text nodes (distinct next) left

def branchesVisits (text : Array Char) : List (List Node) → MatchState → Nat → List Visit
  | [], _, _ => []
  | branch :: branches, s, left =>
    branchVisits text branch [s] left ++
      match branchEnds text branch [s] left with
      | none => []
      | some (_, left) => branchesVisits text branches s left

end

/-! ## One visit for each step -/

/-- The number of steps that a search leaves. If it gives up it has spent all. -/
def remaining {α : Type} : Option (α × Nat) → Nat
  | none => 0
  | some (_, left) => left

/-- Whether there is one visit for each step of a search. -/
def Accounts (search : MatchState → Metered (List MatchState))
    (visits : MatchState → Nat → List Visit) : Prop :=
  ∀ s left, (visits s left).length + remaining (search s left) = left

section Loops

variable {search : MatchState → Metered (List MatchState)} {visits : MatchState → Nat → List Visit}

theorem length_gatherVisits (h : Accounts search visits) (found starts : List MatchState)
    (left : Nat) :
    (gatherVisits search visits starts left).length + remaining (gather search found starts left) =
      left := by
  induction starts generalizing found left with
  | nil => exact Nat.zero_add left
  | cons s rest ih =>
    have hs := h s left
    rw [gatherVisits, gather, List.length_append]
    cases hsearch : search s left with
    | none =>
      rw [hsearch] at hs
      exact hs
    | some result =>
      obtain ⟨ends, left'⟩ := result
      rw [hsearch] at hs
      have hrest := ih (ends.reverseAux found) left'
      simp only [remaining] at hs hrest ⊢
      omega

theorem accounts_oneMore (h : Accounts search visits) (min count : Nat) :
    Accounts (oneMore search min count) visits := by
  intro s left
  have hs := h s left
  unfold oneMore
  cases hsearch : search s left with
  | none =>
    rw [hsearch] at hs
    exact hs
  | some result =>
    rw [hsearch] at hs
    exact hs

theorem length_repeatsVisits (h : Accounts search visits) (min more count : Nat)
    (found frontier : List MatchState) (left : Nat) :
    (repeatsVisits search visits min more count frontier left).length +
      remaining (repeats search min more count found frontier left) = left := by
  induction more generalizing count found frontier left with
  | zero => exact Nat.zero_add left
  | succ more ih =>
    rw [repeatsVisits, repeats]
    split
    · exact Nat.zero_add left
    · have hone := length_gatherVisits (accounts_oneMore h min count) [] frontier left
      rw [List.length_append]
      cases hgather : gather (oneMore search min count) [] frontier left with
      | none =>
        rw [hgather] at hone
        exact hone
      | some result =>
        obtain ⟨next, left'⟩ := result
        rw [hgather] at hone
        have hrest := ih (count + 1) (if min ≤ count then frontier.reverseAux found else found)
          (distinct next) left'
        simp only [remaining] at hone hrest ⊢
        omega

end Loops

section Length

variable {text : Array Char}

/-- Whether the evaluation of a node makes one visit for each step. -/
def Accounted (text : Array Char) (n : Node) : Prop :=
  Accounts (fun s left => ends text n s left) fun s left => visits text n s left

theorem length_branchVisits_of {branch : List Node} (h : ∀ n ∈ branch, Accounted text n)
    (frontier : List MatchState) (left : Nat) :
    (branchVisits text branch frontier left).length +
      remaining (branchEnds text branch frontier left) = left := by
  induction branch generalizing frontier left with
  | nil =>
    rw [branchVisits, branchEnds]
    exact Nat.zero_add left
  | cons n ns ih =>
    obtain ⟨hn, hns⟩ := List.forall_mem_cons.1 h
    rw [branchVisits, branchEnds]
    split
    · exact Nat.zero_add left
    · have hone := length_gatherVisits hn [] frontier left
      rw [List.length_append]
      cases hgather : gather (fun s left => ends text n s left) [] frontier left with
      | none =>
        rw [hgather] at hone
        exact hone
      | some result =>
        obtain ⟨next, left'⟩ := result
        rw [hgather] at hone
        have hrest := ih hns (distinct next) left'
        simp only [remaining] at hone hrest ⊢
        omega

theorem length_branchesVisits_of {branches : List (List Node)}
    (h : ∀ b ∈ branches, ∀ n ∈ b, Accounted text n) (s : MatchState) (found : List MatchState)
    (left : Nat) :
    (branchesVisits text branches s left).length +
      remaining (branchesEnds text branches s found left) = left := by
  induction branches generalizing found left with
  | nil =>
    rw [branchesVisits, branchesEnds]
    exact Nat.zero_add left
  | cons b bs ih =>
    obtain ⟨hb, hbs⟩ := List.forall_mem_cons.1 h
    have hone := length_branchVisits_of hb [s] left
    rw [branchesVisits, branchesEnds, List.length_append]
    cases hends : branchEnds text b [s] left with
    | none =>
      rw [hends] at hone
      exact hone
    | some result =>
      obtain ⟨next, left'⟩ := result
      rw [hends] at hone
      have hrest := ih hbs (next.reverseAux found) left'
      simp only [remaining] at hone hrest ⊢
      omega

/-- A visit takes a step, and the others are made with the steps left then. -/
theorem accounted_of_step {n : Node}
    (h : ∀ s left, (visits text n s (left + 1)).length +
      remaining (ends text n s (left + 1)) = left + 1) : Accounted text n := by
  intro s left
  cases left with
  | zero => simp [visits, ends, remaining]
  | succ left => exact h s left

/-- **There is one visit for each step** of the evaluation of a node. -/
theorem length_visits (n : Node) : Accounted text n := by
  induction n with
  | char c => exact accounted_of_step fun s left => by simp [visits, ends, remaining, Nat.add_comm]
  | charClass k =>
    exact accounted_of_step fun s left => by simp [visits, ends, remaining, Nat.add_comm]
  | anchor a =>
    exact accounted_of_step fun s left => by simp [visits, ends, remaining, Nat.add_comm]
  | backreference index =>
    exact accounted_of_step fun s left => by simp [visits, ends, remaining, Nat.add_comm]
  | group kind branches ih =>
    refine accounted_of_step fun s left => ?_
    have hbody := length_branchesVisits_of ih s [] left
    rw [visits, ends, List.length_cons]
    cases hends : branchesEnds text branches s [] left with
    | none =>
      rw [hends] at hbody
      simp only [remaining] at hbody ⊢
      omega
    | some result =>
      obtain ⟨found, left'⟩ := result
      rw [hends] at hbody
      cases kind <;> simp only [remaining] at hbody ⊢ <;> omega
  | marked min max body ih =>
    refine accounted_of_step fun s left => ?_
    have hbody := length_repeatsVisits ih min (max.getD (text.size + 1)) 0 [] [s] left
    rw [visits, ends, List.length_cons]
    omega
  | repetition min max body hm ih =>
    refine accounted_of_step fun s left => ?_
    have hbody := length_repeatsVisits ih min (max.getD (text.size + 1)) 0 [] [s] left
    rw [visits, ends, List.length_cons]
    · omega
    · exact hm
    · exact hm

theorem length_branchesVisits (branches : List (List Node)) (s : MatchState) (left : Nat) :
    (branchesVisits text branches s left).length +
      remaining (branchesEnds text branches s [] left) = left :=
  length_branchesVisits_of (fun _ _ n _ => length_visits n) s [] left

end Length

/-! ## What every node keeps -/

/-- Whether a relation on states keeps a property of them. -/
def Keeps (P : MatchState → Prop) (R : MatchState → MatchState → Prop) : Prop :=
  ∀ s t, R s t → P s → P t

section Keeps

variable {P : MatchState → Prop} {R : MatchState → MatchState → Prop} {text : Array Char}
  {search : MatchState → Metered (List MatchState)} {visitsOf : MatchState → Nat → List Visit}

theorem Keeps.rounds (h : Keeps P R) {min count k : Nat} : Keeps P (Rounds R min count k) := by
  intro s t hrounds hs
  induction k generalizing count s with
  | zero =>
    obtain rfl : t = s := hrounds
    exact hs
  | succ k ih =>
    obtain ⟨u, hu, -, hrest⟩ := hrounds
    exact ih u hrest (h s u hu hs)

theorem Keeps.repeated (h : Keeps P R) {min most : Nat} : Keeps P (Repeated R min most) :=
  fun s t ⟨_, _, _, hk⟩ hs => h.rounds s t hk hs

theorem keeps_branchLeads {branch : List Node} (h : ∀ n ∈ branch, Keeps P (Leads text n)) :
    Keeps P (BranchLeads text branch) := by
  induction branch with
  | nil =>
    rintro s t rfl hs
    exact hs
  | cons n ns ih =>
    obtain ⟨hn, hns⟩ := List.forall_mem_cons.1 h
    rintro s t ⟨u, hu, hrest⟩ hs
    exact ih hns u t hrest (hn s u hu hs)

theorem keeps_anyLeads {branches : List (List Node)}
    (h : ∀ b ∈ branches, ∀ n ∈ b, Keeps P (Leads text n)) : Keeps P (AnyLeads text branches) := by
  intro s t ht hs
  obtain ⟨b, hb, ht⟩ := anyLeads_iff.1 ht
  exact keeps_branchLeads (h b hb) s t ht hs

/-- Whether all visits that are made from states with a property are made in such states. -/
def Stays (P : MatchState → Prop) (visitsOf : MatchState → Nat → List Visit) : Prop :=
  ∀ s left, P s → ∀ v ∈ visitsOf s left, P v.state

theorem forall_gatherVisits (h : Stays P visitsOf) {starts : List MatchState}
    (hstarts : ∀ s ∈ starts, P s) (left : Nat) :
    ∀ v ∈ gatherVisits search visitsOf starts left, P v.state := by
  induction starts generalizing left with
  | nil => simp [gatherVisits]
  | cons s rest ih =>
    obtain ⟨hs, hrest⟩ := List.forall_mem_cons.1 hstarts
    rw [gatherVisits, List.forall_mem_append]
    refine ⟨h s left hs, ?_⟩
    split
    · simp
    · exact ih hrest _

/-- What is gathered has a property that a search keeps. -/
theorem forall_gather (hfinds : Finds search R) (hkeeps : Keeps P R)
    {starts ends : List MatchState} {left left' : Nat} (hstarts : ∀ s ∈ starts, P s)
    (hg : gather search [] starts left = some (ends, left')) : ∀ t ∈ distinct ends, P t := by
  intro t ht
  rw [mem_distinct, mem_gather hfinds hg] at ht
  obtain ⟨s, hs, hst⟩ := ht.resolve_left List.not_mem_nil
  exact hkeeps s t hst (hstarts s hs)

theorem forall_repeatsVisits (hfinds : Finds search R) (hkeeps : Keeps P R)
    (h : Stays P visitsOf) (min more count : Nat) {frontier : List MatchState}
    (hfrontier : ∀ s ∈ frontier, P s) (left : Nat) :
    ∀ v ∈ repeatsVisits search visitsOf min more count frontier left, P v.state := by
  induction more generalizing count frontier left with
  | zero => simp [repeatsVisits]
  | succ more ih =>
    rw [repeatsVisits]
    split
    · simp
    · rw [List.forall_mem_append]
      refine ⟨forall_gatherVisits h hfrontier left, ?_⟩
      split
      · simp
      · rename_i next left' hg
        exact ih (count + 1) (forall_gather (finds_oneMore hfinds min count)
          (fun s t hst => hkeeps s t hst.1) hfrontier hg) left'

theorem forall_branchVisits_of (hkeeps : ∀ n, Keeps P (Leads text n)) {branch : List Node}
    (h : ∀ n ∈ branch, Stays P fun s left => visits text n s left) {frontier : List MatchState}
    (hfrontier : ∀ s ∈ frontier, P s) (left : Nat) :
    ∀ v ∈ branchVisits text branch frontier left, P v.state := by
  induction branch generalizing frontier left with
  | nil => simp [branchVisits]
  | cons n ns ih =>
    obtain ⟨hn, hns⟩ := List.forall_mem_cons.1 h
    rw [branchVisits]
    split
    · simp
    · rw [List.forall_mem_append]
      refine ⟨forall_gatherVisits hn hfrontier left, ?_⟩
      split
      · simp
      · rename_i next left' hg
        exact ih hns (forall_gather (mem_ends text n) (hkeeps n) hfrontier hg) left'

theorem forall_branchesVisits_of (hkeeps : ∀ n, Keeps P (Leads text n))
    {branches : List (List Node)}
    (h : ∀ b ∈ branches, ∀ n ∈ b, Stays P fun s left => visits text n s left) {s : MatchState}
    (hs : P s) (left : Nat) : ∀ v ∈ branchesVisits text branches s left, P v.state := by
  induction branches generalizing left with
  | nil => simp [branchesVisits]
  | cons b bs ih =>
    obtain ⟨hb, hbs⟩ := List.forall_mem_cons.1 h
    rw [branchesVisits, List.forall_mem_append]
    refine ⟨forall_branchVisits_of hkeeps hb (by simpa using hs) left, ?_⟩
    split
    · simp
    · exact ih hbs _

/-- **What every node keeps holds in every visit.** -/
theorem forall_visits (hkeeps : ∀ n, Keeps P (Leads text n)) (n : Node) :
    Stays P fun s left => visits text n s left := by
  induction n with
  | char c =>
    intro s left hs
    cases left <;> simp [visits, hs]
  | charClass k =>
    intro s left hs
    cases left <;> simp [visits, hs]
  | anchor a =>
    intro s left hs
    cases left <;> simp [visits, hs]
  | backreference index =>
    intro s left hs
    cases left <;> simp [visits, hs]
  | group kind branches ih =>
    intro s left hs
    cases left with
    | zero => simp [visits]
    | succ left =>
      simp only [visits, List.forall_mem_cons]
      exact ⟨hs, forall_branchesVisits_of hkeeps ih hs left⟩
  | marked min max body ih =>
    intro s left hs
    cases left with
    | zero => simp [visits]
    | succ left =>
      simp only [visits, List.forall_mem_cons]
      exact ⟨hs, forall_repeatsVisits (mem_ends text body) (hkeeps body) ih min _ 0
        (by simpa using hs) left⟩
  | repetition min max body hm ih =>
    intro s left hs
    cases left with
    | zero => simp [visits]
    | succ left =>
      show ∀ v ∈ visits text (.repetition min max body) s (left + 1), P v.state
      rw [visits, List.forall_mem_cons]
      · exact ⟨hs, forall_repeatsVisits (mem_ends text body) (hkeeps body) ih min _ 0
          (by simpa using hs) left⟩
      · exact hm

theorem forall_branchesVisits (hkeeps : ∀ n, Keeps P (Leads text n)) (branches : List (List Node))
    {s : MatchState} (hs : P s) (left : Nat) :
    ∀ v ∈ branchesVisits text branches s left, P v.state :=
  forall_branchesVisits_of hkeeps (fun _ _ n _ => forall_visits hkeeps n) hs left

end Keeps

end Matching

/-! ## Proper states -/

/-- Whether a state lies in a text, has a place for each group, and what has been captured is a part
of the text before it. -/
structure MatchState.Proper (size captures : Nat) (s : MatchState) : Prop where
  inside : s.position ≤ size
  places : s.captures.length = captures + 1
  spans : ∀ span, some span ∈ s.captures → span.start ≤ span.stop ∧ span.stop ≤ s.position

theorem MatchState.proper_start (size captures : Nat) :
    (MatchState.start captures).Proper size captures where
  inside := Nat.zero_le size
  places := List.length_replicate
  spans span hspan := by cases List.eq_of_mem_replicate hspan

theorem MatchState.mem_captures_of_captured? {s : MatchState} {index : Nat} {span : Span}
    (h : s.captured? index = some span) : some span ∈ s.captures := by
  rw [captured?, Option.join_eq_some_iff] at h
  exact List.mem_of_getElem? h

namespace Matching

variable {text : Array Char} {s t : MatchState}

/-- Whether what has been captured lies before a state. -/
def Behind (s : MatchState) : Prop :=
  ∀ span, some span ∈ s.captures → span.start ≤ span.stop ∧ span.stop ≤ s.position

theorem Behind.of_captures (h : Behind s) (hcaptures : t.captures = s.captures)
    (hforward : s.position ≤ t.position) : Behind t := by
  intro span hspan
  rw [hcaptures] at hspan
  obtain ⟨horder, hstop⟩ := h span hspan
  exact ⟨horder, Nat.le_trans hstop hforward⟩

/-- What a group captures lies between the state before it and the state after it. -/
theorem Behind.capture {index : Nat} (h : Behind t) (hforward : s.position ≤ t.position) :
    Behind (s.capture index t) := by
  intro span hspan
  rcases List.mem_or_eq_of_mem_set hspan with hspan | hspan
  · exact h span hspan
  · cases hspan
    exact ⟨hforward, Nat.le_refl _⟩

theorem captures_consume {test : Char → Bool} (h : t ∈ consume text test s) :
    t.captures = s.captures := by
  unfold consume at h
  split at h
  · split at h
    · obtain rfl := List.mem_singleton.1 h
      rfl
    · cases h
  · cases h

theorem captures_repeatCaptured {index : Nat} (h : t ∈ repeatCaptured text index s) :
    t.captures = s.captures := by
  unfold repeatCaptured at h
  split at h
  · obtain rfl := List.mem_singleton.1 h
    rfl
  · simp only at h
    split at h
    · obtain rfl := List.mem_singleton.1 h
      rfl
    · cases h

theorem keeps_behind (n : Node) : Keeps Behind (Leads text n) := by
  induction n with
  | char c =>
    intro s t h hs
    have hforward := h.follows.forward
    rw [Leads] at h
    exact hs.of_captures (captures_consume h) hforward
  | charClass k =>
    intro s t h hs
    have hforward := h.follows.forward
    rw [Leads] at h
    exact hs.of_captures (captures_consume h) hforward
  | anchor a =>
    intro s t h hs
    rw [Leads] at h
    exact h.2 ▸ hs
  | backreference index =>
    intro s t h hs
    have hforward := h.follows.forward
    rw [Leads] at h
    exact hs.of_captures (captures_repeatCaptured h) hforward
  | group kind branches ih =>
    intro s t h hs
    cases kind with
    | capture index =>
      rw [Leads] at h
      obtain ⟨u, hu, rfl⟩ := h
      exact (keeps_anyLeads ih s u hu hs).capture hu.follows.forward
    | plain =>
      rw [Leads] at h
      exact keeps_anyLeads ih s t h hs
    | lookahead negative =>
      rw [Leads] at h
      exact h.2 ▸ hs
  | marked min max body ih =>
    intro s t h hs
    rw [leads_marked] at h
    exact ih.repeated s t h hs
  | repetition min max body hm ih =>
    intro s t h hs
    rw [leads_repetition hm] at h
    exact ih.repeated s t h hs

/-- **Every node keeps states proper.** -/
theorem keeps_proper (captures : Nat) (n : Node) :
    Keeps (MatchState.Proper text.size captures) (Leads text n) := fun s t h hs =>
  ⟨h.follows.inside hs.inside, h.follows.places.trans hs.places, keeps_behind n s t h hs.spans⟩

end Matching

open Matching

/-- The visits of the search for a text with a number of steps. -/
def Tree.visits (tree : Tree) (word : List Char) (limit : Nat) : List Visit :=
  branchesVisits word.toArray tree.branches (.start tree.captures) limit

/-- **All states that a search comes across are proper,** whether or not it gives up. There is one
visit for each step that it spends, a node does not lead back, and a captured part that a reference
asks for lies in the text. -/
theorem Tree.visits_proper (tree : Tree) (word : List Char) (limit : Nat) :
    ((tree.visits word limit).length +
      remaining (branchesEnds word.toArray tree.branches (.start tree.captures) [] limit) = limit) ∧
    (∀ v ∈ tree.visits word limit,
      v.state.Proper word.length tree.captures ∧
      (∀ found left, ends word.toArray v.node v.state v.left = some (found, left) →
        ∀ t ∈ found, t.Proper word.length tree.captures ∧ v.state.position ≤ t.position) ∧
      ∀ index span, v.node = .backreference index → v.state.captured? index = some span →
        span.start ≤ span.stop ∧ span.stop ≤ word.length) ∧
    ∀ found left,
      branchesEnds word.toArray tree.branches (.start tree.captures) [] limit = some (found, left) →
        ∀ t ∈ found, t.Proper word.length tree.captures := by
  have hkeeps : ∀ n, Matching.Keeps (MatchState.Proper word.length tree.captures)
      (Leads word.toArray n) := keeps_proper tree.captures
  have hstart : (MatchState.start tree.captures).Proper word.length tree.captures :=
    MatchState.proper_start _ _
  refine ⟨length_branchesVisits tree.branches _ limit, fun v hv => ?_, fun found left h t ht => ?_⟩
  · have hproper := forall_branchesVisits hkeeps tree.branches hstart limit v hv
    refine ⟨hproper, fun found left h t ht => ?_, fun index span _ hspan => ?_⟩
    · have hleads := (mem_ends word.toArray v.node v.state v.left found left h t).1 ht
      exact ⟨hkeeps v.node v.state t hleads hproper, hleads.follows.forward⟩
    · obtain ⟨horder, hstop⟩ := hproper.spans span (MatchState.mem_captures_of_captured? hspan)
      exact ⟨horder, Nat.le_trans hstop hproper.inside⟩
  · have hleads := (mem_branchesEnds h).1 ht
    exact keeps_anyLeads (fun _ _ n _ => hkeeps n) _ t hleads hstart

/-- The tree of `(A|AA)(\1{1,2})B*|A{3,1}` with one capture, an index that has no place and bounds
in the wrong order. -/
def misnumbered : Tree :=
  ⟨[[.group (.capture 1) [[.char 'A'], [.char 'A', .char 'A']],
    .group (.capture 7) [[.repetition 1 (some 2) (.backreference 1)]],
    .repetition 0 none (.char 'B')], [.repetition 3 (some 1) (.char 'A')]], 1⟩

theorem Tree.visits_proper_misnumbered : ∃ v ∈ misnumbered.visits ['A', 'A', 'A', 'B'] 100,
    v.node = .backreference 1 ∧ v.state.captured? 1 = some ⟨0, 2⟩ ∧ v.state.Proper 4 1 ∧
      2 ≤ ['A', 'A', 'A', 'B'].length := by
  have hv : ⟨.backreference 1, ⟨2, [none, some ⟨0, 2⟩]⟩, 90⟩ ∈
      misnumbered.visits ['A', 'A', 'A', 'B'] 100 := by decide +kernel
  obtain ⟨-, hvisits, -⟩ := misnumbered.visits_proper ['A', 'A', 'A', 'B'] 100
  obtain ⟨hproper, -, hspan⟩ := hvisits _ hv
  exact ⟨_, hv, rfl, rfl, hproper, (hspan 1 ⟨0, 2⟩ rfl rfl).2⟩

end SequenceConstraint
