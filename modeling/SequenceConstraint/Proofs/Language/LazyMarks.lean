import SequenceConstraint.Matching
import SequenceConstraint.Proofs.Language.Generated
import SequenceConstraint.Proofs.Syntax.WellFormed

/-!
# Trees without lazy marks

Each reader of trees looks through the mark of a lazy quantifier on its own, and only through one
(`Node.withoutLazyMark`). Taking all marks out of a tree beforehand (`Tree.unmarked`) makes no
difference to any of them if the tree has been read from a text: there a repetition is marked at
most once, and is the body of no other repetition (`Node.MarkedOnce`).

The search makes the same steps, so it decides the same texts and gives up on the same. The plan may
well be another one: branches that differ by a mark alone become one branch. Its texts stay those of
the same language.

## Main statements

* `Tree.withoutLazyMark_of_mem_unmarked`, `Tree.unmarked_eq_self` — all marks are taken out, and
  nothing else
* `Matching.ends_unmarked`, `Node.language_unmarked` — what the readers make of a node
* `Tree.unmarked_inert` — a tree that has been read and the one without its marks match the same
  texts and produce the same texts
-/

namespace SequenceConstraint

/-! ## Taking marks out -/

mutual

/-- A node without the lazy marks in it, from the inside out. -/
def Node.unmarked : Node → Node
  | .char c => .char c
  | .charClass k => .charClass k
  | .anchor a => .anchor a
  | .backreference index => .backreference index
  | .group kind branches => .group kind (unmarkedBranches branches)
  | .repetition min max body => (Node.repetition min max body.unmarked).withoutLazyMark

def unmarkedBranch : List Node → List Node
  | [] => []
  | n :: ns => n.unmarked :: unmarkedBranch ns

def unmarkedBranches : List (List Node) → List (List Node)
  | [] => []
  | b :: bs => unmarkedBranch b :: unmarkedBranches bs

end

/-- A tree without lazy marks. -/
def Tree.unmarked (tree : Tree) : Tree := ⟨unmarkedBranches tree.branches, tree.captures⟩

theorem unmarkedBranch_eq_map (b : List Node) : unmarkedBranch b = b.map Node.unmarked := by
  induction b with
  | nil => rfl
  | cons n ns ih => rw [unmarkedBranch, ih, List.map_cons]

theorem unmarkedBranches_eq_map (bs : List (List Node)) :
    unmarkedBranches bs = bs.map (List.map Node.unmarked) := by
  induction bs with
  | nil => rfl
  | cons b bs ih => rw [unmarkedBranches, unmarkedBranch_eq_map, ih, List.map_cons]

theorem unmarkedBranches_eq_self {bs : List (List Node)} (h : ∀ b ∈ bs, ∀ n ∈ b, n.unmarked = n) :
    unmarkedBranches bs = bs := by
  have hbranch : ∀ b ∈ bs, b.map Node.unmarked = b := by
    intro b hb
    rw [List.map_congr_left (h b hb), List.map_id']
  rw [unmarkedBranches_eq_map, List.map_congr_left hbranch, List.map_id']

namespace Node

/-- A repetition is a mark around another one, or it stays. -/
theorem withoutLazyMark_eq (min : Nat) (max : Option Nat) (body : Node) :
    body.IsRepetition ∧ (repetition min max body).withoutLazyMark = body ∨
      (repetition min max body).withoutLazyMark = repetition min max body := by
  unfold withoutLazyMark
  split
  · rename_i heq
    cases heq
    exact .inl ⟨trivial, rfl⟩
  · exact .inr rfl

theorem withoutLazyMark_of_not_isRepetition {min : Nat} {max : Option Nat} {body : Node}
    (h : ¬body.IsRepetition) :
    (repetition min max body).withoutLazyMark = repetition min max body :=
  (withoutLazyMark_eq min max body).resolve_left fun hmark => h hmark.1

theorem isRepetition_unmarked (n : Node) : n.unmarked.IsRepetition ↔ n.IsRepetition := by
  cases n with
  | repetition min max body =>
    rcases withoutLazyMark_eq min max body.unmarked with ⟨hbody, heq⟩ | heq
    · rw [unmarked, heq]
      exact iff_of_true hbody trivial
    · rw [unmarked, heq]
      exact Iff.rfl
  | _ => exact Iff.rfl

theorem IsRepetition.isLookahead {n : Node} (h : n.IsRepetition) : n.isLookahead = false := by
  cases n with
  | repetition min max body => rfl
  | _ => exact h.elim

theorem isLookahead_unmarked (n : Node) : n.unmarked.isLookahead = n.isLookahead := by
  cases n with
  | repetition min max body =>
    exact ((isRepetition_unmarked (repetition min max body)).2 trivial).isLookahead
  | _ => rfl

/-! ### What is left -/

theorem withoutLazyMark_unmarked (n : Node) : n.unmarked.withoutLazyMark = n.unmarked := by
  have hrepetition : ∀ min max (body : Node), body.withoutLazyMark = body →
      (repetition min max body).withoutLazyMark.withoutLazyMark =
        (repetition min max body).withoutLazyMark := by
    intro min max body hbody
    rcases withoutLazyMark_eq min max body with ⟨-, heq⟩ | heq
    · rw [heq, hbody]
    · rw [heq, heq]
  induction n with
  | marked min max body ih => exact hrepetition _ _ _ (hrepetition _ _ _ ih)
  | repetition min max body hm ih => exact hrepetition _ _ _ ih
  | _ => rfl

theorem mem_nodes_unmarked_repetition {min : Nat} {max : Option Nat} {body m : Node}
    (h : m ∈ (repetition min max body).unmarked.nodes) :
    m = (repetition min max body).unmarked ∨ m ∈ body.unmarked.nodes := by
  rw [unmarked] at h ⊢
  rcases withoutLazyMark_eq min max body.unmarked with ⟨-, heq⟩ | heq
  · exact .inr (heq ▸ h)
  · rw [heq] at h ⊢
    exact List.mem_cons.1 h

/-- The nodes that are left were nodes with marks in them. -/
theorem exists_unmarked_eq_of_mem (n : Node) :
    ∀ m ∈ n.unmarked.nodes, ∃ m' ∈ n.nodes, m'.unmarked = m := by
  have hrepetition : ∀ min max (body : Node),
      (∀ m ∈ body.unmarked.nodes, ∃ m' ∈ body.nodes, m'.unmarked = m) →
      ∀ m ∈ (repetition min max body).unmarked.nodes,
        ∃ m' ∈ (repetition min max body).nodes, m'.unmarked = m := by
    intro min max body hbody m hm
    rcases mem_nodes_unmarked_repetition hm with rfl | hm
    · exact ⟨_, self_mem_nodes _, rfl⟩
    · obtain ⟨m', hm', heq⟩ := hbody m hm
      exact ⟨m', List.mem_cons_of_mem _ hm', heq⟩
  induction n with
  | group kind branches ih =>
    intro m hm
    rw [unmarked, nodes, unmarkedBranches_eq_map, List.mem_cons] at hm
    rcases hm with rfl | hm
    · exact ⟨_, self_mem_nodes _, by rw [unmarked, unmarkedBranches_eq_map]⟩
    · simp only [mem_branchesNodes, mem_branchNodes, List.mem_map, exists_exists_and_eq_and] at hm
      obtain ⟨b, hb, n, hn, hm⟩ := hm
      obtain ⟨m', hm', heq⟩ := ih b hb n hn m hm
      exact ⟨m', List.mem_cons_of_mem _ (mem_branchesNodes_of_mem hb hn hm'), heq⟩
  | marked min max body ih => exact hrepetition _ _ _ (hrepetition _ _ _ ih)
  | repetition min max body hm ih => exact hrepetition _ _ _ ih
  | _ => simp [unmarked, nodes]

theorem eq_backreference_of_unmarked {n : Node} {index : Nat}
    (h : n.unmarked = backreference index) : n = backreference index := by
  cases n with
  | repetition min max body =>
    have hrep := (isRepetition_unmarked (repetition min max body)).2 trivial
    rw [h] at hrep
    exact hrep.elim
  | group kind branches => cases h
  | _ => exact h

/-- **Nothing but marks is taken out** of a node. -/
theorem unmarked_eq_self {n : Node} (h : ∀ m ∈ n.nodes, m.withoutLazyMark = m) :
    n.unmarked = n := by
  induction n with
  | group kind branches ih =>
    have hbranches : unmarkedBranches branches = branches :=
      unmarkedBranches_eq_self fun b hb n hn => ih b hb n hn fun m hm =>
        h m (List.mem_cons_of_mem _ (mem_branchesNodes_of_mem hb hn hm))
    rw [unmarked, hbranches]
  | marked min max body ih => cases h _ (self_mem_nodes _)
  | repetition min max body hm ih =>
    rw [unmarked, ih fun m hm => h m (List.mem_cons_of_mem _ hm), h _ (self_mem_nodes _)]
  | _ => rfl

/-! ### Nodes that can be written -/

theorem unmarked_repetition {min : Nat} {max : Option Nat} {body : Node} (h : ¬body.IsRepetition) :
    (repetition min max body).unmarked = repetition min max body.unmarked := by
  rw [unmarked, withoutLazyMark_of_not_isRepetition (mt (isRepetition_unmarked body).1 h)]

theorem unmarked_marked {min : Nat} {max : Option Nat} {body : Node} (h : ¬body.IsRepetition) :
    (repetition 0 (some 1) (repetition min max body)).unmarked =
      (repetition min max body).unmarked := by
  rw [unmarked, unmarked_repetition h, withoutLazyMark]

/-- Whether no repetition in a node repeats another one but as the mark of a lazy quantifier, and
none is marked twice. -/
inductive MarkedOnce : Node → Prop where
  | char (c : Char) : MarkedOnce (.char c)
  | charClass (k : CharClass) : MarkedOnce (.charClass k)
  | anchor (a : Anchor) : MarkedOnce (.anchor a)
  | backreference (index : Nat) : MarkedOnce (.backreference index)
  | group (kind : GroupKind) {branches : List (List Node)} :
    (∀ b ∈ branches, ∀ n ∈ b, MarkedOnce n) → MarkedOnce (.group kind branches)
  | repetition (min : Nat) (max : Option Nat) {body : Node} : ¬body.IsRepetition →
    MarkedOnce body → MarkedOnce (.repetition min max body)
  | marked {min : Nat} {max : Option Nat} {body : Node} : ¬body.IsRepetition →
    MarkedOnce (.repetition min max body) →
    MarkedOnce (.repetition 0 (some 1) (.repetition min max body))

/-- A node that can be written is marked once. -/
theorem markedOnce_of_sound {n : Node} (h : ∀ m ∈ n.nodes, m.Sound) : n.MarkedOnce := by
  induction n with
  | char c => exact .char c
  | charClass k => exact .charClass k
  | anchor a => exact .anchor a
  | backreference index => exact .backreference index
  | group kind branches ih =>
    refine .group kind fun b hb n hn => ih b hb n hn fun m hm => h m ?_
    exact List.mem_cons_of_mem _ (mem_branchesNodes_of_mem hb hn hm)
  | marked min max body ih =>
    have hbody : ¬body.IsRepetition := (h _ (self_mem_nodes _)).withoutLazyMark rfl
    refine .marked hbody (.repetition min max hbody (ih fun m hm => h m ?_))
    exact List.mem_cons_of_mem _ (List.mem_cons_of_mem _ hm)
  | repetition min max body hm ih =>
    have hbody : ¬body.IsRepetition := by
      intro hrep
      cases body with
      | repetition min' max' body' =>
        obtain ⟨hmin, hmax, -⟩ := (h _ (self_mem_nodes _)).2.2
        exact hm min' max' body' hmin hmax rfl
      | _ => exact hrep.elim
    exact .repetition min max hbody (ih fun m hm => h m (List.mem_cons_of_mem _ hm))

end Node

/-! ## The search -/

namespace Matching

variable {text : Array Char}

theorem ends_repetition {min : Nat} {max : Option Nat} {body : Node} (h : ¬body.IsRepetition)
    (s : MatchState) (left : Nat) :
    ends text (.repetition min max body) s (left + 1) =
      repeats (ends text body) min (max.getD (text.size + 1)) 0 [] [s] left := by
  rw [ends]
  rintro min' max' body' - - rfl
  exact h trivial

theorem ends_marked {min : Nat} {max : Option Nat} {body : Node} (h : ¬body.IsRepetition) :
    ends text (.repetition 0 (some 1) (.repetition min max body)) =
      ends text (.repetition min max body) := by
  funext s left
  cases left with
  | zero => rw [ends, ends]
  | succ left => rw [ends, ends_repetition h]

theorem branchEnds_unmarked {b : List Node} (h : ∀ n ∈ b, ends text n.unmarked = ends text n)
    (frontier : List MatchState) (left : Nat) :
    branchEnds text (unmarkedBranch b) frontier left = branchEnds text b frontier left := by
  induction b generalizing frontier left with
  | nil => rfl
  | cons n ns ih =>
    obtain ⟨hn, hns⟩ := List.forall_mem_cons.1 h
    simp only [unmarkedBranch, branchEnds, hn, ih hns]

theorem branchesEnds_unmarked {bs : List (List Node)}
    (h : ∀ b ∈ bs, ∀ n ∈ b, ends text n.unmarked = ends text n) (s : MatchState)
    (found : List MatchState) (left : Nat) :
    branchesEnds text (unmarkedBranches bs) s found left = branchesEnds text bs s found left := by
  induction bs generalizing found left with
  | nil => rfl
  | cons b bs ih =>
    obtain ⟨hb, hbs⟩ := List.forall_mem_cons.1 h
    simp only [unmarkedBranches, branchesEnds, branchEnds_unmarked hb, ih hbs]

/-- **Marks do not change the search of a node,** nor the number of its steps. -/
theorem ends_unmarked {n : Node} (h : n.MarkedOnce) : ends text n.unmarked = ends text n := by
  induction h with
  | group kind _ ih =>
    funext s left
    cases left with
    | zero => rw [ends, ends]
    | succ left => simp only [Node.unmarked, ends, branchesEnds_unmarked ih]
  | @repetition min max body hbody _ ih =>
    have hunmarked : ¬body.unmarked.IsRepetition := mt (Node.isRepetition_unmarked body).1 hbody
    rw [Node.unmarked_repetition hbody]
    funext s left
    cases left with
    | zero => rw [ends, ends]
    | succ left => rw [ends_repetition hunmarked, ends_repetition hbody, ih]
  | marked hbody _ ih => rw [Node.unmarked_marked hbody, ih, ends_marked hbody]
  | _ => rfl

end Matching

/-! ## The language -/

theorem Node.language_repetition {min : Nat} {max : Option Nat} {body : Node} (cap : ℕ∞)
    (h : ¬body.IsRepetition) :
    (Node.repetition min max body).language cap =
      repeatedLanguage cap min max (body.language cap) := by
  rw [Node.language]
  rintro min' max' body' - - rfl
  exact h trivial

theorem branchLanguage_unmarked {cap : ℕ∞} {b : List Node}
    (h : ∀ n ∈ b, n.unmarked.language cap = n.language cap) :
    branchLanguage cap (unmarkedBranch b) = branchLanguage cap b := by
  induction b with
  | nil => rfl
  | cons n ns ih =>
    obtain ⟨hn, hns⟩ := List.forall_mem_cons.1 h
    simp only [unmarkedBranch, branchLanguage, Node.isLookahead_unmarked, hn, ih hns]

theorem branchesLanguage_unmarked {cap : ℕ∞} {bs : List (List Node)}
    (h : ∀ b ∈ bs, ∀ n ∈ b, n.unmarked.language cap = n.language cap) :
    branchesLanguage cap (unmarkedBranches bs) = branchesLanguage cap bs := by
  induction bs with
  | nil => rfl
  | cons b bs ih =>
    obtain ⟨hb, hbs⟩ := List.forall_mem_cons.1 h
    rw [unmarkedBranches, branchesLanguage, branchesLanguage, branchLanguage_unmarked hb, ih hbs]

/-- **Marks do not change the language of a node.** -/
theorem Node.language_unmarked {n : Node} (cap : ℕ∞) (h : n.MarkedOnce) :
    n.unmarked.language cap = n.language cap := by
  induction h with
  | group kind _ ih =>
    rw [Node.unmarked, Node.language, Node.language, branchesLanguage_unmarked ih]
  | @repetition min max body hbody _ ih =>
    have hunmarked : ¬body.unmarked.IsRepetition := mt (Node.isRepetition_unmarked body).1 hbody
    rw [Node.unmarked_repetition hbody, Node.language_repetition cap hunmarked,
      Node.language_repetition cap hbody, ih]
  | marked hbody _ ih =>
    rw [Node.unmarked_marked hbody, ih, Node.language_repetition cap hbody, Node.language]
  | _ => rfl

/-! ## Trees -/

namespace Tree

/-- The nodes that are left in a tree were nodes with marks in them. -/
theorem exists_unmarked_eq_of_mem {t : Tree} {n : Node} (h : n ∈ t.unmarked.nodes) :
    ∃ m ∈ t.nodes, m.unmarked = n := by
  simp only [nodes, unmarked, unmarkedBranches_eq_map, mem_branchesNodes, mem_branchNodes,
    List.mem_map, exists_exists_and_eq_and] at h
  obtain ⟨b, hb, m, hm, hn⟩ := h
  obtain ⟨m', hm', heq⟩ := m.exists_unmarked_eq_of_mem n hn
  exact ⟨m', mem_branchesNodes_of_mem hb hm hm', heq⟩

/-- **No mark is left** in a tree. -/
theorem withoutLazyMark_of_mem_unmarked {t : Tree} {n : Node} (h : n ∈ t.unmarked.nodes) :
    n.withoutLazyMark = n := by
  obtain ⟨m, -, rfl⟩ := exists_unmarked_eq_of_mem h
  exact m.withoutLazyMark_unmarked

/-- **Nothing but marks is taken out** of a tree. -/
theorem unmarked_eq_self {t : Tree} (h : ∀ n ∈ t.nodes, n.withoutLazyMark = n) :
    t.unmarked = t := by
  have hbranches : unmarkedBranches t.branches = t.branches :=
    unmarkedBranches_eq_self fun b hb n hn => Node.unmarked_eq_self fun m hm =>
      h m (mem_branchesNodes_of_mem hb hn hm)
  rw [unmarked, hbranches]

variable {t : Tree}

/-- **Marks do not change which texts a tree matches,** nor on which texts the search gives up. -/
theorem matches?_unmarked (h : ∀ b ∈ t.branches, ∀ n ∈ b, n.MarkedOnce) (w : List Char) :
    t.unmarked.matches? w = t.matches? w := by
  unfold matches?
  simp only [unmarked,
    Matching.branchesEnds_unmarked fun b hb n hn => Matching.ends_unmarked (h b hb n hn)]

/-- **Marks do not change the language of a tree.** -/
theorem language_unmarked (h : ∀ b ∈ t.branches, ∀ n ∈ b, n.MarkedOnce) (cap : ℕ∞) :
    t.unmarked.language cap = t.language cap :=
  branchesLanguage_unmarked fun b hb n hn => Node.language_unmarked cap (h b hb n hn)

/-- A tree without backreferences has a stream, of the texts of its language. -/
theorem exists_stream_of_language (h : ∀ index, .backreference index ∉ t.nodes) (cap : Nat) :
    ∃ s, Stream.ofTree cap t = .ok s ∧ ∀ w, w ∈ s.toList ↔ w ∈ t.language cap := by
  obtain ⟨p, hplan, hproduces⟩ := exists_plan h
  refine ⟨.ofPlan cap p, Stream.ofTree_eq_ok_iff.2 ⟨p, hplan, rfl⟩, fun w => ?_⟩
  rw [Stream.mem_toList_ofPlan]
  exact hproduces cap [] w

/-- **Lazy marks are inert.** A tree that has been read matches the same texts without its marks,
gives up on the same, and if it has no backreferences, both produce the same texts. -/
theorem unmarked_inert {pattern : String} (h : parse pattern = .ok t) :
    (∀ w, t.matches? w = t.unmarked.matches? w) ∧
      ((∀ index, .backreference index ∉ t.nodes) → ∀ cap, ∃ s s',
        Stream.ofTree cap t = .ok s ∧ Stream.ofTree cap t.unmarked = .ok s' ∧
          ∀ w, w ∈ s.toList ↔ w ∈ s'.toList) := by
  have hmarked : ∀ b ∈ t.branches, ∀ n ∈ b, n.MarkedOnce := fun b hb n hn =>
    Node.markedOnce_of_sound fun m hm => sound_of_parse h m (mem_branchesNodes_of_mem hb hn hm)
  refine ⟨fun w => (matches?_unmarked hmarked w).symm, fun href cap => ?_⟩
  have href' : ∀ index, .backreference index ∉ t.unmarked.nodes := by
    intro index hindex
    obtain ⟨m, hm, heq⟩ := exists_unmarked_eq_of_mem hindex
    exact href index (Node.eq_backreference_of_unmarked heq ▸ hm)
  obtain ⟨s, hs, hmem⟩ := exists_stream_of_language href cap
  obtain ⟨s', hs', hmem'⟩ := exists_stream_of_language href' cap
  refine ⟨s, s', hs, hs', fun w => ?_⟩
  rw [hmem, hmem', language_unmarked hmarked]

/-- `A*?|A*`, whose branches are alike without the mark. -/
def lazyOrGreedy : Tree :=
  ⟨[[.repetition 0 (some 1) (.repetition 0 none (.char 'A'))], [.repetition 0 none (.char 'A')]], 0⟩

theorem unmarked_inert_lazyOrGreedy :
    parse (String.ofList ['A', '*', '?', '|', 'A', '*']) = .ok lazyOrGreedy ∧
      (∀ index, .backreference index ∉ lazyOrGreedy.nodes) ∧
      (∀ w, lazyOrGreedy.matches? w = lazyOrGreedy.unmarked.matches? w) ∧
      ∀ cap, ∃ s s', Stream.ofTree cap lazyOrGreedy = .ok s ∧
        Stream.ofTree cap lazyOrGreedy.unmarked = .ok s' ∧ ∀ w, w ∈ s.toList ↔ w ∈ s'.toList := by
  have hreads : Syntax.Reads ['A', '*', '?', '|', 'A', '*']
      [.atom (.char 'A'), .quantifier 0 none, .questionMark, .bar, .atom (.char 'A'),
        .quantifier 0 none] [] :=
    .token rfl (.token rfl (.token rfl (.token rfl (.token rfl (.token rfl (.done []))))))
  have hparse : parse (String.ofList ['A', '*', '?', '|', 'A', '*']) = .ok lazyOrGreedy := by
    rw [Syntax.parse_eq_ok_iff, String.toList_ofList]
    exact ⟨_, _, hreads, rfl, rfl, rfl⟩
  have href : ∀ index, .backreference index ∉ lazyOrGreedy.nodes := by
    simp [lazyOrGreedy, nodes, branchesNodes, branchNodes, Node.nodes]
  exact ⟨hparse, href, (unmarked_inert hparse).1, (unmarked_inert hparse).2 href⟩

end Tree

end SequenceConstraint
