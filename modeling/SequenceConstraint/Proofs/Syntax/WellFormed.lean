import SequenceConstraint.Proofs.Syntax.Captures
import SequenceConstraint.Proofs.Syntax.Delimiters

/-!
# Trees that can be written

Not every tree has a text: a repetition of an anchor, for one, cannot be written. The trees that can
be written are told by conditions on single nodes (`Node.Sound`), by the depth of their groups and
by the numbers of those that capture (`Tree.WellFormed`). Every text that can be read is read as one
of them, so whoever goes through a tree need not look for anything else.

## Main statements

* `sound_readToken`, `quantifies_readToken` — a token brings nothing that cannot be written
* `Arrangement.Shallow.step` — a token keeps the groups within their depth
* `Tree.wellFormed_of_parse` — a text is read as a tree that can be written
-/

namespace SequenceConstraint

open Syntax

/-! ## Conditions on single nodes -/

/-- Whether a member of a class can be written. A class in a class can only be a shorthand. -/
def ClassMember.Sound : ClassMember → Prop
  | .char _ => True
  | .interval lo hi => lo ≤ hi
  | .nested negated members => ∃ letter, CharClass.shorthand? letter = some ⟨negated, members⟩

/-- Whether a member of a class is no class itself. -/
def ClassMember.Flat : ClassMember → Prop
  | .nested _ _ => False
  | _ => True

def Node.IsRepetition : Node → Prop
  | .repetition .. => True
  | _ => False

/-- Whether a node can be repeated: no anchor, and a repetition only to mark it as lazy. -/
def Node.Repeatable (min : Nat) (max : Option Nat) : Node → Prop
  | .anchor _ => False
  | .repetition _ _ body => min = 0 ∧ max = some 1 ∧ ¬body.IsRepetition
  | _ => True

/-- Whether a node can be written if its parts can. -/
def Node.Sound : Node → Prop
  | .char _ => True
  | .charClass k => ∀ m ∈ k.members, m.Sound
  | .anchor _ => True
  | .backreference index => 1 ≤ index ∧ index < numberLimit
  | .group _ branches => branches ≠ []
  | .repetition min max body =>
    min < numberLimit ∧ (∀ m, max = some m → min ≤ m ∧ m < numberLimit) ∧ body.Repeatable min max

/-! ## Depth -/

mutual

/-- How deep groups are nested in a node. -/
def Node.depth : Node → Nat
  | .group _ branches => branchesDepth branches + 1
  | .repetition _ _ body => body.depth
  | _ => 0

def branchDepth : List Node → Nat
  | [] => 0
  | n :: ns => max n.depth (branchDepth ns)

def branchesDepth : List (List Node) → Nat
  | [] => 0
  | b :: bs => max (branchDepth b) (branchesDepth bs)

end

theorem branchDepth_append (b c : List Node) :
    branchDepth (b ++ c) = max (branchDepth b) (branchDepth c) := by
  induction b with
  | nil => simp [branchDepth]
  | cons n ns ih => rw [List.cons_append, branchDepth, ih, branchDepth, Nat.max_assoc]

theorem branchesDepth_append (bs cs : List (List Node)) :
    branchesDepth (bs ++ cs) = max (branchesDepth bs) (branchesDepth cs) := by
  induction bs with
  | nil => simp [branchesDepth]
  | cons b bs ih => rw [List.cons_append, branchesDepth, ih, branchesDepth, Nat.max_assoc]

/-! ## Trees -/

/-- Whether a tree can be written. -/
structure Tree.WellFormed (tree : Tree) : Prop where
  branches : tree.branches ≠ []
  sound : ∀ n ∈ tree.nodes, n.Sound
  depth : branchesDepth tree.branches ≤ maxDepth
  captures : captureIndices tree.nodes = List.range' 1 tree.captures

/-- The members of a shorthand are no classes. -/
theorem CharClass.flat_of_shorthand? {letter : Char} {k : CharClass}
    (h : CharClass.shorthand? letter = some k) : ∀ m ∈ k.members, m.Sound ∧ m.Flat := by
  have hintervals : ∀ negated intervals, (∀ i ∈ intervals, i.1 ≤ i.2) →
      ∀ m ∈ (CharClass.ofIntervals negated intervals).members, m.Sound ∧ m.Flat := by
    intro negated intervals horder m hm
    obtain ⟨⟨lo, hi⟩, hmem, rfl⟩ := List.mem_map.1 hm
    have hle : lo ≤ hi := horder _ hmem
    simp only
    split
    · exact ⟨trivial, trivial⟩
    · exact ⟨hle, trivial⟩
  unfold CharClass.shorthand? at h
  split at h
  all_goals
    cases h
    try exact hintervals _ _ (by decide)

/-- What a mark of a lazy quantifier is around repeats no repetition. -/
theorem Node.Sound.withoutLazyMark {n body : Node} {min : Nat} {max : Option Nat} (h : n.Sound)
    (hn : n.withoutLazyMark = .repetition min max body) : ¬body.IsRepetition := by
  unfold Node.withoutLazyMark at hn
  split at hn
  · cases hn
    exact h.2.2.2.2
  · rename_i hm
    subst hn
    intro hbody
    cases body with
    | repetition min' max' body' =>
      obtain ⟨rfl, rfl, -⟩ := h.2.2
      exact hm min' max' body' rfl
    | _ => exact hbody.elim

namespace Syntax

/-! ## Numbers -/

theorem lt_of_number? {digits : List Char} {n : Nat} (h : number? digits = some n) :
    n < numberLimit := by
  unfold number? at h
  split at h
  · cases h
  · split at h
    · cases h
      assumption
    · cases h

theorem toNat_of_isDigit {d : Char} (h : d.isDigit = true) : 48 ≤ d.toNat ∧ d.toNat ≤ 57 := by
  simp only [Char.isDigit, Bool.and_eq_true, decide_eq_true_eq, ge_iff_le] at h
  exact ⟨UInt32.le_iff_toNat_le.1 h.1, UInt32.le_iff_toNat_le.1 h.2⟩

/-- A run of digits that does not begin with zero spells a positive number. -/
theorem decimalValue_pos {d : Char} (digits : List Char) (hdigit : d.isDigit = true)
    (hzero : d ≠ '0') : 1 ≤ decimalValue (d :: digits) := by
  have hgrow : ∀ (l : List Char) (n : Nat), 1 ≤ n →
      1 ≤ l.foldl (fun n d => 10 * n + (d.toNat - '0'.toNat)) n := by
    intro l
    induction l with
    | nil => exact fun n hn => hn
    | cons x l ih => exact fun n hn => ih (10 * n + _) (Nat.le_add_right_of_le (by omega))
  have hrange := toNat_of_isDigit hdigit
  have hne : d.toNat ≠ 48 := fun heq => hzero (Char.toNat_inj.1 heq)
  refine hgrow digits (10 * 0 + (d.toNat - 48)) ?_
  omega

/-- The index of a backreference that has been read. -/
theorem referenceIndex_bounds {d : Char} (digits : List Char) (hdigit : d.isDigit = true)
    (hzero : d ≠ '0') :
    1 ≤ referenceIndex (d :: digits) ∧ referenceIndex (d :: digits) < numberLimit := by
  unfold referenceIndex
  cases hnumber : number? (d :: digits) with
  | none => decide
  | some n =>
    have hvalue : decimalValue (d :: digits) = n := by
      simp only [number?, List.isEmpty_cons, Bool.false_eq_true, if_false] at hnumber
      split at hnumber
      · exact Option.some.inj hnumber
      · cases hnumber
    exact ⟨hvalue ▸ decimalValue_pos digits hdigit hzero, lt_of_number? hnumber⟩

theorem readBounds_lt {cs rest : List Char} {min : Nat} {max : Option Nat}
    (h : readBounds cs = some (min, max, rest)) :
    min < numberLimit ∧ ∀ m, max = some m → m < numberLimit := by
  obtain ⟨hmin, hform⟩ := readBounds_eq_some_iff.1 h
  refine ⟨lt_of_number? hmin, fun m hm => ?_⟩
  rcases hform with ⟨-, rfl⟩ | ⟨-, rfl⟩ | ⟨more, m', -, hnumber, -, rfl⟩
  · cases hm
    exact lt_of_number? hmin
  · cases hm
  · cases hm
    exact lt_of_number? hnumber

/-! ## Tokens -/

section Tokens

variable {c : Char} {cs rest left : List Char}

theorem readHexOr_ne_shorthand (letter : Char) (count : Nat) (cs : List Char) (k : CharClass) :
    (readHexOr letter count cs).1 ≠ .shorthand k := by
  unfold readHexOr
  split
  · exact nofun
  · exact nofun

theorem shorthand?_of_readEscaped {k : CharClass} (h : (readEscaped c rest).1 = .shorthand k) :
    CharClass.shorthand? c = some k := by
  unfold readEscaped at h
  split at h
  · rename_i hk
    cases h
    exact hk
  · split at h
    case h_7 => exact absurd h (readHexOr_ne_shorthand _ _ _ _)
    case h_8 => exact absurd h (readHexOr_ne_shorthand _ _ _ _)
    all_goals cases h

theorem sound_readClassChar {k : CharClass} (h : readClassChar c rest = .ok (.shorthand k, left)) :
    (Escaped.toMember (.shorthand k)).Sound := by
  unfold readClassChar at h
  split at h
  · split at h
    · cases h
    · cases h
    · rename_i d more _
      exact ⟨d, shorthand?_of_readEscaped (congrArg Prod.fst (Except.ok.inj h))⟩
  · cases h

theorem sound_readMembers {members found : List ClassMember} (hmembers : ∀ m ∈ members, m.Sound)
    (h : readMembers members cs = .ok (found, rest)) : ∀ m ∈ found, m.Sound := by
  fun_induction readMembers members cs generalizing found rest
  all_goals first | contradiction | skip
  · cases h
    exact fun m hm => hmembers m (List.mem_reverse.1 hm)
  · -- a shorthand
    rename_i hchar ih
    exact ih (List.forall_mem_cons.2 ⟨sound_readClassChar hchar, hmembers⟩) h
  · -- a character
    rename_i ih
    exact ih (List.forall_mem_cons.2 ⟨trivial, hmembers⟩) h
  · -- an interval
    rename_i horder ih
    exact ih (List.forall_mem_cons.2 ⟨Char.not_lt.1 horder, hmembers⟩) h
  · -- a dash before a shorthand
    rename_i hend ih
    refine ih (List.forall_mem_cons.2 ⟨sound_readClassChar hend, ?_⟩) h
    exact List.forall_mem_cons.2 ⟨trivial, List.forall_mem_cons.2 ⟨trivial, hmembers⟩⟩

theorem sound_readClass {k : CharClass} (h : readClass cs = .ok (k, rest)) :
    ∀ m ∈ k.members, m.Sound := by
  unfold readClass at h
  cases hm : readMembers [] (if cs.head? == some '^' then cs.tail else cs) with
  | error e =>
    simp only [hm, Except.map] at h
    cases h
  | ok found =>
    simp only [hm, Except.map, Except.ok.injEq, Prod.mk.injEq] at h
    rw [← h.1]
    exact sound_readMembers (fun m hm => absurd hm List.not_mem_nil) hm

theorem ReadsEscape.sound {node : Node} (h : ReadsEscape cs node rest) : node.Sound := by
  cases h with
  | boundary => trivial
  | inside => trivial
  | backreference rest hdigit hzero => exact referenceIndex_bounds _ hdigit hzero
  | @escaped c rest =>
    cases hescaped : (readEscaped c rest).1 with
    | char d => trivial
    | shorthand k =>
      have hk := shorthand?_of_readEscaped hescaped
      exact fun m hm => (CharClass.flat_of_shorthand? hk m hm).1

/-- **A token that is a node** can be written. -/
theorem sound_readToken {node : Node} (h : readToken c cs = .ok (.atom node, left)) :
    node.Sound := by
  cases readToken_eq_ok_iff.1 h with
  | charClass h => exact sound_readClass h
  | escape h => exact h.sound
  | anyChar =>
    show ∀ m ∈ CharClass.notLineEnd.members, m.Sound
    simp [CharClass.notLineEnd, ClassMember.Sound]
  | _ => trivial

theorem repeatable_of_quantifiable {questionMark : Bool} {min : Nat} {max : Option Nat}
    {body : Node} (h : Arrangement.quantifiable questionMark body = true)
    (hmark : questionMark = true → min = 0 ∧ max = some 1) : body.Repeatable min max := by
  cases body with
  | anchor a => cases h
  | repetition min' max' body =>
    cases body with
    | repetition => cases h
    | _ => exact ⟨(hmark h).1, (hmark h).2, id⟩
  | _ => trivial

/-- **A token that is a quantifier** can be written behind what it repeats. -/
theorem quantifies_readToken {t : Token} {questionMark : Bool} {min : Nat} {max : Option Nat}
    {body : Node} (h : readToken c cs = .ok (t, left)) (ht : t.Quantifies questionMark min max)
    (hbody : Arrangement.quantifiable questionMark body = true) :
    (Node.repetition min max body).Sound := by
  have hlimit : 1 < numberLimit := by decide
  cases ht with
  | quantifier =>
    have hrepeatable : body.Repeatable min max := repeatable_of_quantifiable hbody nofun
    cases readToken_eq_ok_iff.1 h with
    | star => exact ⟨Nat.lt_trans Nat.zero_lt_one hlimit, nofun, hrepeatable⟩
    | plus => exact ⟨hlimit, nofun, hrepeatable⟩
    | bounds hbounds horder =>
      obtain ⟨hmin, hmax⟩ := readBounds_lt hbounds
      refine ⟨hmin, fun m hm => ⟨?_, hmax m hm⟩, hrepeatable⟩
      simpa [hm] using horder
  | questionMark =>
    refine ⟨Nat.lt_trans Nat.zero_lt_one hlimit, fun m hm => ?_,
      repeatable_of_quantifiable hbody fun _ => ⟨rfl, rfl⟩⟩
    cases hm
    exact ⟨Nat.zero_le 1, hlimit⟩

end Tokens

/-! ## Depth of an arrangement -/

/-- How deep groups are nested in an alternation as far as it has been read. -/
def Level.depth (level : Level) : Nat := branchesDepth level.finish

namespace Level

variable (level : Level)

theorem depth_eq :
    level.depth = max (branchesDepth level.branches.reverse) (branchDepth level.nodes.reverse) := by
  rw [depth, finish_eq, branchesDepth_append, branchesDepth, branchesDepth, Nat.max_zero]

theorem depth_push (node : Node) : (level.push node).depth = max level.depth node.depth := by
  rw [depth_eq, depth_eq, push, List.reverse_cons, branchDepth_append, branchDepth, branchDepth,
    Nat.max_zero, Nat.max_assoc]

theorem depth_endBranch : level.endBranch.depth = level.depth := by
  rw [depth_eq, endBranch, List.reverse_cons, ← finish_eq, depth, List.reverse_nil, branchDepth,
    Nat.max_zero]

end Level

/-- Whether the alternations that are open nest groups within the depth that is accepted, each in
those after it. -/
def OpenShallow : List (GroupKind × Level) → Prop
  | [] => True
  | (_, level) :: outer => level.depth + outer.length ≤ maxDepth ∧ OpenShallow outer

namespace Arrangement

/-- Whether what has been read nests groups within the depth that is accepted. -/
structure Shallow (a : Arrangement) : Prop where
  level : a.level.depth + a.outer.length ≤ maxDepth
  outer : OpenShallow a.outer

variable {a a' : Arrangement}

theorem Shallow.quantify {questionMark : Bool} {min : Nat} {max : Option Nat} (ha : a.Shallow)
    (h : a.quantify questionMark min max = .ok a') : a'.Shallow := by
  unfold Arrangement.quantify at h
  split at h
  · cases h
  · rename_i node nodes hnodes
    split at h
    · cases h
      -- a repeated node is as deep as the node
      have hlevel : a.level = Level.push ⟨a.level.branches, nodes⟩ node := by
        rw [Level.push, ← hnodes]
      have hdepth := ha.level
      rw [hlevel, Level.depth_push] at hdepth
      refine ⟨?_, ha.outer⟩
      show (Level.push ⟨a.level.branches, nodes⟩ (.repetition min max node)).depth + _ ≤ _
      rw [Level.depth_push]
      exact hdepth
    · cases h

theorem Shallow.openGroup {kind : Option Opening} (ha : a.Shallow)
    (h : a.openGroup kind = .ok a') : a'.Shallow := by
  unfold Arrangement.openGroup at h
  split at h
  · cases h
  · rename_i hdepth
    have hempty : Level.empty.depth + (a.outer.length + 1) ≤ maxDepth := by
      show 0 + (a.outer.length + 1) ≤ maxDepth
      omega
    split at h
    · cases h
    all_goals
      cases h
      exact ⟨hempty, ha.level, ha.outer⟩

theorem Shallow.closeGroup (ha : a.Shallow) (h : a.closeGroup = .ok a') : a'.Shallow := by
  unfold Arrangement.closeGroup at h
  split at h
  · cases h
  · rename_i kind level outer houter
    cases h
    have hlevel := ha.level
    have hopen := ha.outer
    rw [houter, List.length_cons] at hlevel
    rw [houter] at hopen
    refine ⟨?_, hopen.2⟩
    -- the group is one deeper than its alternation, and stands in one group less
    have hgroup : (Node.group kind a.level.finish).depth = a.level.depth + 1 := rfl
    show (level.push (.group kind a.level.finish)).depth + outer.length ≤ maxDepth
    rw [Level.depth_push, hgroup]
    have houter' := hopen.1
    omega

/-- **A token keeps the groups within their depth.** -/
theorem Shallow.step {token : Token} (ha : a.Shallow) (hatom : ∀ n, token = .atom n → n.Leaf)
    (h : a.step token = .ok a') : a'.Shallow := by
  cases token with
  | atom node =>
    have hleaf : node.depth = 0 := by
      have hnode := hatom node rfl
      cases node with
      | group kind branches => exact hnode.elim
      | repetition min max body => exact hnode.elim
      | _ => rfl
    cases h
    refine ⟨?_, ha.outer⟩
    show (a.level.push node).depth + a.outer.length ≤ maxDepth
    rw [Level.depth_push, hleaf, Nat.max_zero]
    exact ha.level
  | quantifier min max => exact ha.quantify h
  | questionMark => exact ha.quantify h
  | opening kind => exact ha.openGroup h
  | closing => exact ha.closeGroup h
  | bar =>
    cases h
    refine ⟨?_, ha.outer⟩
    show a.level.endBranch.depth + a.outer.length ≤ maxDepth
    rw [Level.depth_endBranch]
    exact ha.level

end Arrangement

end Syntax

/-! ## Trees that have been read -/

theorem Tree.sound_of_parse {pattern : String} {tree : Tree} (h : Tree.parse pattern = .ok tree) :
    ∀ n ∈ tree.nodes, n.Sound := by
  obtain ⟨ts, a, hreads, hfold, -, rfl⟩ := parse_eq_ok_iff.1 h
  have hstart : Arrangement.start.Over Node.Sound :=
    ⟨fun m hm => absurd hm List.not_mem_nil, fun g hg => absurd hg List.not_mem_nil⟩
  have hover : a.Over Node.Sound := by
    refine foldlM_keeps (fun t ht a a' ha hstep => ?_) hstart hfold
    obtain ⟨c, more, left, -, hread⟩ := hreads.exists_readToken ht
    refine ha.step (fun _ _ _ _ hquantifies hbody => quantifies_readToken hread hquantifies hbody)
      (fun _ _ _ hne => hne) (fun n hn => ?_) hstep
    subst hn
    exact ⟨leaf_readToken hread, sound_readToken hread⟩
  exact hover.level

theorem Tree.depth_of_parse {pattern : String} {tree : Tree} (h : Tree.parse pattern = .ok tree) :
    branchesDepth tree.branches ≤ maxDepth := by
  obtain ⟨ts, a, hreads, hfold, houter, rfl⟩ := parse_eq_ok_iff.1 h
  have hstart : Arrangement.start.Shallow := ⟨Nat.zero_le _, trivial⟩
  have hshallow : a.Shallow := by
    refine foldlM_keeps (fun t ht a a' ha hstep => ha.step (fun n hn => ?_) hstep) hstart hfold
    subst hn
    obtain ⟨c, more, left, -, hread⟩ := hreads.exists_readToken ht
    exact leaf_readToken hread
  exact Nat.le_trans (Nat.le_add_right _ _) hshallow.level

theorem Tree.branches_of_parse {pattern : String} {tree : Tree}
    (h : Tree.parse pattern = .ok tree) : tree.branches ≠ [] := by
  obtain ⟨ts, a, -, -, -, rfl⟩ := parse_eq_ok_iff.1 h
  exact a.level.finish_ne_nil

/-- **A text is read as a tree that can be written.** A class in a class has no further classes in
it, and what a quantifier repeats, lazy or not, is no repetition. -/
theorem Tree.wellFormed_of_parse {pattern : String} {tree : Tree}
    (h : Tree.parse pattern = .ok tree) :
    tree.WellFormed ∧
      (∀ k, .charClass k ∈ tree.nodes → ∀ negated members,
        .nested negated members ∈ k.members → ∀ m ∈ members, m.Flat) ∧
      ∀ n ∈ tree.nodes, ∀ min max body, n.withoutLazyMark = .repetition min max body →
        ¬body.IsRepetition := by
  have hsound := Tree.sound_of_parse h
  refine ⟨⟨Tree.branches_of_parse h, hsound, Tree.depth_of_parse h,
    Tree.captureIndices_of_parse h⟩, ?_, ?_⟩
  · intro k hk negated members hmem m hm
    obtain ⟨letter, hletter⟩ := hsound _ hk _ hmem
    exact (CharClass.flat_of_shorthand? hletter m hm).2
  · intro n hn min max body hbody
    exact (hsound n hn).withoutLazyMark hbody

/-- A group that is repeated lazily, and a reference to it. -/
theorem Tree.wellFormed_lazy_group :
    Tree.parse (String.ofList ['(', 'a', ')', '*', '?', '\\', '1']) =
        .ok ⟨[[.repetition 0 (some 1) (.repetition 0 none (.group (.capture 1) [[.char 'a']])),
          .backreference 1]], 1⟩ ∧
      Tree.WellFormed ⟨[[.repetition 0 (some 1)
        (.repetition 0 none (.group (.capture 1) [[.char 'a']])), .backreference 1]], 1⟩ := by
  have hreads : Reads ['(', 'a', ')', '*', '?', '\\', '1']
      [.opening (some .capture), .atom (.char 'a'), .closing, .quantifier 0 none, .questionMark,
        .atom (.backreference 1)] [] :=
    .token rfl (.token rfl (.token rfl (.token rfl (.token rfl (.token rfl (.done []))))))
  refine ⟨?parse, (Tree.wellFormed_of_parse ?parse).1⟩
  rw [parse_eq_ok_iff, String.toList_ofList]
  exact ⟨_, _, hreads, rfl, rfl, rfl⟩

end SequenceConstraint
