import SequenceConstraint.Proofs.Syntax.Letters
import SequenceConstraint.Proofs.Syntax.Printing

/-!
# Printing and reading

A tree that can be written is read back from its text. A printed node is read as that node wherever
it stands, as long as no digit follows, the groups in it are numbered on from those before it, and
they are not nested too deeply there (`ReadBack`). So the nodes of a branch can be read one after
the other, and then the branches of a group.

## Main statements

* `ReadBack.append`, `ReadBack.or` — nodes in a row, and branches between bars
* `ReadBackBranches.group` — a group around branches
* `ReadBack.repeated` — a node that is repeated
* `readBack_node` — every node that can be written is read back
* `Tree.parse_print` — and so is every tree
-/

namespace SequenceConstraint

namespace Syntax

/-! ## Numbers of groups -/

/-- Whether the capturing groups among some nodes are numbered on from `k`. -/
def NumberedFrom (k : Nat) (nodes : List Node) : Prop :=
  captureIndices nodes = List.range' (k + 1) (captureIndices nodes).length

theorem numberedFrom_append {k : Nat} {ns ms : List Node} :
    NumberedFrom k (ns ++ ms) ↔
      NumberedFrom k ns ∧ NumberedFrom (k + (captureIndices ns).length) ms := by
  unfold NumberedFrom
  rw [captureIndices_append, List.length_append, List.range'_append_1.symm, Nat.add_right_comm]
  constructor
  · intro h
    exact List.append_inj h (by simp)
  · rintro ⟨h, h'⟩
    rw [← h, ← h']

/-- A group that captures has the first number, the groups in it those after that. -/
theorem NumberedFrom.group {k : Nat} {kind : GroupKind} {branches : List (List Node)}
    (h : NumberedFrom k (Node.group kind branches).nodes) :
    (∀ index ∈ kind.index?, index = k + 1) ∧
      NumberedFrom (k + kind.index?.toList.length) (branchesNodes branches) := by
  unfold NumberedFrom at h ⊢
  rw [captureIndices_group] at h
  cases kind with
  | capture index =>
    obtain ⟨hindex, hrest⟩ := List.cons.inj h
    exact ⟨by rintro _ ⟨⟩; exact hindex, hrest⟩
  | plain => exact ⟨nofun, h⟩
  | lookahead negative => exact ⟨nofun, h⟩

/-! ## Texts that are read back -/

/-- Whether a text is read as the nodes of a branch, where no digit follows. -/
def ReadBack (cs : List Char) (branch : Branch) : Prop :=
  ∃ ts, (∀ rest, NoDigit rest → Reads (cs ++ rest) ts rest) ∧
    ∀ a : Arrangement, NumberedFrom a.captures (branchNodes branch) →
      a.outer.length + branchDepth branch ≤ maxDepth →
        ts.foldlM Arrangement.step a =
          .ok ⟨a.captures + (captureIndices (branchNodes branch)).length,
            ⟨a.level.branches, branch.reverse ++ a.level.nodes⟩, a.outer⟩

/-- Whether a text is read as the branches of an alternation, from where a branch begins. -/
def ReadBackBranches (cs : List Char) (branches : List Branch) : Prop :=
  ∃ ts, (∀ rest, NoDigit rest → Reads (cs ++ rest) ts rest) ∧
    ∀ a : Arrangement, a.level.nodes = [] → NumberedFrom a.captures (branchesNodes branches) →
      a.outer.length + branchesDepth branches ≤ maxDepth →
        ∃ level, ts.foldlM Arrangement.step a =
            .ok ⟨a.captures + (captureIndices (branchesNodes branches)).length, level, a.outer⟩ ∧
          level.finish = a.level.branches.reverse ++ branches

section Rows

variable {cs ds : List Char} {b c : Branch} {branches : List Branch}

theorem readBack_nil : ReadBack [] [] :=
  ⟨[], fun rest _ => .done rest, fun _ _ _ => rfl⟩

/-- A node without parts is read back if it is read as a token. -/
theorem readBack_leaf {n : Node} (hleaf : n.Leaf)
    (h : ∀ rest, NoDigit rest → Reads (cs ++ rest) [.atom n] rest) : ReadBack cs [n] := by
  refine ⟨[.atom n], h, fun a _ _ => ?_⟩
  have hnodes : branchNodes [n] = [n] := by
    rw [branchNodes, branchNodes, hleaf.nodes_eq, List.append_nil]
  have hgroups : captureIndices [n] = [] := by
    cases n with
    | group kind branches => exact hleaf.elim
    | _ => rfl
  rw [hnodes, hgroups]
  rfl

/-- **Nodes in a row.** The second part must not go on with a digit. -/
theorem ReadBack.append (h : ReadBack cs b) (h' : ReadBack ds c)
    (hds : ∀ rest, NoDigit rest → NoDigit (ds ++ rest)) : ReadBack (cs ++ ds) (b ++ c) := by
  obtain ⟨ts, hreads, hfold⟩ := h
  obtain ⟨us, hreads', hfold'⟩ := h'
  refine ⟨ts ++ us, fun rest hrest => ?_, fun a hnumbered hdepth => ?_⟩
  · rw [List.append_assoc]
    exact (hreads _ (hds rest hrest)).append (hreads' rest hrest)
  · rw [branchNodes_append] at hnumbered ⊢
    rw [branchDepth_append] at hdepth
    obtain ⟨hb, hc⟩ := numberedFrom_append.1 hnumbered
    rw [foldlM_step_append (hfold a hb (by omega)), hfold' _ hc (by simp only; omega)]
    simp [Nat.add_assoc]

theorem ReadBack.branch (h : ReadBack cs b) : ReadBackBranches cs [b] := by
  obtain ⟨ts, hreads, hfold⟩ := h
  refine ⟨ts, hreads, fun a hnodes hnumbered hdepth => ?_⟩
  have hall : branchesNodes [b] = branchNodes b := by
    rw [branchesNodes, branchesNodes, List.append_nil]
  rw [hall] at hnumbered ⊢
  refine ⟨_, hfold a hnumbered ?_, ?_⟩
  · simpa [branchesDepth] using hdepth
  · simp [Level.finish, Level.endBranch, hnodes]

/-- **Branches between bars.** -/
theorem ReadBack.or (h : ReadBack cs b) (h' : ReadBackBranches ds branches) :
    ReadBackBranches (cs ++ '|' :: ds) (b :: branches) := by
  obtain ⟨ts, hreads, hfold⟩ := h
  obtain ⟨us, hreads', hfold'⟩ := h'
  refine ⟨ts ++ .bar :: us, fun rest hrest => ?_, fun a hnodes hnumbered hdepth => ?_⟩
  · rw [List.append_assoc]
    exact (hreads _ (noDigit_cons rfl _)).append (.token rfl (hreads' rest hrest))
  · rw [branchesNodes] at hnumbered ⊢
    rw [branchesDepth] at hdepth
    obtain ⟨hb, hbranches⟩ := numberedFrom_append.1 hnumbered
    -- the bar ends the first branch
    let next : Arrangement := ⟨a.captures + (captureIndices (branchNodes b)).length,
      ⟨b :: a.level.branches, []⟩, a.outer⟩
    have hbar : (ts ++ [Token.bar]).foldlM Arrangement.step a = .ok next := by
      rw [foldlM_step_append (hfold a hb (by omega)), hnodes, List.append_nil]
      show Except.ok (Arrangement.mk _ ⟨b.reverse.reverse :: a.level.branches, []⟩ a.outer) = _
      rw [List.reverse_reverse]
    obtain ⟨level, hlevel, hfinish⟩ := hfold' next rfl hbranches (by simp only [next]; omega)
    refine ⟨level, ?_, ?_⟩
    · rw [List.append_cons, foldlM_step_append hbar, hlevel, captureIndices_append,
        List.length_append, ← Nat.add_assoc]
    · rw [hfinish]
      simp [next]

end Rows

/-! ## Groups -/

/-- How a group is opened. -/
def opening : GroupKind → Opening
  | .capture _ => .capture
  | .plain => .plain
  | .lookahead negative => .lookahead negative

theorem readToken_mark (kind : GroupKind) {rest : List Char} (h : ∀ left, rest ≠ '?' :: left) :
    readToken '(' (kind.mark ++ rest) = .ok (.opening (some (opening kind)), rest) := by
  cases kind with
  | capture index => exact readToken_paren h
  | plain => rfl
  | lookahead negative => cases negative <;> rfl

theorem openGroup_eq {kind : GroupKind} {a : Arrangement} (hdepth : a.outer.length < maxDepth)
    (hindex : ∀ index ∈ kind.index?, index = a.captures + 1) :
    a.openGroup (some (opening kind)) =
      .ok ⟨a.captures + kind.index?.toList.length, .empty, (kind, a.level) :: a.outer⟩ := by
  unfold Arrangement.openGroup
  rw [if_neg (Nat.not_le.2 hdepth)]
  cases kind with
  | capture index =>
    obtain rfl := hindex index rfl
    rfl
  | plain => rfl
  | lookahead negative => rfl

/-- **A group around branches.** What is in it must not begin with a question mark. -/
theorem ReadBackBranches.group {cs : List Char} {branches : List Branch}
    (h : ReadBackBranches cs branches) (kind : GroupKind)
    (hmark : ∀ rest left, cs ++ ')' :: rest ≠ '?' :: left) :
    ReadBack ('(' :: kind.mark ++ cs ++ [')']) [.group kind branches] := by
  obtain ⟨ts, hreads, hfold⟩ := h
  refine ⟨.opening (some (opening kind)) :: (ts ++ [.closing]), fun rest hrest => ?_,
    fun a hnumbered hdepth => ?_⟩
  · have htext : '(' :: kind.mark ++ cs ++ [')'] ++ rest =
        '(' :: (kind.mark ++ (cs ++ ')' :: rest)) := by simp
    have hclosing : Reads (')' :: rest) [.closing] rest := .token rfl (.done rest)
    rw [htext]
    exact .token (readToken_mark kind (hmark rest))
      ((hreads _ (noDigit_cons rfl rest)).append hclosing)
  · have hall : branchNodes [.group kind branches] = (Node.group kind branches).nodes := by
      rw [branchNodes, branchNodes, List.append_nil]
    have hgroup : branchDepth [.group kind branches] = branchesDepth branches + 1 := by
      simp [branchDepth, Node.depth]
    rw [hall] at hnumbered ⊢
    rw [hgroup] at hdepth
    obtain ⟨hindex, hbranches⟩ := hnumbered.group
    let inner : Arrangement :=
      ⟨a.captures + kind.index?.toList.length, .empty, (kind, a.level) :: a.outer⟩
    have hopen : a.step (.opening (some (opening kind))) = .ok inner :=
      openGroup_eq (by omega) hindex
    obtain ⟨level, hlevel, hfinish⟩ := hfold inner rfl hbranches
      (by simp only [inner, List.length_cons]; omega)
    have hfinish : level.finish = branches := hfinish
    have hbody : (Token.opening (some (opening kind)) :: ts).foldlM Arrangement.step a =
        .ok ⟨inner.captures + (captureIndices (branchesNodes branches)).length, level,
          inner.outer⟩ :=
      foldlM_cons_eq_ok_iff.2 ⟨inner, hopen, hlevel⟩
    rw [← List.cons_append, foldlM_step_append hbody]
    show Except.ok (Arrangement.mk _ (a.level.push (.group kind level.finish)) a.outer) = _
    rw [hfinish, captureIndices_group, List.length_append, ← Nat.add_assoc]
    rfl

/-! ## Repetitions -/

/-- A node that can be repeated may stand before a quantifier, unless it is a repetition. -/
theorem quantifiable_of_repeatable {min : Nat} {max : Option Nat} {body : Node}
    (h : body.Repeatable min max) (hbody : ¬body.IsRepetition) (questionMark : Bool) :
    Arrangement.quantifiable questionMark body = true := by
  cases body with
  | anchor a => exact h.elim
  | repetition => exact absurd trivial hbody
  | _ => rfl

/-- **A node that is repeated.** -/
theorem ReadBack.repeated {cs mark : List Char} {body : Node} {min : Nat} {max : Option Nat}
    {t : Token} {questionMark : Bool} (h : ReadBack cs [body])
    (ht : t.Quantifies questionMark min max)
    (hmark : ∀ rest, NoDigit (mark ++ rest) ∧ Reads (mark ++ rest) [t] rest)
    (hbody : Arrangement.quantifiable questionMark body = true) :
    ReadBack (cs ++ mark) [.repetition min max body] := by
  obtain ⟨ts, hreads, hfold⟩ := h
  refine ⟨ts ++ [t], fun rest _ => ?_, fun a hnumbered hdepth => ?_⟩
  · rw [List.append_assoc]
    exact (hreads _ (hmark rest).1).append (hmark rest).2
  · have hquantify : ∀ a' : Arrangement, a'.level.nodes = body :: a.level.nodes →
        a'.step t = .ok { a' with level :=
          { a'.level with nodes := .repetition min max body :: a.level.nodes } } := by
      intro a' hnodes
      cases ht with
      | quantifier => simp [Arrangement.step, Arrangement.quantify, hnodes, hbody]
      | questionMark => simp [Arrangement.step, Arrangement.quantify, hnodes, hbody]
    -- the groups in a repeated node are those in the node
    rw [foldlM_step_append (hfold a hnumbered hdepth), foldlM_cons_eq_ok_iff]
    exact ⟨_, hquantify _ rfl, rfl⟩

/-! ## Printed nodes -/

section Printed

variable (style : Style)

/-- A printed node begins with no digit and no question mark. -/
theorem exists_print_eq_cons (n : Node) :
    ∃ c more, n.print style = c :: more ∧ c.isDigit = false ∧ c ≠ '?' := by
  induction n with
  | char c =>
    obtain ⟨d, more, hprint, hdigit, hmark, -⟩ := readToken_char style c
    exact ⟨d, more, hprint, hdigit, hmark⟩
  | charClass k => exact ⟨'[', _, rfl, rfl, by decide⟩
  | anchor a =>
    cases a with
    | start => exact ⟨'^', _, rfl, rfl, by decide⟩
    | finish => exact ⟨'$', _, rfl, rfl, by decide⟩
    | wordBoundary => exact ⟨'\\', _, rfl, rfl, by decide⟩
    | insideWord => exact ⟨'\\', _, rfl, rfl, by decide⟩
  | backreference index => exact ⟨'\\', _, rfl, rfl, by decide⟩
  | group kind branches ih => exact ⟨'(', _, rfl, rfl, by decide⟩
  | marked min max body ih =>
    obtain ⟨c, more, hprint, hc⟩ := ih
    exact ⟨c, _, by rw [Node.print, hprint]; rfl, hc⟩
  | repetition min max body hm ih =>
    obtain ⟨c, more, hprint, hc⟩ := ih
    refine ⟨c, more ++ style.quantifier min max, ?_, hc⟩
    rw [Node.print, hprint]
    · rfl
    · exact hm

/-- What no printed node begins with, a printed branch does not begin with. -/
theorem head?_branchPrint {ok : Char → Prop} (hok : ∀ c, c.isDigit = false → c ≠ '?' → ok c)
    {branch : Branch} {rest : List Char} (h : ∀ c ∈ rest.head?, ok c) :
    ∀ c ∈ (branchPrint style branch ++ rest).head?, ok c := by
  cases branch with
  | nil => exact h
  | cons n ns =>
    obtain ⟨d, more, hprint, hdigit, hmark⟩ := exists_print_eq_cons style n
    rw [branchPrint, hprint]
    rintro _ ⟨⟩
    exact hok d hdigit hmark

theorem head?_branchesPrint {ok : Char → Prop} (hok : ∀ c, c.isDigit = false → c ≠ '?' → ok c)
    {branches : List Branch} {rest : List Char} (h : ∀ c ∈ rest.head?, ok c) :
    ∀ c ∈ (branchesPrint style branches ++ rest).head?, ok c := by
  cases branches with
  | nil => exact h
  | cons b bs =>
    cases bs with
    | nil => exact head?_branchPrint style hok h
    | cons b' bs =>
      rw [branchesPrint, List.append_assoc]
      · refine head?_branchPrint style hok ?_
        rintro _ ⟨⟩
        exact hok '|' rfl (by decide)
      · exact nofun

variable {style}

theorem readBack_branch_of {branch : Branch} (h : ∀ n ∈ branch, ReadBack (n.print style) [n]) :
    ReadBack (branchPrint style branch) branch := by
  induction branch with
  | nil => exact readBack_nil
  | cons n ns ih =>
    obtain ⟨hn, hns⟩ := List.forall_mem_cons.1 h
    exact hn.append (ih hns) fun rest hrest => head?_branchPrint style (fun _ hc _ => hc) hrest

theorem readBackBranches_of {branches : List Branch} (hne : branches ≠ [])
    (h : ∀ b ∈ branches, ∀ n ∈ b, ReadBack (n.print style) [n]) :
    ReadBackBranches (branchesPrint style branches) branches := by
  induction branches with
  | nil => exact absurd rfl hne
  | cons b bs ih =>
    obtain ⟨hb, hbs⟩ := List.forall_mem_cons.1 h
    cases bs with
    | nil => exact (readBack_branch_of hb).branch
    | cons b' bs =>
      rw [branchesPrint]
      · exact (readBack_branch_of hb).or (ih (List.cons_ne_nil b' bs) hbs)
      · exact nofun

/-- A repetition is read back if what it repeats is. -/
theorem ReadBack.repetition {cs : List Char} {body : Node} {min : Nat} {max : Option Nat}
    (h : ReadBack cs [body]) (hsound : (Node.repetition min max body).Sound)
    (hbody : ¬body.IsRepetition) :
    ReadBack (cs ++ style.quantifier min max) [.repetition min max body] := by
  obtain ⟨hmin, hmax, hrepeatable⟩ := hsound
  obtain ⟨t, questionMark, ht, hreads⟩ := reads_quantifier style hmin hmax
  exact h.repeated ht hreads (quantifiable_of_repeatable hrepeatable hbody questionMark)

/-- **Every node that can be written is read back.** -/
theorem readBack_node {n : Node} (h : ∀ m ∈ n.nodes, m.Sound) : ReadBack (n.print style) [n] := by
  induction n with
  | char c => exact readBack_leaf trivial fun rest _ => reads_char style c rest
  | charClass k =>
    exact readBack_leaf trivial fun rest _ => reads_class style (h _ (Node.self_mem_nodes _)) rest
  | anchor a => exact readBack_leaf trivial fun rest _ => reads_anchor a rest
  | backreference index =>
    obtain ⟨hpos, hlimit⟩ := h _ (Node.self_mem_nodes _)
    exact readBack_leaf trivial fun rest hrest => reads_backreference hpos hlimit hrest
  | group kind branches ih =>
    have hbranches := readBackBranches_of (h _ (Node.self_mem_nodes _)) fun b hb n hn =>
      ih b hb n hn fun m hm => h m (List.mem_cons_of_mem _ (mem_branchesNodes_of_mem hb hn hm))
    refine hbranches.group kind fun rest left heq => ?_
    have hmark : ∀ c ∈ (branchesPrint style branches ++ ')' :: rest).head?, c ≠ '?' := by
      refine head?_branchesPrint style (fun _ _ hc => hc) ?_
      rintro _ ⟨⟩
      decide
    rw [heq] at hmark
    exact hmark '?' rfl rfl
  | marked min max body ih =>
    obtain ⟨-, -, hmark⟩ := h _ (Node.self_mem_nodes _)
    have hinner : ReadBack (body.print style ++ style.quantifier min max)
        [.repetition min max body] := by
      have hrepetition := List.mem_cons_of_mem
        (Node.repetition 0 (some 1) (.repetition min max body))
        (Node.self_mem_nodes (.repetition min max body))
      refine (ih fun m hm => h m ?_).repetition (h _ hrepetition) hmark.2.2
      exact List.mem_cons_of_mem _ (List.mem_cons_of_mem _ hm)
    have hquantifiable : Arrangement.quantifiable true (.repetition min max body) = true := by
      cases body with
      | repetition => exact absurd trivial hmark.2.2
      | _ => rfl
    rw [Node.print]
    exact hinner.repeated .questionMark
      (fun rest => ⟨noDigit_cons rfl rest, .token rfl (.done rest)⟩) hquantifiable
  | repetition min max body hm ih =>
    have hsound := h _ (Node.self_mem_nodes _)
    rw [Node.print]
    · refine (ih fun m hmem => h m (List.mem_cons_of_mem _ hmem)).repetition hsound ?_
      -- only a lazy mark is around a repetition
      intro hbody
      cases body with
      | repetition min' max' body' =>
        obtain ⟨rfl, rfl, -⟩ := hsound.2.2
        exact hm min' max' body' rfl rfl rfl
      | _ => exact hbody.elim
    · exact hm

end Printed

end Syntax

open Syntax

/-- **Printing a tree that can be written, and reading its text, gives the tree back.** -/
theorem Tree.parse_print (style : Style) {tree : Tree} (h : tree.WellFormed) :
    Tree.parse (String.ofList (tree.print style)) = .ok tree := by
  have hread : ReadBackBranches (tree.print style) tree.branches :=
    readBackBranches_of h.branches fun b hb n hn =>
      readBack_node fun m hm => h.sound m (mem_branchesNodes_of_mem hb hn hm)
  obtain ⟨ts, hreads, hfold⟩ := hread
  have hcaptures : (captureIndices (branchesNodes tree.branches)).length = tree.captures := by
    have hlength := congrArg List.length h.captures
    rwa [List.length_range'] at hlength
  have hnumbered : NumberedFrom 0 (branchesNodes tree.branches) := by
    rw [NumberedFrom, hcaptures]
    exact h.captures
  obtain ⟨level, hlevel, hfinish⟩ := hfold .start rfl hnumbered
    (by simpa [Arrangement.start] using h.depth)
  have htext := hreads [] noDigit_nil
  rw [List.append_nil] at htext
  rw [parse_eq_ok_iff, String.toList_ofList]
  refine ⟨ts, _, htext, hlevel, rfl, ?_⟩
  have hfinish : level.finish = tree.branches := hfinish
  rw [hfinish, hcaptures]
  simp [Arrangement.start]

/-- A group of a letter and a class, repeated lazily, and a reference to it. -/
theorem Tree.parse_print_lazy_group :
    Tree.WellFormed ⟨[[.repetition 0 (some 1) (.repetition 2 none (.group (.capture 1)
        [[.char 'a'], [.charClass ⟨true, [.char '-', .interval '0' '9']⟩]])),
        .backreference 1]], 1⟩ ∧
      Tree.parse (String.ofList (Tree.print .braces ⟨[[.repetition 0 (some 1) (.repetition 2 none
          (.group (.capture 1) [[.char 'a'], [.charClass ⟨true, [.char '-', .interval '0' '9']⟩]])),
          .backreference 1]], 1⟩)) =
        .ok ⟨[[.repetition 0 (some 1) (.repetition 2 none (.group (.capture 1)
          [[.char 'a'], [.charClass ⟨true, [.char '-', .interval '0' '9']⟩]])),
          .backreference 1]], 1⟩ := by
  refine ⟨?wellFormed, Tree.parse_print .braces ?wellFormed⟩
  refine ⟨by simp, ?_, by decide, rfl⟩
  have hlimit : 2 < numberLimit := by decide
  simp [Tree.nodes, branchesNodes, branchNodes, Node.nodes, Node.Sound, ClassMember.Sound,
    Node.Repeatable, Node.IsRepetition]
  omega

/-- The text of that tree. -/
example :
    Tree.print .braces ⟨[[.repetition 0 (some 1) (.repetition 2 none (.group (.capture 1)
      [[.char 'a'], [.charClass ⟨true, [.char '-', .interval '0' '9']⟩]])), .backreference 1]],
      1⟩ = "(\\u0061|[^\\u002d\\u0030-\\u0039]){2,}?\\1".toList := by decide

end SequenceConstraint
