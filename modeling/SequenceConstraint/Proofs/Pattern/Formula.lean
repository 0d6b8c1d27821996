import SequenceConstraint.Proofs.Pattern.ReadExpression
import SequenceConstraint.Proofs.Syntax.Reads

/-!
# Formulas

All patterns that are written with symbols, dots, bars, parentheses and the marks `+` and `*`. A
mark binds to the symbol or to the parentheses right before it, a bar binds weakest; how tightly a
formula holds together is part of its type, so every formula is read the way it is built.

Reading goes character by character. A mark behind a symbol therefore repeats its last letter, not
the symbol (`repeatLast`).

## Main statements

* `tokenizes_flatten_render` — the tokens of a formula without its dots
* `foldlM_tokens` — what these tokens are arranged to, if the arrangement succeeds
* `eq_of_parse_flatten_render` — the tree that a formula is read as
-/

namespace SequenceConstraint

open Syntax

/-- How tightly a formula holds together. -/
inductive Binding where
  | atom
  | repeated
  | sequence
  | choice
deriving DecidableEq

inductive Formula : Binding → Type where
  | symbol (s : Symbol) : Formula .atom
  /-- `(F)` -/
  | group {b : Binding} (f : Formula b) : Formula .atom
  /-- `F+` -/
  | plus (f : Formula .atom) : Formula .repeated
  /-- `F*` -/
  | star (f : Formula .atom) : Formula .repeated
  /-- `F.F` -/
  | sequence {b c : Binding} (f : Formula b) (g : Formula c) (hf : b ≠ .choice)
      (hg : c ≠ .choice) : Formula .sequence
  /-- `F|F` -/
  | choice {b c : Binding} (f : Formula b) (g : Formula c) : Formula .choice

/-- The branch with its last node repeated at least `min` times. -/
def repeatLast (min : Nat) (branch : Branch) : Branch :=
  branch.dropLast ++ (branch.getLast?.map (.repetition min none)).toList

theorem repeatLast_concat (min : Nat) (branch : Branch) (n : Node) :
    repeatLast min (branch ++ [n]) = branch ++ [.repetition min none n] := by
  simp [repeatLast]

namespace Formula

variable {b : Binding}

/-- The text of a formula. -/
def render : {b : Binding} → Formula b → List Char
  | _, symbol s => s.1
  | _, group f => '(' :: f.render ++ [')']
  | _, plus f => f.render ++ ['+']
  | _, star f => f.render ++ ['*']
  | _, sequence f g _ _ => f.render ++ '.' :: g.render
  | _, choice f g => f.render ++ '|' :: g.render

/-- The number of groups. -/
def captures : {b : Binding} → Formula b → Nat
  | _, symbol _ => 0
  | _, group f => f.captures + 1
  | _, plus f => f.captures
  | _, star f => f.captures
  | _, sequence f g _ _ => f.captures + g.captures
  | _, choice f g => f.captures + g.captures

/-- The branches that a formula is read as, after `k` capturing groups. Only a choice has several. -/
def branches : {b : Binding} → Formula b → (k : Nat) → List Branch
  | _, symbol s, _ => [s.1.map .char]
  | _, group f, k => [[.group (.capture (k + 1)) (f.branches (k + 1))]]
  | _, plus f, k => (f.branches k).map (repeatLast 1)
  | _, star f, k => (f.branches k).map (repeatLast 0)
  | _, sequence f g _ _, k => [(f.branches k).flatten ++ (g.branches (k + f.captures)).flatten]
  | _, choice f g, k => f.branches k ++ g.branches (k + f.captures)

/-- What holds together more tightly than a choice has one branch. -/
theorem branches_eq (f : Formula b) (k : Nat) (h : b ≠ .choice) :
    f.branches k = [(f.branches k).flatten] := by
  induction f with
  | symbol s => rw [branches, List.flatten_singleton]
  | group f ih => rw [branches, List.flatten_singleton]
  | plus f ih =>
    rw [branches, ih (by decide)]
    simp
  | star f ih =>
    rw [branches, ih (by decide)]
    simp
  | sequence f g hf hg ihf ihg => rw [branches, List.flatten_singleton]
  | choice f g ihf ihg => exact absurd rfl h

theorem branches_ne_nil (f : Formula b) (k : Nat) : f.branches k ≠ [] := by
  by_cases h : b = .choice
  · induction f with
    | choice f g ihf ihg =>
      rename_i b c
      rw [branches]
      refine List.append_ne_nil_of_left_ne_nil ?_ _
      by_cases hb : b = .choice
      · exact ihf hb
      · rw [branches_eq f k hb]
        exact List.cons_ne_nil _ _
    | _ => cases h
  · rw [branches_eq f k h]
    exact List.cons_ne_nil _ _

/-- A symbol has a letter, and a group is a node. -/
theorem exists_branches_eq (f : Formula .atom) (k : Nat) :
    ∃ front n, f.branches k = [front ++ [n]] := by
  cases f with
  | symbol s =>
    obtain ⟨front, c, hs⟩ := (List.eq_nil_or_concat' s.1).resolve_left s.2.ne_nil
    refine ⟨front.map .char, .char c, ?_⟩
    rw [branches, hs, List.map_append]
    rfl
  | group f => exact ⟨[], _, rfl⟩

/-! ## Tokens -/

def tokens : {b : Binding} → Formula b → List Token
  | _, symbol s => s.1.map fun c => .atom (.char c)
  | _, group f => .opening (some .capture) :: f.tokens ++ [.closing]
  | _, plus f => f.tokens ++ [.quantifier 1 none]
  | _, star f => f.tokens ++ [.quantifier 0 none]
  | _, sequence f g _ _ => f.tokens ++ g.tokens
  | _, choice f g => f.tokens ++ .bar :: g.tokens

theorem unmarked_render (f : Formula b) : '?' ∉ f.render := by
  induction f with
  | symbol s =>
    intro hmem
    exact absurd (s.2.isAlpha _ hmem) (by decide)
  | group f ih => simp [render, ih]
  | plus f ih => simp [render, ih]
  | star f ih => simp [render, ih]
  | sequence f g hf hg ihf ihg => simp [render, ihf, ihg]
  | choice f g ihf ihg => simp [render, ihf, ihg]

theorem tokenizes_letters {cs : List Char} (h : ∀ c ∈ cs, c.isAlpha = true) :
    Tokenizes cs (cs.map fun c => .atom (.char c)) := by
  induction cs with
  | nil => exact tokenizes_nil
  | cons c cs ih =>
    obtain ⟨hc, hcs⟩ := List.forall_mem_cons.1 h
    exact (tokenizes_letter hc).append (ih hcs)

/-- **The tokens of a formula without its dots.** -/
theorem tokenizes_flatten_render (f : Formula b) :
    Tokenizes (Dotted.flatten f.render) f.tokens := by
  induction f with
  | symbol s =>
    rw [render, Dotted.flatten_of_notMem s.2.separator_notMem]
    exact tokenizes_letters s.2.isAlpha
  | group f ih =>
    have htext : Dotted.flatten (group f).render = '(' :: Dotted.flatten f.render ++ [')'] := by
      simp [render, Dotted.flatten, Dotted.separator]
    rw [htext]
    exact ih.enclosed fun hmem => f.unmarked_render (List.mem_filter.1 hmem).1
  | plus f ih =>
    rw [render, Dotted.flatten_append]
    exact ih.append tokenizes_plus
  | star f ih =>
    rw [render, Dotted.flatten_append]
    exact ih.append tokenizes_star
  | sequence f g hf hg ihf ihg =>
    have htext : Dotted.flatten (sequence f g hf hg).render =
        Dotted.flatten f.render ++ Dotted.flatten g.render := Dotted.flatten_append _ _
    rw [htext]
    exact ihf.append ihg
  | choice f g ihf ihg =>
    have htext : Dotted.flatten (choice f g).render =
        Dotted.flatten f.render ++ (['|'] ++ Dotted.flatten g.render) := Dotted.flatten_append _ _
    rw [htext]
    exact ihf.append (tokenizes_bar.append ihg)

end Formula

/-! ## Arranging the tokens -/

namespace Syntax

/-- An alternation that has been read on by some branches: the first of them goes on where the
branch being read stands. -/
def Level.read (level : Level) : List Branch → Level
  | [] => level
  | [b] => { level with nodes := b.reverse ++ level.nodes }
  | b :: bs => Level.read ⟨(level.nodes.reverse ++ b) :: level.branches, []⟩ bs

namespace Level

theorem read_cons (level : Level) (b : Branch) {bs : List Branch} (h : bs ≠ []) :
    level.read (b :: bs) = Level.read ⟨(level.nodes.reverse ++ b) :: level.branches, []⟩ bs := by
  cases bs with
  | nil => exact absurd rfl h
  | cons c bs => rfl

/-- A bar between some branches and others. -/
theorem read_append (level : Level) {bs cs : List Branch} (hb : bs ≠ []) (hc : cs ≠ []) :
    (level.read bs).endBranch.read cs = level.read (bs ++ cs) := by
  induction bs generalizing level with
  | nil => exact absurd rfl hb
  | cons b bs ih =>
    cases bs with
    | nil =>
      rw [List.singleton_append, read_cons level b hc]
      simp [read, endBranch]
    | cons b' bs =>
      have hne : b' :: bs ++ cs ≠ [] := List.append_ne_nil_of_left_ne_nil (List.cons_ne_nil b' bs) cs
      rw [List.cons_append, read_cons level b (List.cons_ne_nil b' bs), read_cons level b hne]
      exact ih _ (List.cons_ne_nil b' bs)

theorem finish_read (level : Level) {bs : List Branch} (h : bs ≠ []) (hnodes : level.nodes = []) :
    (level.read bs).finish = level.branches.reverse ++ bs := by
  induction bs generalizing level with
  | nil => exact absurd rfl h
  | cons b bs ih =>
    cases bs with
    | nil => simp [read, finish, endBranch, hnodes]
    | cons b' bs =>
      rw [read_cons level b (List.cons_ne_nil b' bs), ih _ (List.cons_ne_nil b' bs) rfl]
      simp [hnodes]

end Level

section Arrange

variable {a a' : Arrangement} {ts us : List Token}

theorem foldlM_letters (cs : List Char) :
    (cs.map fun c => Token.atom (.char c)).foldlM Arrangement.step a =
      .ok { a with level := { a.level with nodes := (cs.map .char).reverse ++ a.level.nodes } } := by
  induction cs generalizing a with
  | nil => rfl
  | cons c cs ih =>
    rw [List.map_cons, List.foldlM_cons]
    show (cs.map fun c => Token.atom (.char c)).foldlM Arrangement.step
      { a with level := a.level.push (.char c) } = _
    rw [ih]
    simp [Level.push]

/-- A mark repeats the last node of the branch being read. -/
theorem level_of_quantify {min : Nat} {front nodes : Branch} {n : Node}
    (hnodes : a.level.nodes = (front ++ [n]).reverse ++ nodes)
    (h : a.step (.quantifier min none) = .ok a') :
    a' = { a with
      level := { a.level with nodes := (repeatLast min (front ++ [n])).reverse ++ nodes } } := by
  change a.quantify false min none = .ok a' at h
  rw [List.reverse_append, List.reverse_singleton, List.cons_append, List.nil_append,
    List.cons_append] at hnodes
  unfold Arrangement.quantify at h
  rw [hnodes] at h
  simp only at h
  split at h
  · cases h
    rw [repeatLast_concat, List.reverse_append]
    rfl
  · cases h

end Arrange

end Syntax

namespace Formula

variable {b : Binding}

theorem foldlM_quantified {f : Formula .atom} {min : Nat} {a a' : Arrangement}
    (ih : ∀ {a a' : Arrangement}, f.tokens.foldlM Arrangement.step a = .ok a' →
      a' = ⟨a.captures + f.captures, a.level.read (f.branches a.captures), a.outer⟩)
    (h : (f.tokens ++ [Token.quantifier min none]).foldlM Arrangement.step a = .ok a') :
    a' = ⟨a.captures + f.captures, a.level.read ((f.branches a.captures).map (repeatLast min)),
      a.outer⟩ := by
  obtain ⟨a₁, h₁, h₂⟩ := foldlM_append_eq_ok_iff.1 h
  obtain rfl := ih h₁
  simp only [List.foldlM_cons, List.foldlM_nil, bind_pure] at h₂
  obtain ⟨front, n, hbranches⟩ := f.exists_branches_eq a.captures
  rw [hbranches] at h₂ ⊢
  exact level_of_quantify rfl h₂

/-- **What the tokens of a formula are arranged to,** if the arrangement succeeds. -/
theorem foldlM_tokens (f : Formula b) {a a' : Arrangement}
    (h : f.tokens.foldlM Arrangement.step a = .ok a') :
    a' = ⟨a.captures + f.captures, a.level.read (f.branches a.captures), a.outer⟩ := by
  induction f generalizing a a' with
  | symbol s =>
    rw [tokens, foldlM_letters] at h
    cases h
    rfl
  | group f ih =>
    obtain ⟨a₁, h₁, h₂⟩ := foldlM_append_eq_ok_iff.1 h
    rw [List.foldlM_cons] at h₁
    -- the group is opened, unless it is nested too deep
    cases hopen : a.openGroup (some .capture) with
    | error e =>
      change (a.openGroup (some .capture) >>= _) = _ at h₁
      rw [hopen] at h₁
      cases h₁
    | ok inner =>
      change (a.openGroup (some .capture) >>= _) = _ at h₁
      rw [hopen] at h₁
      unfold Arrangement.openGroup at hopen
      split at hopen
      · cases hopen
      · cases hopen
        obtain rfl := ih h₁
        cases h₂
        rw [Level.finish_read _ (f.branches_ne_nil _) rfl]
        show Arrangement.mk _ _ _ = Arrangement.mk _ _ _
        rw [captures, Nat.add_assoc, Nat.add_comm 1]
        rfl
  | plus f ih => exact foldlM_quantified ih h
  | star f ih => exact foldlM_quantified ih h
  | sequence f g hf hg ihf ihg =>
    obtain ⟨a₁, h₁, h₂⟩ := foldlM_append_eq_ok_iff.1 h
    obtain rfl := ihf h₁
    obtain rfl := ihg h₂
    rw [captures, Nat.add_assoc, branches, f.branches_eq _ hf, g.branches_eq _ hg]
    simp [Level.read]
  | choice f g ihf ihg =>
    obtain ⟨a₁, h₁, h₂⟩ := foldlM_append_eq_ok_iff.1 h
    obtain rfl := ihf h₁
    rw [List.foldlM_cons] at h₂
    obtain rfl := ihg h₂
    rw [captures, Nat.add_assoc, branches,
      ← Level.read_append _ (f.branches_ne_nil _) (g.branches_ne_nil _)]

/-- The tree that a formula is read as. -/
def tree (f : Formula b) : Tree := ⟨f.branches 0, f.captures⟩

/-- **The tree that a formula is read as,** if it is read at all. -/
theorem eq_of_parse_flatten_render (f : Formula b) {t : Tree}
    (h : Tree.parse (String.ofList (Dotted.flatten f.render)) = .ok t) : t = f.tree := by
  have htokens : readTokens [] (Dotted.flatten f.render) = ⟨f.tokens, none⟩ := by
    have hwhole := f.tokenizes_flatten_render [] []
    rw [List.append_nil, List.append_nil] at hwhole
    rw [hwhole, readTokens, List.reverse_reverse]
  unfold Tree.parse TokenList.arrange at h
  rw [String.toList_ofList, htokens] at h
  simp only at h
  cases hfold : f.tokens.foldlM Arrangement.step .start with
  | error e =>
    rw [hfold] at h
    cases h
  | ok a =>
    rw [hfold] at h
    obtain rfl := f.foldlM_tokens hfold
    cases h
    rw [Level.finish_read _ (f.branches_ne_nil _) rfl]
    show Tree.mk (f.branches 0) (0 + f.captures) = f.tree
    rw [Nat.zero_add]
    rfl

end Formula

end SequenceConstraint
