import SequenceConstraint.Proofs.Syntax.Fragments
import SequenceConstraint.Proofs.Syntax.Leaves

/-!
# One pair of parentheses

In a text with one pair of parentheses around it and no others, whatever is read inside is part of
the group: no other group can begin, and the group can only be closed where its parenthesis stands.
A class or a backslash may swallow that parenthesis, but then the group is left open, and the text
cannot be read.

## Main statements

* `Reads.enclosed` — the tokens up to the parenthesis that closes the group
* `exists_group_of_parse` — the tree is one group that is repeated, without groups in it
-/

namespace SequenceConstraint.Syntax

/-- Whether a token opens or closes no group. -/
def Token.InGroup (t : Token) : Prop := t.InBranch ∨ t = .bar

variable {cs body : List Char} {ts : List Token}

theorem inGroup_readToken {c : Char} {left : List Char} {t : Token}
    (h : readToken c cs = .ok (t, left)) (hopen : c ≠ '(') (hclose : c ≠ ')') : t.InGroup := by
  rcases readToken_cases h with hin | ⟨-, rfl, -⟩ | ⟨rfl, -⟩ | ⟨rfl, -⟩
  · exact .inl hin
  · exact .inr rfl
  · exact absurd rfl hclose
  · exact absurd rfl hopen

theorem Reads.inGroup {rest : List Char} (h : Reads cs ts rest) (hopen : '(' ∉ cs)
    (hclose : ')' ∉ cs) : ∀ t ∈ ts, t.InGroup := by
  intro t ht
  obtain ⟨c, more, left, hsuffix, hread⟩ := h.exists_readToken ht
  have hmem : c ∈ cs := hsuffix.subset List.mem_cons_self
  refine inGroup_readToken hread ?_ ?_
  · rintro rfl
    exact hopen hmem
  · rintro rfl
    exact hclose hmem

/-- What is left of a text before a closing parenthesis and a mark either still ends in the two, or
has lost the parenthesis. -/
theorem suffix_enclosed (h : cs <:+ body ++ [')', '+']) :
    (∃ body', cs = body' ++ [')', '+'] ∧ body' <:+ body) ∨ cs <:+ ['+'] := by
  rcases List.suffix_or_suffix_of_suffix h (List.suffix_append body [')', '+']) with hshort | hlong
  · rcases List.suffix_cons_iff.1 hshort with rfl | hshort
    · exact .inl ⟨[], rfl, List.nil_suffix⟩
    · exact .inr hshort
  · obtain ⟨body', rfl⟩ := hlong
    obtain ⟨front, hfront⟩ := h
    rw [← List.append_assoc] at hfront
    exact .inl ⟨body', rfl, front, List.append_cancel_right hfront⟩

/-- **The tokens of an enclosed text** stay in the group up to its closing parenthesis, or the
parenthesis is no token at all. -/
theorem Reads.enclosed (hopen : '(' ∉ body) (hclose : ')' ∉ body)
    (h : Reads (body ++ [')', '+']) ts []) :
    (∀ t ∈ ts, t.InGroup) ∨
      ∃ us, (∀ t ∈ us, t.InGroup) ∧ ts = us ++ [.closing, .quantifier 1 none] := by
  generalize hcs : body ++ [')', '+'] = cs at h
  generalize hrest : ([] : List Char) = rest at h
  induction h generalizing body with
  | done =>
    subst hrest
    simp at hcs
  | @token c cs left rest t ts head tail ih =>
    subst hrest
    cases body with
    | nil =>
      -- here stands the parenthesis
      obtain ⟨rfl, rfl⟩ := List.cons.inj hcs
      cases head
      cases tail with
      | token head tail =>
        cases head
        cases tail
        exact .inr ⟨[], by simp, rfl⟩
    | cons d body =>
      obtain ⟨rfl, rfl⟩ := List.cons.inj hcs
      obtain ⟨hd, hopen⟩ := not_or.1 fun hor => hopen (List.mem_cons.2 hor)
      obtain ⟨hd', hclose⟩ := not_or.1 fun hor => hclose (List.mem_cons.2 hor)
      have ht : t.InGroup := inGroup_readToken head (Ne.symm hd) (Ne.symm hd')
      rcases suffix_enclosed (suffix_readToken head) with ⟨body', rfl, hsuffix⟩ | hlost
      · have hrest := ih (fun hmem => hopen (hsuffix.subset hmem))
          (fun hmem => hclose (hsuffix.subset hmem)) rfl rfl
        rcases hrest with hall | ⟨us, hus, rfl⟩
        · exact .inl (List.forall_mem_cons.2 ⟨ht, hall⟩)
        · exact .inr ⟨t :: us, List.forall_mem_cons.2 ⟨ht, hus⟩, rfl⟩
      · refine .inl (List.forall_mem_cons.2 ⟨ht, tail.inGroup ?_ ?_⟩)
        · exact fun hmem => absurd (hlost.subset hmem) (by decide)
        · exact fun hmem => absurd (hlost.subset hmem) (by decide)

/-! ## Arranging them -/

/-- Tokens in a group leave open what is open. -/
theorem outer_of_step {t : Token} (ht : t.InGroup) {a a' : Arrangement} (h : a.step t = .ok a') :
    a'.outer = a.outer := by
  rcases ht with ht | rfl
  · rw [step_eq ht] at h
    cases hnodes : t.extend a.level.nodes with
    | error e =>
      rw [hnodes] at h
      cases h
    | ok nodes =>
      rw [hnodes] at h
      cases h
      rfl
  · cases h
    rfl

theorem outer_of_foldlM (hts : ∀ t ∈ ts, t.InGroup) {a a' : Arrangement}
    (h : ts.foldlM Arrangement.step a = .ok a') : a'.outer = a.outer := by
  refine foldlM_keeps (P := fun b => b.outer = a.outer) (fun t ht b b' hb hstep => ?_) rfl h
  rw [outer_of_step (hts t ht) hstep, hb]

/-- Tokens in a group put no groups in it. -/
theorem groupless_of_foldlM (hts : ∀ t ∈ ts, t.InGroup) (hleaves : ∀ n, .atom n ∈ ts → n.Leaf)
    {kind : GroupKind} {captures : Nat} {a : Arrangement}
    (h : ts.foldlM Arrangement.step ⟨captures, .empty, [(kind, .empty)]⟩ = .ok a) :
    Groupless (branchesNodes a.level.finish) := by
  let ok : Node → Prop := fun n => ∀ kind branches, n ≠ .group kind branches
  have hstart : Arrangement.Over ok ⟨captures, .empty, [(kind, .empty)]⟩ := by
    refine ⟨fun m hm => absurd hm List.not_mem_nil, fun g hg m hm => ?_⟩
    rw [List.mem_singleton.1 hg] at hm
    exact absurd hm List.not_mem_nil
  have hover : a.Over ok := by
    refine foldlM_keeps (fun t ht a a' ha hstep => ?_) hstart h
    refine ha.step (fun _ _ _ _ _ _ _ _ => nofun) ?_ (fun n hn => ?_) hstep
    · rintro rfl
      rcases hts _ ht with hin | hbar
      · exact hin.elim
      · cases hbar
    · subst hn
      refine ⟨hleaves n ht, fun kind branches heq => ?_⟩
      have hleaf := hleaves n ht
      rw [heq] at hleaf
      exact hleaf
  exact fun kind branches hmem => hover.level _ hmem kind branches rfl

/-- What has been read since the first parenthesis, when its group is open. -/
theorem openGroup_start {kind : Option Opening} {a : Arrangement}
    (h : Arrangement.start.openGroup kind = .ok a) :
    ∃ k captures, a = ⟨captures, .empty, [(k, .empty)]⟩ := by
  unfold Arrangement.openGroup at h
  rw [if_neg (by decide)] at h
  split at h
  · cases h
  all_goals
    cases h
    exact ⟨_, _, rfl⟩

/-- **The tree of an enclosed text** is one group that is repeated, and has no groups in it. -/
theorem exists_group_of_parse (hopen : '(' ∉ body) (hclose : ')' ∉ body) {t : Tree}
    (h : Tree.parse (String.ofList ('(' :: body ++ [')', '+'])) = .ok t) :
    ∃ kind branches, t.branches = [[.repetition 1 none (.group kind branches)]] ∧
      Groupless (branchesNodes branches) := by
  obtain ⟨ts, a, hreads, hfold, houter, rfl⟩ := parse_eq_ok_iff.1 h
  rw [String.toList_ofList, List.cons_append] at hreads
  cases hreads with
  | @token _ _ _ _ _ ts head tail =>
    cases head
    obtain ⟨a₁, hfirst, hfold⟩ := foldlM_cons_eq_ok_iff.1 hfold
    obtain ⟨kind, captures, rfl⟩ := openGroup_start hfirst
    -- a group whose parenthesis is no token is left open
    have hleft : ¬∀ t ∈ ts, t.InGroup := by
      intro hts
      rw [outer_of_foldlM hts hfold] at houter
      cases houter
    have htokens : ∃ us, (∀ t ∈ us, t.InGroup) ∧ ts = us ++ [.closing, .quantifier 1 none] := by
      rcases suffix_enclosed (suffix_readOpening _) with ⟨body', hbody, hsuffix⟩ | hlost
      · have hreads := tail
        rw [hbody] at hreads
        exact (hreads.enclosed (fun hmem => hopen (hsuffix.subset hmem))
          (fun hmem => hclose (hsuffix.subset hmem))).resolve_left hleft
      · refine absurd (tail.inGroup ?_ ?_) hleft
        · exact fun hmem => absurd (hlost.subset hmem) (by decide)
        · exact fun hmem => absurd (hlost.subset hmem) (by decide)
    obtain ⟨us, hus, rfl⟩ := htokens
    obtain ⟨a₂, hinside, hend⟩ := foldlM_append_eq_ok_iff.1 hfold
    have houter₂ := outer_of_foldlM hus hinside
    have hleaves : ∀ n, .atom n ∈ us → n.Leaf := by
      intro n hn
      obtain ⟨c, more, left, -, hread⟩ :=
        tail.exists_readToken (List.mem_append_left [.closing, .quantifier 1 none] hn)
      exact leaf_readToken hread
    obtain ⟨a₃, hclosed, hend⟩ := foldlM_cons_eq_ok_iff.1 hend
    obtain ⟨a₄, hrepeated, hend⟩ := foldlM_cons_eq_ok_iff.1 hend
    cases hend
    have hclosed : a₂.closeGroup = .ok a₃ := hclosed
    unfold Arrangement.closeGroup at hclosed
    rw [houter₂] at hclosed
    cases hclosed
    cases hrepeated
    exact ⟨kind, a₂.level.finish, rfl, groupless_of_foldlM hus hleaves hinside⟩

end SequenceConstraint.Syntax
