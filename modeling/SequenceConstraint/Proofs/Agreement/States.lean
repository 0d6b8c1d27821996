import SequenceConstraint.Proofs.Generation.Planning
import SequenceConstraint.Proofs.Matching.Reading

/-!
# States that agree

A generator and a matcher both go through a tree from left to right. On the way the generator binds
texts to names, the matcher records where groups have begun and ended. The two agree (`Agree`) if
the text bound for an index is what stands between the recorded positions; only the indices matter
that a backreference further on still refers to.

## Main statements

* `Agree.frame` — what comes between keeps agreement for the indices it does not capture
* `Agree.record` — a group that is completed on both sides
-/

namespace SequenceConstraint

open Matching

/-- The text of a name that some groups do not bind. -/
theorem Bindings.text_append {groups env : Bindings} {name : Nat} (h : ∀ g ∈ groups, g.1 ≠ name) :
    Bindings.text (groups ++ env) name = env.text name := by
  unfold Bindings.text
  rw [List.lookup_append, List.lookup_eq_none_iff.2, Option.none_or]
  intro g hg
  exact bne_iff_ne.2 (h g hg).symm

/-- Whether a generator and a matcher have the same texts for the indices in `live`. -/
structure Agree (text : Array Char) (live : List Nat) (σ : Naming) (env : Bindings)
    (s : MatchState) : Prop where
  inside : s.position ≤ text.size
  places : s.captures.length = σ.limit + 1
  valid : σ.Valid
  reads : ∀ index ∈ live, ∀ name, σ.name? index = some name →
    ∃ span, s.captured? index = some span ∧ Reads text span.start span.stop (env.text name)

namespace Agree

variable {text : Array Char} {live later : List Nat} {σ σ' : Naming} {env groups : Bindings}
  {s t : MatchState}

theorem mono (h : Agree text live σ env s) (hlive : ∀ i ∈ later, i ∈ live) :
    Agree text later σ env s where
  inside := h.inside
  places := h.places
  valid := h.valid
  reads index hi := h.reads index (hlive index hi)

/-- **What comes between keeps agreement** for the indices it does not capture; those that stand
for nothing afterwards do not matter. -/
theorem frame {indices names : List Nat} (h : Agree text live σ env s)
    (hlive : ∀ i ∈ later, i ∈ live) (hout : ∀ i ∈ later, i ∈ indices → σ'.name? i = none)
    (hext : Naming.Extends indices names σ σ') (hfollows : Follows text indices s t)
    (hgroups : ∀ g ∈ groups, g.1 ∈ names) : Agree text later σ' (groups ++ env) t where
  inside := hfollows.inside h.inside
  places := by rw [hfollows.places, h.places, hext.limit]
  valid := hext.valid h.valid
  reads index hi name hname := by
    have hindex : index ∉ indices := by
      intro hmem
      rw [hout index hi hmem] at hname
      cases hname
    rw [hext.kept index hindex] at hname
    obtain ⟨span, hspan, hreads⟩ := h.reads index (hlive index hi) name hname
    refine ⟨span, (hfollows.kept index hindex).trans hspan, ?_⟩
    -- names given in between are fresh
    rwa [Bindings.text_append]
    rintro g hg rfl
    have hfresh := hext.names g.1 (hgroups g hg)
    have hgiven := h.valid index g.1 hname
    omega

/-- A node that takes characters and captures nothing. -/
theorem advance (h : Agree text live σ env s) (hinside : t.position ≤ text.size)
    (hcaptures : t.captures = s.captures) : Agree text live σ env t where
  inside := hinside
  places := by rw [hcaptures, h.places]
  valid := h.valid
  reads := by
    unfold MatchState.captured?
    rw [hcaptures]
    exact h.reads

/-- **A group that is completed on both sides.** -/
theorem record {index : Nat} {body : Plan} {w : List Char} (h : Agree text live σ env t)
    (hw : Reads text s.position t.position w) (hindex : index ≤ σ.limit) :
    Agree text live (σ.record index body).2 ((σ.fresh, w) :: env) (s.capture index t) := by
  refine ⟨h.inside, ?_, h.valid.record, ?_⟩
  · rw [Naming.record, if_pos hindex]
    exact (List.length_set ..).trans h.places
  · intro i hi name hname
    rw [Naming.name?_record hindex] at hname
    by_cases he : i = index
    · -- the group itself
      subst he
      rw [if_pos rfl, Option.some.injEq] at hname
      subst hname
      have hplace : i < t.captures.length := by
        rw [h.places]
        omega
      refine ⟨⟨s.position, t.position⟩, ?_, ?_⟩
      · simp [MatchState.captured?, MatchState.capture, hplace]
      · simpa [Bindings.text] using hw
    · rw [if_neg he] at hname
      obtain ⟨span, hspan, hreads⟩ := h.reads i hi name hname
      have hfresh := h.valid i name hname
      refine ⟨span, ?_, ?_⟩
      · rw [← hspan]
        simp [MatchState.captured?, MatchState.capture, List.getElem?_set_ne (Ne.symm he)]
      · rw [← List.singleton_append, Bindings.text_append]
        · exact hreads
        · intro g hg
          obtain rfl := List.mem_singleton.1 hg
          omega

end Agree

end SequenceConstraint
