import SequenceConstraint.Proofs.Agreement.Nodes
import SequenceConstraint.Proofs.Generation.EmptyTexts

/-!
# Groups that may be left out

A group that has taken no part is not bound by the generator and not captured by the matcher, and a
reference to it takes the empty text on both sides. So the two still go the same way if what the one
recalls of a group is what the other does, the group left out or not (`Recalls`).

## Main statements

* `Recalls.frame` — what comes between keeps what is recalled of the groups it does not capture
* `Recalls.record` — a group that is completed on both sides
* `Recalls.leftOut` — a part that is left out, or of which only empty groups are shown
-/

namespace SequenceConstraint

open Matching

/-! ## Texts of names -/

namespace Bindings

variable {groups left env : Bindings} {name : Nat}

theorem text_append_append (h : ∀ g ∈ left, g.1 ≠ name) :
    text (groups ++ (left ++ env)) name = text (groups ++ env) name := by
  have hleft : List.lookup name left = none :=
    List.lookup_eq_none_iff.2 fun g hg => bne_iff_ne.2 (h g hg).symm
  unfold text
  rw [List.lookup_append, List.lookup_append, List.lookup_append, hleft, Option.none_or]

/-- A name under which nothing but the empty text is bound has the empty text. -/
theorem text_eq_nil (h : ∀ g ∈ env, g.1 = name → g.2 = []) : env.text name = [] := by
  unfold text
  cases hlookup : env.lookup name with
  | none => rfl
  | some w =>
    obtain ⟨l₁, l₂, hsplit, -⟩ := List.lookup_eq_some_iff.1 hlookup
    exact h (name, w) (by simp [hsplit]) rfl

end Bindings

/-! ## Recalling -/

/-- Whether the matcher recalls a text for an index; nothing captured counts as the empty text. -/
def Recalled (text : Array Char) (s : MatchState) (index : Nat) (w : List Char) : Prop :=
  match s.captured? index with
  | some span => Reads text span.start span.stop w
  | none => w = []

/-- Whether generator and matcher recall the same of the groups with the indices in `live`. -/
structure Recalls (text : Array Char) (live : List Nat) (σ : Naming) (env : Bindings)
    (s : MatchState) : Prop where
  inside : s.position ≤ text.size
  places : s.captures.length = σ.limit + 1
  valid : σ.Valid
  bound : ∀ g ∈ env, g.1 < σ.fresh
  recalled : ∀ index ∈ live, ∀ name, σ.name? index = some name →
    Recalled text s index (env.text name)

section Recalled

variable {text : Array Char} {s t : MatchState} {index : Nat} {w : List Char}

theorem recalled_congr (h : t.captured? index = s.captured? index) :
    Recalled text t index w ↔ Recalled text s index w := by
  unfold Recalled
  rw [h]

theorem recalled_nil (h : s.captured? index = none) : Recalled text s index [] := by
  unfold Recalled
  rw [h]

/-- **A reference takes what is recalled once more.** -/
theorem exists_repeatCaptured (h : Recalled text s index w) {q : Nat}
    (hreads : Reads text s.position q w) :
    ⟨q, s.captures⟩ ∈ repeatCaptured text index s := by
  unfold Recalled at h
  cases hspan : s.captured? index with
  | none =>
    rw [hspan] at h
    obtain rfl : w = [] := h
    obtain rfl : q = s.position := hreads.eq_add_length
    simp [repeatCaptured, hspan]
  | some span =>
    rw [hspan] at h
    exact (mem_repeatCaptured_iff hspan h).2 ⟨hreads, rfl⟩

end Recalled

namespace Recalls

variable {text : Array Char} {live later : List Nat} {σ σ' : Naming} {env groups : Bindings}
  {s t : MatchState}

theorem mono (h : Recalls text live σ env s) (hlive : ∀ i ∈ later, i ∈ live) :
    Recalls text later σ env s where
  inside := h.inside
  places := h.places
  valid := h.valid
  bound := h.bound
  recalled index hi := h.recalled index (hlive index hi)

/-- What is recalled of each group by itself is recalled of all of them. -/
theorem of_forall (h : Recalls text [] σ env s) (hall : ∀ i ∈ live, Recalls text [i] σ env s) :
    Recalls text live σ env s where
  inside := h.inside
  places := h.places
  valid := h.valid
  bound := h.bound
  recalled index hi := (hall index hi).recalled index List.mem_cons_self

/-- A node that takes characters and captures nothing. -/
theorem advance (h : Recalls text live σ env s) (hinside : t.position ≤ text.size)
    (hcaptures : t.captures = s.captures) : Recalls text live σ env t where
  inside := hinside
  places := by rw [hcaptures, h.places]
  valid := h.valid
  bound := h.bound
  recalled := by
    unfold Recalled MatchState.captured?
    rw [hcaptures]
    exact h.recalled

/-- Names that are given after some groups have been bound are none of theirs. -/
theorem bound_append {indices names : List Nat} (h : Recalls text live σ env s)
    (hext : Naming.Extends indices names σ σ') (hgroups : ∀ g ∈ groups, g.1 ∈ names) :
    ∀ g ∈ groups ++ env, g.1 < σ'.fresh := by
  refine List.forall_mem_append.2 ⟨fun g hg => (hext.names g.1 (hgroups g hg)).2, fun g hg => ?_⟩
  exact Nat.lt_of_lt_of_le (h.bound g hg) hext.fresh

/-- **What comes between keeps what is recalled** of the groups it does not capture. What stands for
nothing afterwards does not matter. -/
theorem frame {indices names : List Nat} (h : Recalls text live σ env s)
    (hlive : ∀ i ∈ later, i ∈ live) (hout : ∀ i ∈ later, i ∈ indices → σ'.name? i = none)
    (hext : Naming.Extends indices names σ σ') (hfollows : Follows text indices s t)
    (hgroups : ∀ g ∈ groups, g.1 ∈ names) : Recalls text later σ' (groups ++ env) t where
  inside := hfollows.inside h.inside
  places := by rw [hfollows.places, h.places, hext.limit]
  valid := hext.valid h.valid
  bound := h.bound_append hext hgroups
  recalled index hi name hname := by
    have hindex : index ∉ indices := by
      intro hmem
      rw [hout index hi hmem] at hname
      cases hname
    rw [hext.kept index hindex] at hname
    rw [recalled_congr (hfollows.kept index hindex), Bindings.text_append]
    · exact h.recalled index (hlive index hi) name hname
    · -- names given in between are fresh
      rintro g hg rfl
      have hfresh := hext.names g.1 (hgroups g hg)
      have hgiven := h.valid index g.1 hname
      omega

/-- **A part that is left out,** or of which only empty groups are shown, leaves the matcher where
it is. What the part captures must not have been captured before. -/
theorem leftOut {indices names : List Nat} (h : Recalls text live σ env s)
    (hlive : ∀ i ∈ later, i ∈ live) (hunnamed : ∀ i ∈ indices, σ.name? i = none)
    (hunset : ∀ i ∈ later, i ∈ indices → s.captured? i = none)
    (hext : Naming.Extends indices names σ σ') (hgroups : ∀ g ∈ groups, g.1 ∈ names ∧ g.2 = []) :
    Recalls text later σ' (groups ++ env) s where
  inside := h.inside
  places := by rw [h.places, hext.limit]
  valid := hext.valid h.valid
  bound := h.bound_append hext fun g hg => (hgroups g hg).1
  recalled index hi name hname := by
    by_cases hindex : index ∈ indices
    · -- the name is fresh, so nothing but an empty group is bound to it
      have hfresh : σ.fresh ≤ name := by
        rcases hext.given index name hname with hname | ⟨hfresh, -⟩
        · rw [hunnamed index hindex] at hname
          cases hname
        · exact hfresh
      have htext : (groups ++ env).text name = [] := by
        refine Bindings.text_eq_nil fun g hg hgname => ?_
        rcases List.mem_append.1 hg with hg | hg
        · exact (hgroups g hg).2
        · have := h.bound g hg
          omega
      rw [htext]
      exact recalled_nil (hunset index hi hindex)
    · have hlone : Recalls text [index] σ env s := h.mono (by simpa using hlive index hi)
      have hframe := hlone.frame (fun i hi => hi) (by simp [hindex]) hext (Follows.refl s)
        fun g hg => (hgroups g hg).1
      exact hframe.recalled index List.mem_cons_self name hname

/-- **A group that is completed on both sides.** -/
theorem record {index : Nat} {body : Plan} {w : List Char} (h : Recalls text live σ env t)
    (hw : Reads text s.position t.position w) (hindex : index ≤ σ.limit) :
    Recalls text live (σ.record index body).2 ((σ.fresh, w) :: env) (s.capture index t) := by
  refine ⟨h.inside, ?_, h.valid.record, ?_, ?_⟩
  · rw [Naming.record, if_pos hindex]
    exact (List.length_set ..).trans h.places
  · rw [Naming.record, if_pos hindex]
    refine List.forall_mem_cons.2 ⟨Nat.lt_succ_self _, fun g hg => ?_⟩
    exact Nat.lt_succ_of_lt (h.bound g hg)
  · intro i hi name hname
    rw [Naming.name?_record hindex] at hname
    by_cases he : i = index
    · -- the group itself
      subst he
      rw [if_pos rfl, Option.some.injEq] at hname
      subst hname
      have hplace : i < t.captures.length := by
        rw [h.places]
        omega
      have hspan : (s.capture i t).captured? i = some ⟨s.position, t.position⟩ := by
        simp [MatchState.captured?, MatchState.capture, hplace]
      unfold Recalled
      rw [hspan]
      simpa [Bindings.text] using hw
    · rw [if_neg he] at hname
      have hfresh := h.valid i name hname
      have hkept : (s.capture index t).captured? i = t.captured? i := by
        simp [MatchState.captured?, MatchState.capture, List.getElem?_set_ne (Ne.symm he)]
      rw [recalled_congr hkept, ← List.singleton_append, Bindings.text_append]
      · exact h.recalled i hi name hname
      · intro g hg
        obtain rfl := List.mem_singleton.1 hg
        omega

end Recalls

end SequenceConstraint
