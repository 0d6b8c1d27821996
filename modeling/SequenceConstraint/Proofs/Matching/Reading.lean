import SequenceConstraint.Proofs.Matching.Positions

/-!
# Reading a text between two positions

A matcher speaks of positions in a text, a generator of the texts it puts together. `Reads` ties
the two: between two positions stands a text.

## Main statements

* `reads_append_iff`, `times_reads_iff` — texts one after the other
* `mem_consume_iff` — a character that is taken stands between the two positions
* `mem_repeatCaptured_iff` — a backreference takes the text of its group once more
-/

namespace SequenceConstraint.Matching

/-- Whether the text `w` stands between two positions. -/
structure Reads (text : Array Char) (p q : Nat) (w : List Char) : Prop where
  forward : p ≤ q
  inside : q ≤ text.size
  spells : (text.extract p q).toList = w

section Reads

variable {text : Array Char} {p q k : Nat} {v w : List Char}

theorem Reads.length (h : Reads text p q w) : w.length = q - p := by
  have hinside := h.inside
  rw [← h.spells, Array.length_toList, Array.size_extract]
  omega

theorem Reads.eq_add_length (h : Reads text p q w) : q = p + w.length := by
  have hforward := h.forward
  have hlength := h.length
  omega

theorem reads_nil_iff (hp : p ≤ text.size) : Reads text p q [] ↔ q = p := by
  constructor
  · intro h
    exact h.eq_add_length
  · rintro rfl
    exact ⟨Nat.le_refl q, hp, by simp⟩

theorem reads_singleton_iff {c : Char} : Reads text p q [c] ↔ text[p]? = some c ∧ q = p + 1 := by
  constructor
  · intro h
    obtain rfl : q = p + 1 := h.eq_add_length
    refine ⟨?_, rfl⟩
    have hinside := h.inside
    have hspells := congrArg (fun l : List Char => l[0]?) h.spells
    simpa [Array.getElem?_eq_getElem hinside, List.getElem?_take] using hspells
  · rintro ⟨hc, rfl⟩
    obtain ⟨hp, rfl⟩ := Array.getElem?_eq_some_iff.1 hc
    refine ⟨Nat.le_succ p, hp, ?_⟩
    rw [Array.extract_succ_right (Nat.lt_succ_self p) hp]
    simp only [Array.extract_eq_empty_of_le (Nat.min_le_left p text.size), Array.toList_push,
      List.nil_append]

theorem reads_append (hv : Reads text p k v) (hw : Reads text k q w) :
    Reads text p q (v ++ w) := by
  refine ⟨Nat.le_trans hv.forward hw.forward, hw.inside, ?_⟩
  rw [← hv.spells, ← hw.spells, ← Array.toList_append, Array.extract_append_extract,
    Nat.min_eq_left hv.forward, Nat.max_eq_right hw.forward]

/-- **Two texts, one after the other.** -/
theorem reads_append_iff : Reads text p q (v ++ w) ↔ ∃ r, Reads text p r v ∧ Reads text r q w := by
  constructor
  · intro h
    have hlength := h.length
    have hforward := h.forward
    have hinside := h.inside
    rw [List.length_append] at hlength
    -- the text is cut where the first one ends
    have hcut : (text.extract p (p + v.length)).toList ++ (text.extract (p + v.length) q).toList =
        v ++ w := by
      rw [← h.spells, ← Array.toList_append, Array.extract_append_extract,
        Nat.min_eq_left (by omega), Nat.max_eq_right (by omega)]
    have hv : (text.extract p (p + v.length)).toList.length = v.length := by
      rw [Array.length_toList, Array.size_extract]
      omega
    obtain ⟨hfirst, hsecond⟩ := List.append_inj hcut hv
    exact ⟨p + v.length, ⟨by omega, by omega, hfirst⟩, ⟨by omega, hinside, hsecond⟩⟩
  · rintro ⟨r, hv, hw⟩
    exact reads_append hv hw

/-- **A number of texts, one after the other.** -/
theorem times_reads_iff {α : Type} {P : α → Prop} {f : α → List Char} (hp : p ≤ text.size) :
    Times (fun p q => ∃ a, P a ∧ Reads text p q (f a)) k p q ↔
      ∃ as : List α, as.length = k ∧ (∀ a ∈ as, P a) ∧ Reads text p q (as.flatMap f) := by
  induction k generalizing p with
  | zero =>
    simp only [Times, List.length_eq_zero_iff, exists_eq_left, List.flatMap_nil, reads_nil_iff hp]
    simp
  | succ k ih =>
    constructor
    · rintro ⟨r, ⟨a, ha, hr⟩, hrest⟩
      obtain ⟨as, hk, has, hq⟩ := (ih hr.inside).1 hrest
      refine ⟨a :: as, by rw [List.length_cons, hk], List.forall_mem_cons.2 ⟨ha, has⟩, ?_⟩
      exact reads_append hr hq
    · rintro ⟨as, hk, has, hq⟩
      cases as with
      | nil => cases hk
      | cons a as =>
        obtain ⟨ha, has⟩ := List.forall_mem_cons.1 has
        obtain ⟨r, hr, hq⟩ := reads_append_iff.1 hq
        exact ⟨r, ⟨a, ha, hr⟩, (ih hr.inside).2 ⟨as, Nat.succ.inj hk, has, hq⟩⟩

theorem reads_whole_iff : Reads text 0 q text.toList ↔ q = text.size := by
  constructor
  · intro h
    rw [h.eq_add_length, Nat.zero_add, Array.length_toList]
  · rintro rfl
    exact ⟨Nat.zero_le _, Nat.le_refl _, by rw [Array.extract_size]⟩

theorem Reads.eq_whole (h : Reads text 0 text.size w) : w = text.toList := by
  rw [← h.spells, Array.extract_size]

end Reads

/-! ## Nodes that take characters -/

section States

variable {text : Array Char} {s t : MatchState}

/-- **A character that is taken stands between the two positions.** -/
theorem mem_consume_iff {test : Char → Bool} :
    t ∈ consume text test s ↔
      ∃ c, test c = true ∧ Reads text s.position t.position [c] ∧ t.captures = s.captures := by
  simp only [reads_singleton_iff]
  unfold consume
  constructor
  · intro h
    split at h
    · rename_i c hc
      split at h
      · rename_i htest
        obtain rfl := List.mem_singleton.1 h
        exact ⟨c, htest, ⟨hc, rfl⟩, rfl⟩
      · cases h
    · cases h
  · rintro ⟨c, htest, ⟨hc, hposition⟩, hcaptures⟩
    obtain ⟨position, captures⟩ := t
    obtain rfl : position = s.position + 1 := hposition
    obtain rfl : captures = s.captures := hcaptures
    rw [hc]
    simp [htest, MatchState.advance]

/-- **A backreference takes the text of its group once more.** -/
theorem mem_repeatCaptured_iff {index : Nat} {span : Span} {w : List Char}
    (hspan : s.captured? index = some span) (hw : Reads text span.start span.stop w) :
    t ∈ repeatCaptured text index s ↔
      Reads text s.position t.position w ∧ t.captures = s.captures := by
  have hlength := hw.length
  unfold repeatCaptured
  rw [hspan]
  simp only
  rw [← hlength]
  constructor
  · intro h
    split at h
    · rename_i hin
      obtain rfl := List.mem_singleton.1 h
      refine ⟨⟨Nat.le_add_right _ _, hin.1, ?_⟩, rfl⟩
      exact (congrArg Array.toList hin.2).trans hw.spells
    · cases h
  · rintro ⟨hr, hcaptures⟩
    have hposition := hr.eq_add_length
    have hinside := hr.inside
    have hspells := hr.spells
    rw [hposition] at hinside hspells
    have hsame : text.extract s.position (s.position + w.length) =
        text.extract span.start span.stop :=
      Array.toList_inj.1 (hspells.trans hw.spells.symm)
    rw [if_pos ⟨hinside, hsame⟩, List.mem_singleton]
    obtain ⟨position, captures⟩ := t
    obtain rfl : position = s.position + w.length := hposition
    obtain rfl : captures = s.captures := hcaptures
    rfl

end States

end SequenceConstraint.Matching
