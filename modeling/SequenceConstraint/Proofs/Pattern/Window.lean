import SequenceConstraint.Proofs.Pattern.Selection

/-!
# What the lists of a pattern promise

A pattern can consist of any two trees: ones that no text is read as, ones whose texts have little
to do with what they accept. What its lists promise then rests on how they are made alone: whatever
is listed has been looked up, the lists are in canonical order, and the number of symbols of the
valid sequences is counted from the first of those that are found without further repeats.

That first sequence is also the first of `validSequences 0`: the window of `n = 0` leaves out only
what has more symbols.

## Main statements

* `validTexts_eq_ok_iff` — the two selections that the valid sequences are made of
* `exists_validTexts_zero` — the first of them gives the first sequence of all lists
* `lists_sound` — order, verdict and number of symbols of what is listed
-/

namespace SequenceConstraint.Pattern

section Lists

variable {p : Pattern} {fits : List Char → Bool} {accepted : Bool} {run : Run Snapshot}

/-! ## Selections that succeed -/

theorem exists_selectFrom
    (h : ∀ s ∈ sequencesOf run, fits s = true → ∃ b, p.checkText s = .ok b)
    (seen : Std.TreeSet (List Char) compare) (kept : List (List Char)) :
    ∃ out, p.selectFrom fits accepted seen kept run = .ok out := by
  induction run generalizing seen kept with
  | done last => exact ⟨_, rfl⟩
  | yield state rest ih =>
    rw [sequencesOf_yield] at h
    obtain ⟨hstate, hrest⟩ := List.forall_mem_cons.1 h
    rw [selectFrom]
    split
    · exact ih () hrest seen kept
    · rename_i hnew
      rw [Bool.or_eq_true, Bool.not_eq_true', not_or, Bool.not_eq_false] at hnew
      obtain ⟨b, hb⟩ := hstate hnew.1
      rw [hb]
      exact ih () hrest _ _

/-- **There is a list if every text that fits is decided.** -/
theorem exists_select (h : ∀ s ∈ sequencesOf run, fits s = true → ∃ b, p.checkText s = .ok b) :
    ∃ out, p.select fits accepted run = .ok out := by
  obtain ⟨texts, htexts⟩ := exists_selectFrom h ∅ []
  exact ⟨_, select_eq_ok_iff.2 ⟨texts, htexts, rfl⟩⟩

/-- A sequence that comes before the first one of a list is not in it. -/
theorem order_head_ne_gt {s first : List Char} {rest : List (List Char)}
    (h : (first :: rest).Pairwise fun s t => Dotted.order s t = .lt) (hs : s ∈ first :: rest) :
    Dotted.order first s ≠ .gt := by
  rcases List.mem_cons.1 hs with rfl | hs
  · rw [Dotted.order_eq_eq.2 rfl]
    decide
  · rw [List.rel_of_pairwise_cons h hs]
    decide

/-! ## The two selections of the valid sequences -/

variable {n : Nat} {out : List (List Char)}

/-- **The valid sequences are selected twice:** the first selection only tells how many symbols the
sequences of the second may have. -/
theorem validTexts_eq_ok_iff :
    p.validTexts n = .ok out ↔
      ∃ plan found, p.tree.plan = .ok plan ∧
        p.select (fun _ => true) true (plan.run 0 []) = .ok found ∧
        ((found = [] ∧ out = []) ∨ ∃ first rest, found = first :: rest ∧
          p.select (fun s => Dotted.symbolCount s ≤ Dotted.symbolCount first + n) true
            (plan.run n []) = .ok out) := by
  unfold validTexts planOf
  cases hplan : p.tree.plan with
  | error e =>
    simp only [reduceCtorEq, false_and, exists_false, iff_false]
    exact fun h => nomatch h
  | ok plan =>
    show (p.select (fun _ => true) true (plan.run 0 []) >>= _) = _ ↔ _
    simp only [Except.ok.injEq, exists_and_left, exists_eq_left']
    cases p.select (fun _ => true) true (plan.run 0 []) with
    | error e =>
      simp only [reduceCtorEq, false_and, exists_false, iff_false]
      exact fun h => nomatch h
    | ok found =>
      simp only [Except.ok.injEq, exists_eq_left']
      cases found with
      | nil =>
        simp only [true_and, reduceCtorEq, false_and, exists_false, or_false]
        show Except.ok [] = Except.ok out ↔ _
        rw [Except.ok.injEq, eq_comm]
      | cons first rest =>
        simp only [reduceCtorEq, false_and, false_or, List.cons.injEq]
        constructor
        · intro h
          exact ⟨first, rest, ⟨rfl, rfl⟩, h⟩
        · rintro ⟨_, _, ⟨rfl, rfl⟩, h⟩
          exact h

/-- **The first sequence that is found is the first one of `validSequences 0`.** -/
theorem exists_validTexts_zero {plan : Plan} {found : List (List Char)}
    (hplan : p.tree.plan = .ok plan)
    (hfound : p.select (fun _ => true) true (plan.run 0 []) = .ok found) :
    ∃ out, p.validTexts 0 = .ok out ∧ out.head? = found.head? := by
  cases found with
  | nil => exact ⟨[], validTexts_eq_ok_iff.2 ⟨plan, [], hplan, hfound, .inl ⟨rfl, rfl⟩⟩, rfl⟩
  | cons first rest =>
    -- all texts have been decided, so those of the window are
    obtain ⟨out, hout⟩ : ∃ out, p.select
        (fun s => Dotted.symbolCount s ≤ Dotted.symbolCount first + 0) true (plan.run 0 []) =
          .ok out :=
      exists_select fun s hs _ => exists_checkText hfound hs rfl
    refine ⟨out, validTexts_eq_ok_iff.2 ⟨plan, _, hplan, hfound, .inr ⟨first, rest, rfl, hout⟩⟩, ?_⟩
    obtain ⟨hgenerated, -, haccepted⟩ := (mem_select hfound).1 (List.mem_cons_self (a := first))
    have hfirst : first ∈ out := (mem_select hout).2 ⟨hgenerated, by simp, haccepted⟩
    cases out with
    | nil => cases hfirst
    | cons head tail =>
      obtain ⟨hgenerated, -, haccepted⟩ := (mem_select hout).1 (List.mem_cons_self (a := head))
      have hhead : head ∈ first :: rest := (mem_select hfound).2 ⟨hgenerated, rfl, haccepted⟩
      -- each of the two comes first in a list that holds the other
      have hle := order_head_ne_gt (pairwise_select hout) hfirst
      have hge := order_head_ne_gt (pairwise_select hfound) hhead
      have heq : Dotted.order head first = .eq := by
        cases horder : Dotted.order head first with
        | lt => exact absurd (Std.OrientedCmp.gt_iff_lt.2 horder) hge
        | eq => rfl
        | gt => exact absurd horder hle
      rw [Dotted.order_eq_eq.1 heq]
      rfl

end Lists

/-! ## Everything that is listed -/

theorem nodup_of_pairwise {v : List String}
    (h : v.Pairwise fun s t => Dotted.order s.toList t.toList = .lt) : v.Nodup := by
  refine h.imp fun {s t} hlt => ?_
  rintro rfl
  rw [Dotted.order_eq_eq.2 rfl] at hlt
  cases hlt

/-- Every valid sequence is accepted, and it has at most `n` symbols more than the first one of
`validSequences 0`; without that one there is none. -/
theorem validTexts_sound {p : Pattern} {n : Nat} {out : List (List Char)}
    (h : p.validTexts n = .ok out) :
    out.Pairwise (fun s t => Dotted.order s t = .lt) ∧ (∀ s ∈ out, p.checkText s = .ok true) ∧
      ∃ out₀, p.validTexts 0 = .ok out₀ ∧
        ∀ s ∈ out, ∃ first ∈ out₀.head?, Dotted.symbolCount s ≤ Dotted.symbolCount first + n := by
  obtain ⟨plan, found, hplan, hfound, hcases⟩ := validTexts_eq_ok_iff.1 h
  obtain ⟨out₀, hzero, hhead⟩ := exists_validTexts_zero hplan hfound
  rcases hcases with ⟨-, rfl⟩ | ⟨first, rest, rfl, hselect⟩
  · exact ⟨.nil, by simp, out₀, hzero, by simp⟩
  · refine ⟨pairwise_select hselect, fun s hs => ((mem_select hselect).1 hs).2.2, out₀, hzero, ?_⟩
    intro s hs
    exact ⟨first, hhead, of_decide_eq_true ((mem_select hselect).1 hs).2.1⟩

theorem invalidTexts_sound {p : Pattern} {k : Nat} {out : List (List Char)}
    (h : p.invalidTexts k = .ok out) :
    out.Pairwise (fun s t => Dotted.order s t = .lt) ∧
      ∀ s ∈ out, p.checkText s = .ok false ∧ Dotted.symbolCount s ≤ k := by
  unfold invalidTexts planOf at h
  cases hplan : p.combinations.plan with
  | error e =>
    rw [hplan] at h
    cases h
  | ok plan =>
    have hselect : p.select (fun s => Dotted.symbolCount s ≤ k) false (plan.run (k - 1) []) =
        .ok out := by
      rw [hplan] at h
      exact h
    refine ⟨pairwise_select hselect, fun s hs => ?_⟩
    obtain ⟨-, hfits, hcheck⟩ := (mem_select hselect).1 hs
    exact ⟨hcheck, of_decide_eq_true hfits⟩

/-- **What the lists of a pattern promise,** whatever its trees: both are in canonical order and
list nothing twice, the valid sequences are accepted and within their window, the invalid ones are
rejected and no longer than asked for, and so nothing is in both lists. -/
theorem lists_sound (p : Pattern) (n k : Nat) :
    (∀ v, p.validSequences n = .ok v →
      v.Pairwise (fun s t => Dotted.order s.toList t.toList = .lt) ∧ v.Nodup ∧
      (∀ s ∈ v, p.check s = .ok true) ∧
      ∃ v₀, p.validSequences 0 = .ok v₀ ∧ (v₀ = [] → v = []) ∧
        ∀ first rest, v₀ = first :: rest →
          ∀ s ∈ v, Dotted.symbolCount s.toList ≤ Dotted.symbolCount first.toList + n) ∧
    (∀ w, p.invalidSequences k = .ok w →
      w.Pairwise (fun s t => Dotted.order s.toList t.toList = .lt) ∧
      ∀ s ∈ w, p.check s = .ok false ∧ Dotted.symbolCount s.toList ≤ k) ∧
    ∀ v w, p.validSequences n = .ok v → p.invalidSequences k = .ok w → ∀ s ∈ v, s ∉ w := by
  have hvalid : ∀ v, p.validSequences n = .ok v → ∀ s ∈ v, p.check s = .ok true := by
    intro v hv s hs
    obtain ⟨out, hout, rfl⟩ := map_eq_ok_iff.1 hv
    obtain ⟨t, ht, rfl⟩ := List.mem_map.1 hs
    rw [check, String.toList_ofList]
    exact (validTexts_sound hout).2.1 t ht
  have hinvalid : ∀ w, p.invalidSequences k = .ok w →
      ∀ s ∈ w, p.check s = .ok false ∧ Dotted.symbolCount s.toList ≤ k := by
    intro w hw s hs
    obtain ⟨out, hout, rfl⟩ := map_eq_ok_iff.1 hw
    obtain ⟨t, ht, rfl⟩ := List.mem_map.1 hs
    rw [check, String.toList_ofList]
    exact (invalidTexts_sound hout).2 t ht
  refine ⟨fun v hv => ?_, fun w hw => ⟨?_, hinvalid w hw⟩, fun v w hv hw s hsv hsw => ?_⟩
  · obtain ⟨out, hout, rfl⟩ := map_eq_ok_iff.1 hv
    obtain ⟨hpairwise, -, out₀, hzero, hwindow⟩ := validTexts_sound hout
    have hpairwise := pairwise_map_ofList hpairwise
    refine ⟨hpairwise, nodup_of_pairwise hpairwise, hvalid _ hv, out₀.map String.ofList,
      map_eq_ok_iff.2 ⟨out₀, hzero, rfl⟩, ?_, ?_⟩
    · intro hnil
      obtain rfl := List.map_eq_nil_iff.1 hnil
      rw [List.map_eq_nil_iff, List.eq_nil_iff_forall_not_mem]
      intro s hs
      obtain ⟨first, hfirst, -⟩ := hwindow s hs
      cases hfirst
    · intro first rest hcons s hs
      obtain ⟨t, ht, rfl⟩ := List.mem_map.1 hs
      obtain ⟨u, hu, hle⟩ := hwindow t ht
      obtain ⟨us, rfl⟩ := List.head?_eq_some_iff.1 hu
      obtain ⟨rfl, -⟩ := List.cons.inj hcons
      simpa only [String.toList_ofList] using hle
  · obtain ⟨out, hout, rfl⟩ := map_eq_ok_iff.1 hw
    exact pairwise_map_ofList (invalidTexts_sound hout).1
  · -- the matcher gives one answer only
    have htrue := hvalid v hv s hsv
    rw [(hinvalid w hw s hsw).1] at htrue
    cases htrue

/-- The tree of `X(?!X)[XY]`, which has nothing to do with the pattern `Any`. -/
def unrelated : Tree :=
  ⟨[[.char 'X', .group (.lookahead true) [[.char 'X']], .charClass ⟨false, [.interval 'X' 'Y']⟩]], 0⟩

/-- The pattern `Any`, with a reader that reads everything as that tree. -/
def misread : Pattern := ⟨"Any", ["Any"], unrelated, unrelated⟩

theorem misread_lists :
    Id.run (compileWith (fun _ => pure (.ok unrelated)) "Any") = .ok misread ∧
      misread.validSequences 1 = .ok ["X.Y"] ∧ misread.invalidSequences 2 = .ok ["X.X"] ∧
      misread.check "X.Y" = .ok true ∧ misread.check "X.X" = .ok false := by
  have hvalid : misread.validSequences 1 = .ok ["X.Y"] := by decide +kernel
  have hinvalid : misread.invalidSequences 2 = .ok ["X.X"] := by decide +kernel
  obtain ⟨hv, hw, -⟩ := lists_sound misread 1 2
  obtain ⟨-, -, haccepted, -⟩ := hv _ hvalid
  refine ⟨by decide +kernel, hvalid, hinvalid, haccepted "X.Y" List.mem_cons_self, ?_⟩
  exact ((hw _ hinvalid).2 "X.X" List.mem_cons_self).1

end SequenceConstraint.Pattern
