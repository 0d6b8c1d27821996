import Mathlib.Data.List.TakeWhile
import SequenceConstraint.Proofs.Pattern.ReadExpression

/-!
# Symbols as runs

A run is a piece of a text without operators, and it is maximal if it is not part of a longer one.
The symbols of a pattern are what is written at its maximal runs. Where they stand, and how often,
makes no difference: they are listed in canonical order, each once.

## Main statements

* `Dotted.isMaximalRun_iff` — a run is maximal if operators, or the ends of the text, are around it
* `Dotted.mem_symbols_iff` — the symbols of a pattern are its maximal runs
* `Pattern.symbols_spec` — what a compiled pattern lists
-/

namespace SequenceConstraint

namespace Dotted

variable {s w left right : List Char} {start stop : Nat}

/-! ## Maximal runs -/

/-- Whether a text has no operators from one position on up to another one. -/
structure IsRun (s : List Char) (start stop : Nat) : Prop where
  nonempty : start < stop
  inside : stop ≤ s.length
  plain : ∀ i c, start ≤ i → i < stop → s[i]? = some c → c ∉ operators

/-- Whether a run is not part of a longer one. -/
structure IsMaximalRun (s : List Char) (start stop : Nat) : Prop extends IsRun s start stop where
  maximal : ∀ start' stop', start' ≤ start → stop ≤ stop' → IsRun s start' stop' →
    start' = start ∧ stop' = stop

/-- **A run is maximal if it stands between operators,** or at an end of the text. -/
theorem isMaximalRun_iff :
    IsMaximalRun s start stop ↔ IsRun s start stop ∧
      (∀ i c, i + 1 = start → s[i]? = some c → c ∈ operators) ∧
      ∀ c, s[stop]? = some c → c ∈ operators := by
  constructor
  · intro h
    refine ⟨h.toIsRun, fun i c hi hc => ?_, fun c hc => ?_⟩
    · -- a character before the run would make it longer
      by_contra hplain
      refine absurd (h.maximal i stop (by omega) (Nat.le_refl _) ⟨?_, h.inside, ?_⟩).1 (by omega)
      · exact Nat.lt_trans (by omega) h.nonempty
      · intro j d hj hstop hd
        rcases Nat.lt_or_eq_of_le hj with hj | rfl
        · exact h.plain j d (by omega) hstop hd
        · cases hc.symm.trans hd
          exact hplain
    · -- and so would one after it
      by_contra hplain
      obtain ⟨hstop, -⟩ := List.getElem?_eq_some_iff.1 hc
      refine absurd (h.maximal start (stop + 1) (Nat.le_refl _) (by omega) ⟨?_, hstop, ?_⟩).2
        (by omega)
      · exact Nat.lt_succ_of_lt h.nonempty
      · intro j d hj hlt hd
        rcases Nat.lt_or_eq_of_le (Nat.le_of_lt_succ hlt) with hlt | rfl
        · exact h.plain j d hj hlt hd
        · cases hc.symm.trans hd
          exact hplain
  · rintro ⟨hrun, hleft, hright⟩
    have hnonempty := hrun.nonempty
    have hinside := hrun.inside
    refine ⟨hrun, fun start' stop' hstart hstop hlonger => ⟨?_, ?_⟩⟩
    · by_contra hne
      have hget : s[start - 1]? = some s[start - 1] := List.getElem?_eq_getElem (by omega)
      exact hlonger.plain _ _ (by omega) (by omega) hget (hleft _ _ (by omega) hget)
    · by_contra hne
      have hlength := hlonger.inside
      have hget : s[stop]? = some s[stop] := List.getElem?_eq_getElem (by omega)
      exact hlonger.plain _ _ (by omega) (by omega) hget (hright _ hget)

/-! ## Pieces between operators -/

/-- Whether a piece of a text has no operators and stands between operators, or at an end. -/
structure Delimited (left w right : List Char) : Prop where
  nonempty : w ≠ []
  plain : ∀ c ∈ w, c ∉ operators
  left : ∀ c, left.getLast? = some c → c ∈ operators
  right : ∀ c, right.head? = some c → c ∈ operators

/-- Such a piece is a maximal run. -/
theorem Delimited.isMaximalRun (h : Delimited left w right) :
    IsMaximalRun (left ++ w ++ right) left.length (left.length + w.length) ∧
      (left ++ w ++ right).extract left.length (left.length + w.length) = w := by
  have hlength := List.length_pos_iff.2 h.nonempty
  refine ⟨isMaximalRun_iff.2 ⟨⟨by omega, ?_, fun i c hi hstop hc => ?_⟩, fun i c hi hc => ?_,
    fun c hc => ?_⟩, ?_⟩
  · rw [List.length_append, List.length_append]
    exact Nat.le_add_right _ _
  · rw [List.append_assoc, List.getElem?_append_right hi,
      List.getElem?_append_left (by omega)] at hc
    exact h.plain c (List.mem_of_getElem? hc)
  · rw [List.append_assoc, List.getElem?_append_left (by omega)] at hc
    refine h.left c ?_
    rwa [List.getLast?_eq_getElem?, ← hi, Nat.add_sub_cancel]
  · rw [← List.length_append, List.getElem?_append_right (Nat.le_refl _), Nat.sub_self,
      ← List.head?_eq_getElem?] at hc
    exact h.right c hc
  · rw [List.extract_eq_take_drop, Nat.add_sub_cancel_left, List.append_assoc, List.drop_left,
      List.take_left]

/-- At a maximal run, such a piece is written. -/
theorem IsMaximalRun.delimited (h : IsMaximalRun s start stop) :
    Delimited (s.take start) (s.extract start stop) (s.drop stop) ∧
      s.take start ++ s.extract start stop ++ s.drop stop = s := by
  obtain ⟨hrun, hleft, hright⟩ := isMaximalRun_iff.1 h
  have hnonempty := hrun.nonempty
  have hinside := hrun.inside
  refine ⟨⟨fun hnil => ?_, fun c hc => ?_, fun c hc => ?_, fun c hc => ?_⟩, ?_⟩
  · have hlength := congrArg List.length hnil
    rw [List.extract_eq_take_drop, List.length_take, List.length_drop, List.length_nil] at hlength
    omega
  · rw [List.extract_eq_take_drop] at hc
    obtain ⟨i, hi, rfl⟩ := List.mem_iff_getElem.1 hc
    rw [List.length_take, List.length_drop] at hi
    rw [List.getElem_take, List.getElem_drop]
    exact hrun.plain (start + i) _ (by omega) (by omega) (List.getElem?_eq_getElem (by omega))
  · rw [List.getLast?_eq_getElem?, List.length_take, Nat.min_eq_left (by omega)] at hc
    obtain ⟨hlt, -⟩ := List.getElem?_eq_some_iff.1 hc
    rw [List.length_take] at hlt
    rw [List.getElem?_take_of_lt (by omega)] at hc
    exact hleft (start - 1) c (by omega) hc
  · rw [List.head?_drop] at hc
    exact hright c hc
  · rw [List.extract_eq_take_drop, List.append_assoc]
    have hdrop : s.drop stop = (s.drop start).drop (stop - start) := by
      rw [List.drop_drop, Nat.add_sub_cancel' (Nat.le_of_lt hnonempty)]
    rw [hdrop, List.take_append_drop, List.take_append_drop]

/-! ## Cutting at operators -/

open Expression (runs runs_append_cons runs_of_plain)

/-- What is cut out of a text stands between operators. -/
theorem exists_delimited_of_mem_runs (h : w ∈ runs s) :
    ∃ left right, s = left ++ w ++ right ∧ Delimited left w right := by
  induction hlength : s.length using Nat.strongRecOn generalizing s with
  | ind n ih =>
    obtain ⟨u, rest, rfl, hu, hrest⟩ : ∃ u rest, s = u ++ rest ∧ (∀ c ∈ u, c ∉ operators) ∧
        ∀ c, rest.head? = some c → c ∈ operators := by
      refine ⟨s.takeWhile (!operators.contains ·), s.dropWhile (!operators.contains ·),
        List.takeWhile_append_dropWhile.symm, fun c hc hop => ?_, fun c hc => ?_⟩
      · have hplain := List.mem_takeWhile_imp hc
        rw [List.contains_iff_mem.2 hop] at hplain
        cases hplain
      · have hop := List.head?_dropWhile_not (!operators.contains ·) s
        rw [hc] at hop
        simpa using hop
    have hfirst : w ∈ runs u → ∃ left right, u ++ rest = left ++ w ++ right ∧
        Delimited left w right := by
      intro hw
      rw [runs_of_plain hu] at hw
      by_cases hne : u = []
      · rw [if_pos hne] at hw
        cases hw
      · rw [if_neg hne] at hw
        cases List.mem_singleton.1 hw
        exact ⟨[], rest, rfl, hne, hu, nofun, hrest⟩
    cases rest with
    | nil =>
      rw [List.append_nil] at h
      exact hfirst h
    | cons op rest =>
      have hop : op ∈ operators := hrest op rfl
      rw [runs_append_cons u rest hop, List.mem_append] at h
      rcases h with h | h
      · exact hfirst h
      · rw [List.length_append, List.length_cons] at hlength
        obtain ⟨left, right, rfl, hw⟩ := ih _ (by omega) h rfl
        refine ⟨u ++ op :: left, right, by simp, hw.nonempty, hw.plain, fun c hc => ?_, hw.right⟩
        cases hlast : left.getLast? with
        | none =>
          rw [List.getLast?_append, List.getLast?_cons, hlast] at hc
          cases hc
          exact hop
        | some d =>
          rw [List.getLast?_append, List.getLast?_cons, hlast] at hc
          cases hc
          exact hw.left d hlast

/-- What stands between operators is cut out. -/
theorem Delimited.mem_runs (h : Delimited left w right) : w ∈ runs (left ++ w ++ right) := by
  have hright : w ∈ runs (w ++ right) := by
    have hw : w ∈ runs w := by
      rw [runs_of_plain h.plain, if_neg h.nonempty]
      exact List.mem_singleton_self w
    cases right with
    | nil => rwa [List.append_nil]
    | cons op right =>
      rw [runs_append_cons w right (h.right op rfl)]
      exact List.mem_append_left _ hw
  rw [List.append_assoc]
  rcases List.eq_nil_or_concat left with rfl | ⟨left, op, rfl⟩
  · exact hright
  · rw [List.concat_eq_append] at h ⊢
    rw [List.append_assoc, List.singleton_append,
      runs_append_cons _ _ (h.left op List.getLast?_concat)]
    exact List.mem_append_right _ hright

/-- **The symbols of a pattern are its maximal runs.** -/
theorem mem_symbols_iff :
    w ∈ symbols s ↔ ∃ start stop, IsMaximalRun s start stop ∧ s.extract start stop = w := by
  have hsymbols : w ∈ symbols s ↔ w ∈ runs s := by rw [symbols, mem_ascending, runs]
  rw [hsymbols]
  constructor
  · intro h
    obtain ⟨left, right, rfl, hw⟩ := exists_delimited_of_mem_runs h
    exact ⟨_, _, hw.isMaximalRun⟩
  · rintro ⟨start, stop, hrun, rfl⟩
    obtain ⟨hw, hs⟩ := hrun.delimited
    have hmem := hw.mem_runs
    rwa [hs] at hmem

end Dotted

namespace Pattern

/-! ## What a pattern lists -/

theorem pairwise_symbolsOf (source : String) :
    (symbolsOf source).Pairwise fun s t => Dotted.order s.toList t.toList = .lt := by
  rw [symbolsOf, List.pairwise_map]
  refine (Dotted.pairwise_ascending _).imp fun h => ?_
  rwa [String.toList_ofList, String.toList_ofList]

theorem nodup_symbolsOf (source : String) : (symbolsOf source).Nodup := by
  refine (pairwise_symbolsOf source).imp fun {s t} h heq => ?_
  have hsame : Dotted.order s.toList t.toList = .eq := Dotted.order_eq_eq.2 (congrArg _ heq)
  rw [h] at hsame
  cases hsame

/-- **A compiled pattern lists its maximal runs** in canonical order: each of them once, and nothing
else. -/
theorem symbols_spec {source : String} {p : Pattern} (h : compile source = .ok p) :
    p.symbols.Pairwise (fun s t => Dotted.order s.toList t.toList = .lt) ∧
      (∀ start stop, Dotted.IsMaximalRun source.toList start stop →
        p.symbols.count (String.ofList (source.toList.extract start stop)) = 1) ∧
      ∀ w ∈ p.symbols, ∃ start stop, Dotted.IsMaximalRun source.toList start stop ∧
        source.toList.extract start stop = w.toList := by
  obtain ⟨-, -, hsymbols, -⟩ := compile_eq_ok_iff.1 h
  rw [hsymbols]
  refine ⟨pairwise_symbolsOf source, fun start stop hrun => ?_, fun w hw => ?_⟩
  · refine List.count_eq_one_of_mem (nodup_symbolsOf source) (List.mem_map_of_mem ?_)
    exact Dotted.mem_symbols_iff.2 ⟨start, stop, hrun, rfl⟩
  · obtain ⟨v, hv, rfl⟩ := List.mem_map.1 hw
    rw [String.toList_ofList]
    exact Dotted.mem_symbols_iff.1 hv

/-- A symbol that is named twice, and cannot be made longer at either place, is listed once. -/
theorem symbols_openTwice : ∃ p, compile "(Open|S)+.Open*" = .ok p ∧
    Dotted.IsMaximalRun "(Open|S)+.Open*".toList 1 5 ∧
      Dotted.IsMaximalRun "(Open|S)+.Open*".toList 10 14 ∧ p.symbols.count "Open" = 1 := by
  have hcompiles : (compile "(Open|S)+.Open*").toBool = true := by decide +kernel
  obtain ⟨p, hp⟩ : ∃ p, compile "(Open|S)+.Open*" = .ok p := by
    cases hp : compile "(Open|S)+.Open*" with
    | error e =>
      rw [hp] at hcompiles
      cases hcompiles
    | ok p => exact ⟨p, rfl⟩
  have hplain : ∀ c ∈ "Open".toList, c ∉ Dotted.operators := by simp [Dotted.operators]
  have hfirst : Dotted.Delimited ['('] "Open".toList "|S)+.Open*".toList :=
    ⟨by decide, hplain, fun c hc => by cases hc; decide, fun c hc => by cases hc; decide⟩
  have hsecond : Dotted.Delimited "(Open|S)+.".toList "Open".toList ['*'] :=
    ⟨by decide, hplain, fun c hc => by cases hc; decide, fun c hc => by cases hc; decide⟩
  exact ⟨p, hp, hfirst.isMaximalRun.1, hsecond.isMaximalRun.1,
    (symbols_spec hp).2.1 10 14 hsecond.isMaximalRun.1⟩

end Pattern

end SequenceConstraint
