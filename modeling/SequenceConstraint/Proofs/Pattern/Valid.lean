import SequenceConstraint.Proofs.Pattern.ReadExpression

/-!
# Valid sequences

The valid sequences of an expression are the members of its language, from the shortest on.

Generating is done twice. The first time no repetition repeats more often than it must, which is
enough to find the shortest sequence; the second time `n` more repeats are allowed, which is enough
for all sequences with `n` symbols more. The matcher rejects nothing of what is generated.

## Main statement

* `Expression.validSequences_spec` — the list of the valid sequences is complete and correct
-/

namespace SequenceConstraint

open Syntax

namespace Expression

section Valid

variable {e : Expression} {p : Pattern} {plan : Plan} {cap n : Nat}

/-- **What is generated** are the members of the language with the same cap. -/
theorem mem_sequencesOf_iff (hplan : plan.Produces cap (e.tree.language cap)) {s : List Char} :
    s ∈ Pattern.sequencesOf (plan.run cap []) ↔
      ∃ ws ∈ e.capped cap, s = Dotted.join (symbolTexts ws) := by
  rw [Pattern.mem_sequencesOf_run hplan, language_tree]
  constructor
  · rintro ⟨_, ⟨ws, hws, rfl⟩, rfl⟩
    exact ⟨ws, hws, Dotted.ofFlat_flatten isSymbol_of_mem_symbolTexts⟩
  · rintro ⟨ws, hws, rfl⟩
    exact ⟨_, ⟨ws, hws, rfl⟩, Dotted.ofFlat_flatten isSymbol_of_mem_symbolTexts⟩

/-- **The matcher rejects no member of the language.** -/
theorem checkText_join (h : p.tree = e.tree) {ws : List Symbol} (hws : ws ∈ e.language) {b : Bool}
    (hb : p.checkText (Dotted.join (symbolTexts ws)) = .ok b) : b = true := by
  have hdots : ∀ w ∈ symbolTexts ws, Dotted.separator ∉ w := fun w hw =>
    (isSymbol_of_mem_symbolTexts w hw).separator_notMem
  rw [Pattern.checkText_eq_ok_iff, h, Dotted.flatten_join hdots] at hb
  rw [Tree.matches?_eq_some_iff e.tree_plain hb, language_tree, capped_top]
  exact ⟨ws, hws, rfl⟩

/-- What is selected as accepted, if the matcher never gives up. -/
theorem mem_select_iff (hplan : plan.Produces cap (e.tree.language cap)) (h : p.tree = e.tree)
    {fits : List Char → Bool} {out : List (List Char)}
    (hselect : p.select fits true (plan.run cap []) = .ok out) {s : List Char} :
    s ∈ out ↔ (∃ ws ∈ e.capped cap, s = Dotted.join (symbolTexts ws)) ∧ fits s = true := by
  rw [Pattern.mem_select hselect, mem_sequencesOf_iff hplan]
  constructor
  · rintro ⟨hs, hfits, -⟩
    exact ⟨hs, hfits⟩
  · rintro ⟨⟨ws, hws, rfl⟩, hfits⟩
    have hmem := (mem_sequencesOf_iff hplan).2 ⟨ws, hws, rfl⟩
    obtain ⟨b, hb⟩ := Pattern.exists_checkText hselect hmem hfits
    obtain rfl := checkText_join h (mem_language_of_mem_capped hws) hb
    exact ⟨⟨ws, hws, rfl⟩, hfits, hb⟩

/-- **The first sequence that is found without further repeats is a shortest one.** -/
theorem symbolCount_head (hplan : plan.Produces 0 (e.tree.language (0 : Nat))) (h : p.tree = e.tree)
    {out : List (List Char)} (hselect : p.select (fun _ => true) true (plan.run 0 []) = .ok out) :
    ∃ first rest, out = first :: rest ∧ Dotted.symbolCount first = e.shortest := by
  obtain ⟨ws, hws, hlen⟩ := e.exists_shortest
  have hcapped : ws ∈ e.capped (0 : Nat) :=
    mem_capped hws (Nat.cast_le.2 (Nat.le_refl 0)) (by omega)
  have hmem := (mem_select_iff hplan h hselect).2 ⟨⟨ws, hcapped, rfl⟩, rfl⟩
  cases out with
  | nil => cases hmem
  | cons first rest =>
    refine ⟨first, rest, rfl, ?_⟩
    -- a shortest member is listed, so the first of the list is no longer
    have hsymbols : ∀ s ∈ symbolTexts ws, Dotted.IsSymbol s := isSymbol_of_mem_symbolTexts
    have hcount := Dotted.symbolCount_join hsymbols
    rw [length_symbolTexts, hlen] at hcount
    have hle : Dotted.symbolCount first ≤ e.shortest := by
      rw [← hcount]
      exact Pattern.symbolCount_head_le hselect hmem
    obtain ⟨⟨vs, hvs, hfirst⟩, -⟩ := (mem_select_iff hplan h hselect).1 List.mem_cons_self
    have hge := shortest_le (mem_language_of_mem_capped hvs)
    rw [hfirst, Dotted.symbolCount_join isSymbol_of_mem_symbolTexts, length_symbolTexts] at hle ⊢
    omega

/-- Unless the matcher gives up on the first time, the list is what is selected the second time. -/
theorem validTexts_cases (hplan : p.tree.plan = .ok plan)
    (hproduces : plan.Produces 0 (e.tree.language (0 : Nat))) (h : p.tree = e.tree) (n : Nat) :
    p.validTexts n = .error .matchBudgetExhausted ∨
      p.validTexts n =
        p.select (fun s => Dotted.symbolCount s ≤ e.shortest + n) true (plan.run n []) := by
  unfold Pattern.validTexts Pattern.planOf
  rw [hplan]
  -- the first selection goes through the texts with as few repeats as there can be
  show (p.select (fun _ => true) true (plan.run 0 []) >>= _) = _ ∨
    (p.select (fun _ => true) true (plan.run 0 []) >>= _) = _
  cases hselect : p.select (fun _ => true) true (plan.run 0 []) with
  | error err =>
    left
    rw [Pattern.select_error hselect]
    rfl
  | ok found =>
    right
    obtain ⟨first, rest, rfl, hfirst⟩ := symbolCount_head hproduces h hselect
    rw [← hfirst]
    rfl

/-- **The texts that are listed** are the members of the language up to a number of symbols. -/
theorem validTexts_spec (h : p.tree = e.tree) (n : Nat) :
    (∀ out, p.validTexts n = .ok out →
      (out.Pairwise fun s t => Dotted.order s t = .lt) ∧
      ∀ s, s ∈ out ↔ ∃ ws ∈ e.language, ws.length ≤ e.shortest + n ∧
        s = Dotted.join (symbolTexts ws)) ∧
    (∀ err, p.validTexts n = .error err → err = .matchBudgetExhausted) := by
  obtain ⟨plan, hplan, hproduces⟩ := Tree.exists_plan fun index hi => e.tree_plain _ hi
  rw [← h] at hplan
  rcases validTexts_cases hplan (hproduces 0) h n with hcase | hcase
  · rw [hcase]
    constructor
    · intro out hout
      cases hout
    · intro err herr
      cases herr
      rfl
  · rw [hcase]
    refine ⟨fun out hout => ⟨Pattern.pairwise_select hout, fun s => ?_⟩,
      fun err => Pattern.select_error⟩
    rw [mem_select_iff (hproduces n) h hout, decide_eq_true_eq]
    constructor
    · rintro ⟨⟨ws, hws, rfl⟩, hcount⟩
      rw [Dotted.symbolCount_join isSymbol_of_mem_symbolTexts, length_symbolTexts] at hcount
      exact ⟨ws, mem_language_of_mem_capped hws, hcount, rfl⟩
    · rintro ⟨ws, hws, hcount, rfl⟩
      rw [Dotted.symbolCount_join isSymbol_of_mem_symbolTexts, length_symbolTexts]
      exact ⟨⟨ws, mem_capped hws (Nat.cast_le.2 (Nat.le_refl n)) hcount, rfl⟩, hcount⟩

theorem ofList_join (ws : List Symbol) :
    String.ofList (Dotted.join (symbolTexts ws)) =
      String.intercalate "." (ws.map fun w => String.ofList w.1) := by
  rw [← Dotted.intercalate_ofList, symbolTexts, List.map_map]
  rfl

end Valid

/-- **The valid sequences of an expression** are the members of its language that have at most `n`
symbols more than the shortest, each once and in canonical order; there is no list only if the
matcher gives up. -/
theorem validSequences_spec (e : Expression) (h : e.depth ≤ 128) :
    ∃ p m, Pattern.compile (String.ofList e.render) = .ok p ∧
      IsLeast {k | ∃ ws ∈ e.language, ws.length = k} m ∧ ∀ n,
        (∀ out, p.validSequences n = .ok out →
          out.Pairwise (fun s t => Dotted.order s.toList t.toList = .lt) ∧
          ∀ s, s ∈ out ↔ ∃ ws ∈ e.language, m ≤ ws.length ∧ ws.length ≤ m + n ∧
            s = String.intercalate "." (ws.map fun w => String.ofList w.1)) ∧
        (∀ err, p.validSequences n = .error err → err = .matchBudgetExhausted) := by
  obtain ⟨p, hp, htree⟩ := exists_compile (e := e) h
  refine ⟨p, e.shortest, hp, e.isLeast_shortest, fun n => ?_⟩
  obtain ⟨hok, herror⟩ := validTexts_spec htree n
  constructor
  · intro out hout
    obtain ⟨texts, htexts, rfl⟩ := Pattern.map_eq_ok_iff.1 hout
    obtain ⟨hpairwise, hmem⟩ := hok texts htexts
    refine ⟨Pattern.pairwise_map_ofList hpairwise, fun s => ?_⟩
    rw [List.mem_map]
    constructor
    · rintro ⟨t, ht, rfl⟩
      obtain ⟨ws, hws, hcount, rfl⟩ := (hmem t).1 ht
      exact ⟨ws, hws, shortest_le hws, hcount, ofList_join ws⟩
    · rintro ⟨ws, hws, -, hcount, rfl⟩
      exact ⟨_, (hmem _).2 ⟨ws, hws, hcount, rfl⟩, ofList_join ws⟩
  · intro err herr
    exact herror err (Pattern.map_eq_error_iff.1 herr)

/-- A symbol of one capital. -/
def letter (c : Char) (h : c.isUpper = true) : Symbol := ⟨[c], h, fun _ => List.not_mem_nil.elim⟩

/-- The expression `O.(R)*.C`. -/
def session : Expression :=
  .sequence (.symbol (letter 'O' rfl))
    (.sequence (.star (.symbol (letter 'R' rfl))) (.symbol (letter 'C' rfl)))

theorem session_validSequences :
    session.depth ≤ 128 ∧ ∃ p, Pattern.compile "O.(R)*.C" = .ok p ∧
      ∀ out, p.validSequences 1 = .ok out → "O.R.C" ∈ out := by
  have hdepth : session.depth ≤ 128 := by decide
  obtain ⟨p, m, hp, hm, hn⟩ := validSequences_spec session hdepth
  refine ⟨hdepth, p, hp, fun out hout => ?_⟩
  obtain rfl : m = 2 := hm.unique session.isLeast_shortest
  have hround : [letter 'R' rfl] ∈ (star (symbol (letter 'R' rfl))).language :=
    Language.mem_kstar.2 ⟨[[letter 'R' rfl]], rfl, fun w hw => List.mem_singleton.1 hw⟩
  have hclose : [letter 'C' rfl] ∈ (symbol (letter 'C' rfl)).language := rfl
  have hopen : [letter 'O' rfl] ∈ (symbol (letter 'O' rfl)).language := rfl
  obtain ⟨-, hmem⟩ := (hn 1).1 out hout
  refine (hmem "O.R.C").2 ⟨[letter 'O' rfl, letter 'R' rfl, letter 'C' rfl], ?_, ?_⟩
  · exact Language.append_mem_mul hopen (Language.append_mem_mul hround hclose)
  · decide +kernel

end Expression

end SequenceConstraint
