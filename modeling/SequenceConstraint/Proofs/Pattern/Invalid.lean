import SequenceConstraint.Proofs.Pattern.Combinations

/-!
# Invalid sequences

The invalid sequences are the rejected ones among all combinations of the symbols of a pattern, up
to a number of symbols.

## Main statement

* `invalidSequences_spec` — every combination is either accepted or listed
-/

namespace SequenceConstraint.Pattern

/-- Whether a sequence consists of symbols of a pattern, at least one and at most `n` of them. -/
def IsCombination (p : Pattern) (n : Nat) (s : String) : Prop :=
  ∃ ws : List String, (∀ w ∈ ws, w ∈ p.symbols) ∧ 1 ≤ ws.length ∧ ws.length ≤ n ∧
    s = String.intercalate "." ws

/-- The texts that are gone through are the combinations. -/
theorem isCombination_iff {p : Pattern} {symbols : List (List Char)} {plan : Plan} {n : Nat}
    (hp : p.symbols = symbols.map String.ofList) (hsymbols : ∀ w ∈ symbols, Dotted.IsSymbol w)
    (hplan : ∀ cap : Nat, plan.Produces cap ((combinationTree symbols).language cap))
    {s : List Char} :
    p.IsCombination n (String.ofList s) ↔
      s ∈ sequencesOf (plan.run (n - 1) []) ∧ Dotted.symbolCount s ≤ n := by
  rw [mem_sequencesOf_run (hplan (n - 1))]
  simp only [mem_language_combinationTree]
  constructor
  · rintro ⟨ws, hws, hmin, hmax, hs⟩
    have hnames : ∀ w ∈ ws, ∃ v, v ∈ symbols ∧ String.ofList v = w := by
      intro w hw
      have hmem := hws w hw
      rw [hp] at hmem
      obtain ⟨v, hv, rfl⟩ := List.mem_map.1 hmem
      exact ⟨v, hv, rfl⟩
    obtain ⟨vs, hvs, rfl⟩ := exists_map_eq hnames
    have hsymbol : ∀ v ∈ vs, Dotted.IsSymbol v := fun v hv => hsymbols v (hvs v hv)
    rw [Dotted.intercalate_ofList] at hs
    obtain rfl : s = Dotted.join vs := String.ofList_injective hs
    rw [List.length_map] at hmin hmax
    refine ⟨⟨_, ⟨vs, hvs, hmin, by omega, rfl⟩, Dotted.ofFlat_flatten hsymbol⟩, ?_⟩
    rwa [Dotted.symbolCount_join hsymbol]
  · rintro ⟨⟨_, ⟨vs, hvs, hmin, -, rfl⟩, rfl⟩, hcount⟩
    have hsymbol : ∀ v ∈ vs, Dotted.IsSymbol v := fun v hv => hsymbols v (hvs v hv)
    rw [Dotted.ofFlat_flatten hsymbol] at hcount ⊢
    rw [Dotted.symbolCount_join hsymbol] at hcount
    refine ⟨vs.map String.ofList, ?_, ?_, ?_, (Dotted.intercalate_ofList vs).symm⟩
    · intro w hw
      obtain ⟨v, hv, rfl⟩ := List.mem_map.1 hw
      rw [hp]
      exact List.mem_map.2 ⟨v, hvs v hv, rfl⟩
    · rwa [List.length_map]
    · rwa [List.length_map]

/-- The invalid sequences are selected among the combinations. -/
theorem invalidSequences_eq {p : Pattern} {plan : Plan} (h : p.combinations.plan = .ok plan)
    (n : Nat) :
    p.invalidSequences n =
      (p.select (fun s => Dotted.symbolCount s ≤ n) false (plan.run (n - 1) [])).map
        (·.map String.ofList) := by
  unfold invalidSequences invalidTexts planOf
  rw [h]
  rfl

/-- **Every combination of symbols is either accepted or listed** as invalid, each once and in
canonical order; there is no list only if the matcher gives up. -/
theorem invalidSequences_spec {source : String} {p : Pattern}
    (hsome : symbolsOf source ≠ []) (hsymbols : ∀ w ∈ symbolsOf source, Dotted.IsSymbol w.toList)
    (hp : compile source = .ok p) (n : Nat) :
    (∀ out, p.invalidSequences n = .ok out →
      out.Pairwise (fun s t => Dotted.order s.toList t.toList = .lt) ∧
      (∀ s, s ∈ out ↔ p.IsCombination n s ∧ p.check s = .ok false) ∧
      (∀ s, p.IsCombination n s →
        p.check s = .ok true ∧ s ∉ out ∨ p.check s = .ok false ∧ s ∈ out)) ∧
    (∀ e, p.invalidSequences n = .error e → e = .matchBudgetExhausted) := by
  obtain ⟨-, -, hnames, -, hparse⟩ := compile_eq_ok_iff.1 hp
  have hsymbol : ∀ w ∈ Dotted.symbols source.toList, Dotted.IsSymbol w := by
    intro w hw
    have hw := hsymbols _ (List.mem_map.2 ⟨w, hw, rfl⟩)
    rwa [String.toList_ofList] at hw
  have hletters : ∀ w ∈ Dotted.symbols source.toList, ∀ c ∈ w, c.isAlpha = true :=
    fun w hw => (hsymbol w hw).isAlpha
  have hne : Dotted.symbols source.toList ≠ [] := fun h => hsome (by rw [symbolsOf, h]; rfl)
  -- what the combinations are read as has a plan, since nothing in it refers to a group
  rw [symbolsOf, parse_combinationsOf hne hletters] at hparse
  have htree := Except.ok.inj hparse
  obtain ⟨plan, hplan, hproduces⟩ := Tree.exists_plan
    fun index hi => combinationTree_plain (Dotted.symbols source.toList) _ hi
  rw [htree] at hplan
  have hcombination : ∀ s : String, p.IsCombination n s ↔
      s.toList ∈ sequencesOf (plan.run (n - 1) []) ∧ Dotted.symbolCount s.toList ≤ n := by
    intro s
    rw [← isCombination_iff hnames hsymbol hproduces, String.ofList_toList]
  rw [invalidSequences_eq hplan]
  constructor
  · intro out hout
    obtain ⟨texts, hselect, rfl⟩ := map_eq_ok_iff.1 hout
    have hmem : ∀ s, s ∈ texts.map String.ofList ↔ p.IsCombination n s ∧ p.check s = .ok false := by
      intro s
      rw [mem_map_ofList_select hselect, hcombination, decide_eq_true_eq, and_assoc]
    refine ⟨pairwise_map_ofList (pairwise_select hselect), hmem, fun s hs => ?_⟩
    obtain ⟨hseq, hfits⟩ := (hcombination s).1 hs
    obtain ⟨answer, hanswer⟩ := exists_checkText hselect hseq (decide_eq_true hfits)
    have hcheck : p.check s = .ok answer := hanswer
    rw [hmem, hcheck]
    cases answer with
    | true => exact .inl ⟨rfl, by simp⟩
    | false => exact .inr ⟨rfl, hs, rfl⟩
  · intro e he
    exact select_error (map_eq_error_iff.1 he)

/-- The pattern `Ab.(C|D)`, compiled. -/
def opening : Pattern where
  source := "Ab.(C|D)"
  symbols := ["Ab", "C", "D"]
  tree := ⟨[[.char 'A', .char 'b', .group (.capture 1) [[.char 'C'], [.char 'D']]]], 1⟩
  combinations := combinationTree [['A', 'b'], ['C'], ['D']]

theorem opening_invalidSequences :
    compile "Ab.(C|D)" = .ok opening ∧
      ∀ out, opening.invalidSequences 2 = .ok out → "C.Ab" ∈ out ∧ "Ab.C" ∉ out := by
  have hcompile : compile "Ab.(C|D)" = .ok opening := by decide +kernel
  have hspec := (invalidSequences_spec (by decide +kernel) (by decide +kernel) hcompile 2).1
  refine ⟨hcompile, fun out hout => ?_⟩
  obtain ⟨-, hmem, -⟩ := hspec out hout
  constructor
  · refine (hmem "C.Ab").2 ⟨⟨["C", "Ab"], ?_, ?_, ?_, ?_⟩, ?_⟩ <;> decide +kernel
  · intro h
    have hcheck : opening.check "Ab.C" = .ok true := by decide +kernel
    rw [((hmem "Ab.C").1 h).2] at hcheck
    cases hcheck

end SequenceConstraint.Pattern
