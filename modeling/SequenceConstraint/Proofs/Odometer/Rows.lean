import SequenceConstraint.Proofs.Odometer.Standing

/-!
# Moving texts, echoes and rows

To reset the wheels of a plan brings them to where they stand at its run (`Plan.Runs`), whatever
the marks were before. Here this is shown for the plans whose wheels do not search: lists of texts,
echoes, and parts beside each other, of which the rightmost that can is advanced and those after it
start anew.

## Main statements

* `Plan.isYield_run` — a plan has a first value or not, whatever its surroundings
* `stands_cross` — where a row stands after its first part has been advanced
* `runs_concat` — parts beside each other
-/

namespace SequenceConstraint

open Snapshot

/-! ## First values -/

namespace Run

variable {α β γ : Type}

theorem isYield_iff {r : Run α} : r.isYield = true ↔ ∃ a, a ∈ r.toList := by
  cases r <;> simp [isYield]

theorem exists_of_isYield {r : Run α} (h : r.isYield = true) : ∃ a rest, r = .yield a rest := by
  cases r with
  | done last => cases h
  | yield a rest => exact ⟨a, rest, rfl⟩

theorem exists_of_not_isYield {r : Run α} (h : r.isYield = false) : ∃ a, r = .done a := by
  cases r with
  | done last => exact ⟨last, rfl⟩
  | yield a rest => cases h

theorem isYield_map (f : α → β) (r : Run α) : (r.map f).isYield = r.isYield := by
  cases r <;> rfl

theorem isYield_andThen {f : α → β} {next : α → Run β} {r : Run α} (h : r.isYield = true) :
    (r.andThen f next).isYield = true := by
  obtain ⟨a, rest, rfl⟩ := exists_of_isYield h
  rfl

end Run

/-- **A plan has a first value or not,** whatever its surroundings. -/
theorem Plan.isYield_run (cap : Nat) (p : Plan) (env : Bindings) :
    (p.run cap env).isYield = p.produces cap := by
  rw [Bool.eq_iff_iff, Run.isYield_iff, p.produces_iff env]
  constructor
  · rintro ⟨x, hx⟩
    exact ⟨x env, x, hx, rfl⟩
  · rintro ⟨_, x, hx, -⟩
    exact ⟨x, hx⟩

theorem isYield_runParts (cap : Nat) (ps : List Plan) (env : Bindings) :
    (Plan.runParts cap ps env).isYield = Plan.allProduce cap ps := by
  rw [Bool.eq_iff_iff, Run.isYield_iff, Plan.allProduce_iff (fun p _ => p.produces_iff) env]
  constructor
  · rintro ⟨x, hx⟩
    exact ⟨x env, Plan.mem_runParts.1 ⟨x, hx, rfl⟩⟩
  · rintro ⟨r, hr⟩
    obtain ⟨x, hx, -⟩ := Plan.mem_runParts.2 hr
    exact ⟨x, hx⟩

/-! ## Moves of one wheel -/

section Wheel

variable {m : Machine} {i first : Nat} {gear : Gear} {σ σ' : Marks} {found : Bool}

theorem Machine.ends_reset (hw : m[i]? = some ⟨gear, first⟩)
    (h : Ends (m.resetGear i gear σ) (found, σ')) :
    Ends (m.reset i σ) (found, σ'.setLive i found) := by
  refine .succ (h.of fun fuel hgear => ?_)
  rw [reset, hw]
  show (m.resetGear i gear σ fuel >>= _) = _
  rw [hgear]
  rfl

theorem Machine.ends_advance (hw : m[i]? = some ⟨gear, first⟩) (hlive : (σ.mark i).live = true)
    (h : Ends (m.advanceGear i gear σ) (found, σ')) :
    Ends (m.advance i σ) (found, σ'.setLive i found) := by
  refine .succ (h.of fun fuel hgear => ?_)
  rw [advance, hw]
  show (if (σ.mark i).live then m.advanceGear i gear σ fuel >>= _ else none) = _
  rw [if_pos hlive, hgear]
  rfl

end Wheel

variable {m : Machine} {cap : Nat} {place : Nat → Nat} {known : List Nat} {first : Nat}

/-- Whether to reset the wheels of a plan brings them to where they stand at its run. -/
def Plan.Runs (m : Machine) (cap : Nat) (place : Nat → Nat) (known : List Nat) (first : Nat)
    (p : Plan) : Prop :=
  ∀ σ env, m.Carries place σ known first env → p.Idle cap σ first →
    ∃ σ', Ends (m.reset (p.root first) σ) ((p.run cap env).isYield, σ') ∧
      σ.EqOutside first (p.root first + 1) σ' ∧
      (p.mover m cap first).Stands (p.run cap env) σ'

/-! ## Texts and echoes -/

theorem isYield_ofList {α : Type} (last : α) (as : List α) :
    (Run.ofList last as).isYield = !as.isEmpty := by
  cases as <;> rfl

theorem stands_texts {values : List (List Char)} (hw : m[first]? = some ⟨.texts values, first⟩)
    {rest : List (List Char)} {index : Nat} {σ : Marks} (hrest : values.drop index = rest)
    (hindex : (σ.mark first).dial.index = index)
    (hlive : (σ.mark first).live = (Run.ofList empty (rest.map const)).isYield) :
    ((Plan.texts values).mover m cap first).Stands (.ofList empty (rest.map const)) σ := by
  have hshown : (Plan.texts values).shown σ first = const (values[index]?.getD []) := by
    rw [Plan.shown, hindex]
  induction rest generalizing index σ with
  | nil =>
    refine ⟨?_, trivial⟩
    rw [hshown, List.getElem?_eq_none (List.drop_eq_nil_iff.1 hrest)]
    rfl
  | cons v rest ih =>
    have hvalue : values[index]? = some v := by
      have := congrArg (·[0]?) hrest
      simpa using this
    have htail : values.drop (index + 1) = rest := by
      rw [← List.tail_drop, hrest]
      rfl
    have hmore : decide (index + 1 < values.length) =
        (Run.ofList empty (rest.map const)).isYield := by
      rw [isYield_ofList, List.isEmpty_map, Bool.eq_iff_iff, decide_eq_true_iff, Bool.not_eq_true',
        List.isEmpty_eq_false_iff, ← htail, ne_eq, List.drop_eq_nil_iff, Nat.not_le]
    refine ⟨⟨by rw [hshown, hvalue]; rfl, trivial⟩, fun σ₁ hσ₁ => ?_⟩
    have hmark := hσ₁ first (Nat.lt_succ_self first)
    have hgear : Ends (m.advanceGear first (.texts values) σ₁)
        ((Run.ofList empty (rest.map const)).isYield,
          σ₁.setDial first { (σ₁.mark first).dial with index := index + 1 }) := by
      refine .succ (.pure fun fuel => ?_)
      rw [Machine.advanceGear, ← hmore, hmark, hindex]
    have hmove := Machine.ends_advance hw (by rw [hmark, hlive]; rfl) hgear
    refine ⟨_, hmove, ?_, ih htail (by simp) (by simp) (by simp [Plan.shown])⟩
    exact (Marks.eqOutside_setDial _ (Nat.le_refl _) (Nat.lt_succ_self _)).trans
      (Marks.eqOutside_setLive _ (Nat.le_refl _) (Nat.lt_succ_self _))

theorem runs_texts {values : List (List Char)}
    (h : (Plan.texts values).Placed m cap place known first) :
    (Plan.texts values).Runs m cap place known first := by
  intro σ env _ _
  have hgear : Ends (m.resetGear first (.texts values) σ)
      ((Run.ofList empty (values.map const)).isYield,
        σ.setDial first { (σ.mark first).dial with index := 0 }) := by
    refine .succ (.pure fun fuel => ?_)
    rw [Machine.resetGear, isYield_ofList, List.isEmpty_map]
  have hmove := Machine.ends_reset h hgear
  refine ⟨_, hmove, ?_, stands_texts h List.drop_zero (by simp) (by simp)⟩
  exact (Marks.eqOutside_setDial _ (Nat.le_refl _) (Nat.lt_succ_self _)).trans
    (Marks.eqOutside_setLive _ (Nat.le_refl _) (Nat.lt_succ_self _))

theorem runs_echo {name : Nat} (h : (Plan.echo name).Placed m cap place known first) :
    (Plan.echo name).Runs m cap place known first := by
  intro σ env _ _
  have hreset : Ends (m.resetGear first (.echo (place name)) σ) (true, σ) :=
    .succ (.pure fun fuel => by rw [Machine.resetGear])
  have hframe : ∀ (σ : Marks) live, σ.EqOutside first (first + 1) (σ.setLive first live) :=
    fun σ live => Marks.eqOutside_setLive live (Nat.le_refl _) (Nat.lt_succ_self _)
  refine ⟨_, Machine.ends_reset h.2 hreset, hframe σ true, ⟨rfl, trivial⟩, fun σ₁ hσ₁ => ?_⟩
  have hadvance : Ends (m.advanceGear first (.echo (place name)) σ₁) (false, σ₁) :=
    .succ (.pure fun fuel => by rw [Machine.advanceGear])
  have hlive : (σ₁.mark first).live = true := by
    rw [hσ₁ first (Nat.lt_succ_self first)]
    exact congrArg Mark.live (σ.mark_setLive_self first true)
  exact ⟨_, Machine.ends_advance h.2 hlive hadvance, hframe σ₁ false, rfl, trivial⟩

/-! ## Names -/

/-- A name adds no wheel. -/
theorem stands_named {name : Nat} {body : Plan} {r : Run Snapshot} {σ : Marks}
    (h : (body.mover m cap first).Stands r σ) :
    ((Plan.named name body).mover m cap first).Stands (r.map (Snapshot.named name)) σ := by
  induction r generalizing σ with
  | done last => exact ⟨congrArg (Snapshot.named name) h.1, h.2⟩
  | yield now rest ih =>
    refine ⟨⟨congrArg (Snapshot.named name) h.1.1, h.1.2⟩, fun σ₁ hσ₁ => ?_⟩
    obtain ⟨σ₂, hadvance, hσ₂, hstands⟩ := h.2 σ₁ hσ₁
    refine ⟨σ₂, ?_, hσ₂, ih () hstands⟩
    show Ends _ (((rest ()).map (Snapshot.named name)).isYield, σ₂)
    rw [Run.isYield_map]
    exact hadvance

theorem runs_named {name : Nat} {body : Plan} (h : body.Runs m cap place known first) :
    (Plan.named name body).Runs m cap place known first := by
  intro σ env henv hidle
  obtain ⟨σ', hreset, hσ', hstands⟩ := h σ env henv hidle
  refine ⟨σ', ?_, hσ', stands_named hstands⟩
  rw [Plan.run, Run.isYield_map]
  exact hreset

/-! ## Rows -/

theorem resetEach_of_resetRow {parts : List Nat} {σ σ' : Marks} {fuel : Nat}
    (h : m.resetRow parts σ fuel = some (true, σ')) : m.resetEach parts σ fuel = some σ' := by
  induction fuel generalizing parts σ with
  | zero => cases h
  | succ fuel ih =>
    cases parts with
    | nil =>
      cases h
      rfl
    | cons part parts =>
      rw [Machine.resetRow] at h
      rw [Machine.resetEach]
      cases hpart : m.reset part σ fuel with
      | none =>
        rw [hpart] at h
        cases h
      | some x =>
        obtain ⟨found, σ₁⟩ := x
        rw [hpart] at h
        cases found with
        | false => cases h
        | true => exact ih h

/-- What is seen after the first part of a row, where it has been moved to. -/
theorem carries_after {p : Plan} {σ σ₁ : Marks} {env : Bindings} {now : Snapshot}
    (hm : m.Descending) (hp : p.Placed m cap place known first)
    (henv : m.Carries place σ known first env) (hσ₁ : σ.EqOutside first (p.root first + 1) σ₁)
    (hshown : p.shown σ₁ first = now) :
    m.Carries place σ₁ (p.names ++ known) (p.root first + 1) ((now env).groups ++ env) := by
  have henv₁ := henv.congr hm fun i hi => congrArg Mark.dial (hσ₁ i (.inl hi))
  rw [← hshown]
  exact (hp.displays henv₁).carries hp henv₁

/-- Whether to reset the wheels of parts that all have values brings them to where they stand at
the run of the parts. -/
def RowRuns (m : Machine) (cap : Nat) (place : Nat → Nat) (known : List Nat) (first : Nat)
    (ps : List Plan) : Prop :=
  ∀ σ env, m.Carries place σ known first env → IdleRow cap σ first ps →
    ∃ σ', Ends (m.resetRow (roots first ps) σ) (true, σ') ∧
      σ.EqOutside first (past first ps) σ' ∧
      (rowMover m cap first ps).Stands (Plan.runParts cap ps env) σ'

section Steps

variable {part : Nat} {parts : List Nat} {σ σ₁ σ₂ σ₃ : Marks} {result : Bool × Marks}

theorem resetRow_of_next (h : Ends (m.reset part σ) (true, σ₁))
    (hparts : Ends (m.resetRow parts σ₁) result) :
    Ends (m.resetRow (part :: parts) σ) result := by
  refine .succ (h.of₂ hparts fun fuel hpart hparts => ?_)
  rw [Machine.resetRow, hpart]
  exact hparts

theorem resetRow_of_false (h : Ends (m.reset part σ) (false, σ₁)) :
    Ends (m.resetRow (part :: parts) σ) (false, σ₁) := by
  refine .succ (h.of fun fuel hpart => ?_)
  rw [Machine.resetRow, hpart]
  rfl

theorem advanceRow_of_true (h : Ends (m.advanceRow parts σ) (true, σ₁)) :
    Ends (m.advanceRow (part :: parts) σ) (true, σ₁) := by
  refine .succ (h.of fun fuel hrow => ?_)
  rw [Machine.advanceRow, hrow]
  rfl

theorem advanceRow_of_false (h : Ends (m.advanceRow parts σ) (false, σ₁))
    (hpart : Ends (m.advance part σ₁) (false, σ₂)) :
    Ends (m.advanceRow (part :: parts) σ) (false, σ₂) := by
  refine .succ (h.of₂ hpart fun fuel hrow hpart => ?_)
  rw [Machine.advanceRow, hrow]
  show (m.advance part σ₁ fuel >>= _) = _
  rw [hpart]
  rfl

theorem advanceRow_of_next (h : Ends (m.advanceRow parts σ) (false, σ₁))
    (hpart : Ends (m.advance part σ₁) (true, σ₂)) (hparts : Ends (m.resetRow parts σ₂) (true, σ₃)) :
    Ends (m.advanceRow (part :: parts) σ) (true, σ₃) := by
  refine .succ (h.of₃ hpart hparts fun fuel hrow hpart hparts => ?_)
  rw [Machine.advanceRow, hrow]
  show (m.advance part σ₁ fuel >>= _) = _
  rw [hpart]
  show (m.resetEach parts σ₂ fuel >>= _) = _
  rw [resetEach_of_resetRow hparts]
  rfl

end Steps

section Row

variable {p : Plan} {ps : List Plan} {env : Bindings}

theorem rowShows_cons {σ : Marks} {a b : Snapshot} (hproduces : p.produces cap = true)
    (hp : (p.mover m cap first).Shows σ a)
    (hps : (rowMover m cap (p.root first + 1) ps).Shows σ b) :
    (rowMover m cap first (p :: ps)).Shows σ (a.beside b) := by
  refine ⟨congrArg₂ beside hp.1 hps.1, hp.2, fun _ => hps.2, fun hstalled => ?_⟩
  rw [hproduces] at hstalled
  cases hstalled

/-- A row goes through the values of the parts after the first. What comes then is what comes when
the first part is advanced. -/
theorem stands_row {now : Snapshot} {r rr : Run Snapshot} {next : Snapshot → Run Snapshot}
    (hm : m.Descending) (hproduces : p.produces cap = true)
    (hnext : ∀ b σ σ₁, Ends (m.advanceRow (roots (p.root first + 1) ps) σ) (false, σ₁) →
      m.Carries place σ₁ known first env → (p.mover m cap first).Stands (.yield now fun _ => r) σ₁ →
      (rowMover m cap (p.root first + 1) ps).Shows σ₁ b →
      ∃ σ₂, Ends (m.advanceRow (roots first (p :: ps)) σ) ((next b).isYield, σ₂) ∧
        σ₁.EqOutside first (past first (p :: ps)) σ₂ ∧
        (rowMover m cap first (p :: ps)).Stands (next b) σ₂)
    {σ : Marks} (henv : m.Carries place σ known first env)
    (hp : (p.mover m cap first).Stands (.yield now fun _ => r) σ)
    (hps : (rowMover m cap (p.root first + 1) ps).Stands rr σ) (hyield : rr.isYield = true) :
    (rowMover m cap first (p :: ps)).Stands (rr.andThen (beside now) next) σ := by
  have hroot := p.le_root first
  have hpast := le_past ps (p.root first + 1)
  induction rr generalizing σ with
  | done b => cases hyield
  | yield b rest ih =>
    refine ⟨rowShows_cons hproduces hp.1 hps.1, fun σ₁ hσ₁ => ?_⟩
    obtain ⟨σ₂, hadvance, hσ₂, hstands⟩ := hps.2 σ₁ hσ₁
    have hbelow : σ.EqBelow (p.root first + 1) σ₂ :=
      (hσ₁.mono hpast).trans (hσ₂.below (Nat.le_refl _))
    have henv₂ : m.Carries place σ₂ known first env :=
      henv.congr hm fun i hi => congrArg Mark.dial (hbelow i (by omega))
    have hframe : σ₁.EqOutside first (past first (p :: ps)) σ₂ :=
      hσ₂.mono (Nat.le_succ_of_le hroot) (Nat.le_refl _)
    by_cases hmore : (rest ()).isYield = true
    · rw [hmore] at hadvance
      refine ⟨σ₂, ?_, hframe, ih () henv₂ (hp.congr hbelow) hstands hmore⟩
      show Ends _ (((rest ()).andThen (beside now) next).isYield, σ₂)
      rw [Run.isYield_andThen hmore]
      exact advanceRow_of_true hadvance
    · rw [Bool.not_eq_true] at hmore
      obtain ⟨b', hb'⟩ := Run.exists_of_not_isYield hmore
      rw [hmore] at hadvance
      rw [hb'] at hstands
      obtain ⟨σ₃, hmove, hσ₃, hnew⟩ := hnext b' σ₁ σ₂ hadvance henv₂ (hp.congr hbelow) hstands
      refine ⟨σ₃, ?_, hframe.trans hσ₃, ?_⟩
      · show Ends _ (((rest ()).andThen (beside now) next).isYield, σ₃)
        rw [hb']
        exact hmove
      · show (rowMover m cap first (p :: ps)).Stands ((rest ()).andThen (beside now) next) σ₃
        rw [hb']
        exact hnew

/-- **Where a row stands,** given where its first part and the parts after it stand. -/
theorem stands_cross {r : Run Snapshot} (hm : m.Descending)
    (hplaced : p.Placed m cap place known first) (hproduces : p.produces cap = true)
    (hall : Plan.allProduce cap ps = true)
    (hreset : RowRuns m cap place (p.names ++ known) (p.root first + 1) ps) {now : Snapshot}
    {rr : Run Snapshot} {σ : Marks} (henv : m.Carries place σ known first env)
    (hp : (p.mover m cap first).Stands (.yield now fun _ => r) σ)
    (hps : (rowMover m cap (p.root first + 1) ps).Stands rr σ) (hyield : rr.isYield = true) :
    (rowMover m cap first (p :: ps)).Stands (rr.andThen (beside now) fun b =>
      r.cross beside (fun s => Plan.runParts cap ps ((s env).groups ++ env)) b) σ := by
  have hroot := p.le_root first
  have hpast := le_past ps (p.root first + 1)
  induction r generalizing now rr σ with
  | done a =>
    refine stands_row hm hproduces (fun b σ σ₁ hfalse _ hp hps => ?_) henv hp hps hyield
    obtain ⟨σ₂, hadvance, hσ₂, hstands⟩ := hp.2 σ₁ (.refl σ₁)
    have hrest : σ₁.EqDials (p.root first + 1) (past (p.root first + 1) ps) σ₂ :=
      hσ₂.dialsAbove (Nat.le_refl _)
    exact ⟨σ₂, advanceRow_of_false hfalse hadvance, hσ₂.mono (Nat.le_refl _) hpast,
      rowShows_cons hproduces hstands ⟨(shownRow_congr hrest).trans hps.1, hps.2.congr hrest⟩⟩
  | yield a rest ih =>
    refine stands_row hm hproduces (fun b σ σ₁ hfalse henv hp hps => ?_) henv hp hps hyield
    obtain ⟨σ₂, hadvance, hσ₂, hstands⟩ := hp.2 σ₁ (.refl σ₁)
    have henv₂ := carries_after hm hplaced henv hσ₂ hstands.1.1
    obtain ⟨σ₃, hparts, hσ₃, hrow⟩ :=
      hreset σ₂ _ henv₂ (hps.2.congr (hσ₂.dialsAbove (Nat.le_refl _)))
    have hright := isYield_runParts cap ps ((a env).groups ++ env)
    rw [hall] at hright
    refine ⟨σ₃, ?_, (hσ₂.mono (Nat.le_refl _) hpast).trans
      (hσ₃.mono (Nat.le_succ_of_le hroot) (Nat.le_refl _)), ?_⟩
    · show Ends _ ((Run.andThen (beside a) _ (Plan.runParts cap ps _)).isYield, σ₃)
      rw [Run.isYield_andThen hright]
      exact advanceRow_of_next hfalse hadvance hparts
    · refine ih () (henv.congr hm fun i hi => ?_) (hstands.congr (hσ₃.below (Nat.le_refl _))) hrow
        hright
      rw [hσ₃ i (.inl (by omega)), hσ₂ i (.inl hi)]

theorem rowRuns_of {ps : List Plan} (hm : m.Descending)
    (h : ∀ p ∈ ps, ∀ {known first}, p.Placed m cap place known first →
      p.Runs m cap place known first)
    (hps : PartsPlaced m cap place known first ps) (hall : Plan.allProduce cap ps = true) :
    RowRuns m cap place known first ps := by
  induction ps generalizing known first with
  | nil =>
    intro σ env _ _
    refine ⟨σ, .succ (.pure fun fuel => rfl), .refl σ, ⟨rfl, trivial⟩, fun σ₁ _ => ?_⟩
    exact ⟨σ₁, .succ (.pure fun fuel => rfl), .refl σ₁, rfl, trivial⟩
  | cons p ps ih =>
    obtain ⟨hp, hrest⟩ := List.forall_mem_cons.1 h
    rw [Plan.allProduce, Bool.and_eq_true] at hall
    intro σ env henv hidle
    obtain ⟨σ₁, hreset, hσ₁, hstands⟩ := hp hps.1 σ env henv hidle.1
    have hfirst := p.isYield_run cap env
    rw [hall.1] at hfirst
    rw [hfirst] at hreset
    obtain ⟨now, rest, hrun⟩ := Run.exists_of_isYield hfirst
    rw [hrun] at hstands
    have hrow := ih hrest hps.2 hall.2
    obtain ⟨σ₂, hresetRow, hσ₂, hstands₂⟩ :=
      hrow σ₁ _ (carries_after hm hps.1 henv hσ₁ hstands.1.1)
        ((hidle.2.1 hall.1).congr (hσ₁.dialsAbove (Nat.le_refl _)))
    have hroot := p.le_root first
    have hpast := le_past ps (p.root first + 1)
    have hright := isYield_runParts cap ps ((now env).groups ++ env)
    rw [hall.2] at hright
    refine ⟨σ₂, resetRow_of_next hreset hresetRow, (hσ₁.mono (Nat.le_refl _) hpast).trans
      (hσ₂.mono (Nat.le_succ_of_le hroot) (Nat.le_refl _)), ?_⟩
    rw [Plan.runParts, hrun]
    refine stands_cross hm hps.1 hall.1 hall.2 hrow (henv.congr hm fun i hi => ?_)
      (hstands.congr (hσ₂.below (Nat.le_refl _))) hstands₂ hright
    rw [hσ₂ i (.inl (by omega)), hσ₁ i (.inl hi)]

/-- A row that has a part without values stops there. The parts after it stay as they are. -/
theorem resetRow_stalled {ps : List Plan} (hm : m.Descending)
    (h : ∀ p ∈ ps, ∀ {known first}, p.Placed m cap place known first →
      p.Runs m cap place known first)
    (hps : PartsPlaced m cap place known first ps) (hall : Plan.allProduce cap ps = false)
    {σ : Marks} (henv : m.Carries place σ known first env) (hidle : IdleRow cap σ first ps) :
    ∃ σ', Ends (m.resetRow (roots first ps) σ) (false, σ') ∧
      σ.EqOutside first (past first ps) σ' ∧
      (rowMover m cap first ps).Shows σ' (Plan.stalledParts cap ps env) := by
  induction ps generalizing known first σ env with
  | nil => cases hall
  | cons p ps ih =>
    obtain ⟨hp, hrest⟩ := List.forall_mem_cons.1 h
    have hroot := p.le_root first
    have hpast := le_past ps (p.root first + 1)
    obtain ⟨σ₁, hreset, hσ₁, hstands⟩ := hp hps.1 σ env henv hidle.1
    have hfirst := p.isYield_run cap env
    rw [hfirst] at hreset
    cases hproduces : p.produces cap with
    | false =>
      rw [hproduces] at hfirst hreset
      obtain ⟨s, hrun⟩ := Run.exists_of_not_isYield hfirst
      rw [hrun] at hstands
      have huntouched := (hidle.2.2 hproduces).congr (hσ₁.dialsAbove (Nat.le_refl _))
      refine ⟨σ₁, resetRow_of_false hreset, hσ₁.mono (Nat.le_refl _) hpast, ?_, hstands.2,
        fun hp => ?_, fun _ => huntouched⟩
      · rw [Plan.stalledParts, hrun]
        exact congrArg₂ beside hstands.1 (shownRow_untouched huntouched)
      · rw [hproduces] at hp
        cases hp
    | true =>
      rw [hproduces] at hfirst hreset
      obtain ⟨now, rest, hrun⟩ := Run.exists_of_isYield hfirst
      rw [hrun] at hstands
      rw [Plan.allProduce, hproduces, Bool.true_and] at hall
      obtain ⟨σ₂, hresetRow, hσ₂, hshows⟩ := ih hrest hps.2 hall
        (carries_after hm hps.1 henv hσ₁ hstands.1.1)
        ((hidle.2.1 hproduces).congr (hσ₁.dialsAbove (Nat.le_refl _)))
      refine ⟨σ₂, resetRow_of_next hreset hresetRow, (hσ₁.mono (Nat.le_refl _) hpast).trans
        (hσ₂.mono (Nat.le_succ_of_le hroot) (Nat.le_refl _)), ?_⟩
      rw [Plan.stalledParts, hrun]
      exact rowShows_cons hproduces (hstands.congr (hσ₂.below (Nat.le_refl _))).1 hshows

/-- The wheel of a row tells what its parts tell. -/
theorem stands_concat {ps : List Plan} {r : Run Snapshot} {σ : Marks}
    (hw : m[past first ps]? = some ⟨.row (roots first ps), first⟩)
    (hlive : (σ.mark (past first ps)).live = r.isYield)
    (h : (rowMover m cap first ps).Stands r σ) :
    ((Plan.concat ps).mover m cap first).Stands r σ := by
  induction r generalizing σ with
  | done last => exact h
  | yield now rest ih =>
    refine ⟨h.1, fun σ₁ hσ₁ => ?_⟩
    obtain ⟨σ₂, hadvance, hσ₂, hstands⟩ := h.2 σ₁ (hσ₁.mono (Nat.le_succ _))
    have hgear : Ends (m.advanceGear (past first ps) (.row (roots first ps)) σ₁)
        ((rest ()).isYield, σ₂) :=
      .succ (hadvance.of fun fuel hrow => by rwa [Machine.advanceGear])
    have hmark := hσ₁ (past first ps) (Nat.lt_succ_self _)
    have hmove := Machine.ends_advance hw (by rw [hmark, hlive]; rfl) hgear
    have hset : σ₂.EqOutside (past first ps) (past first ps + 1)
        (σ₂.setLive (past first ps) (rest ()).isYield) :=
      Marks.eqOutside_setLive _ (Nat.le_refl _) (Nat.lt_succ_self _)
    refine ⟨_, hmove, (hσ₂.mono (Nat.le_refl _) (Nat.le_succ _)).trans
      (hset.mono (le_past ps first) (Nat.le_refl _)), ih () (by simp) ?_⟩
    exact hstands.congr (hset.below (Nat.le_refl _))

theorem runs_concat {ps : List Plan} (hm : m.Descending)
    (h : ∀ p ∈ ps, ∀ {known first}, p.Placed m cap place known first →
      p.Runs m cap place known first)
    (hplaced : (Plan.concat ps).Placed m cap place known first) :
    (Plan.concat ps).Runs m cap place known first := by
  intro σ env henv hidle
  obtain ⟨σ₁, hgear, hσ₁, hstands⟩ : ∃ σ₁, Ends (m.resetRow (roots first ps) σ)
      (((Plan.concat ps).run cap env).isYield, σ₁) ∧ σ.EqOutside first (past first ps) σ₁ ∧
      (rowMover m cap first ps).Stands ((Plan.concat ps).run cap env) σ₁ := by
    rw [Plan.run]
    cases hall : Plan.allProduce cap ps with
    | true =>
      obtain ⟨σ₁, hreset, hσ₁, hstands⟩ := rowRuns_of hm h hplaced.1 hall σ env henv hidle
      refine ⟨σ₁, ?_, hσ₁, hstands⟩
      rw [if_pos rfl, isYield_runParts, hall]
      exact hreset
    | false => exact resetRow_stalled hm h hplaced.1 hall henv hidle
  have hreset : Ends (m.resetGear (past first ps) (.row (roots first ps)) σ)
      (((Plan.concat ps).run cap env).isYield, σ₁) :=
    .succ (hgear.of fun fuel hrow => by rwa [Machine.resetGear])
  have hmove := Machine.ends_reset hplaced.2 hreset
  have hset : σ₁.EqOutside (past first ps) (past first ps + 1)
      (σ₁.setLive (past first ps) ((Plan.concat ps).run cap env).isYield) :=
    Marks.eqOutside_setLive _ (Nat.le_refl _) (Nat.lt_succ_self _)
  refine ⟨_, hmove, (hσ₁.mono (Nat.le_refl _) (Nat.le_succ _)).trans
    (hset.mono (le_past ps first) (Nat.le_refl _)), stands_concat hplaced.2 (by simp) ?_⟩
  exact hstands.congr (hset.below (Nat.le_refl _))

end Row

end SequenceConstraint
