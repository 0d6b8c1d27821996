import SequenceConstraint.Proofs.Odometer.Rows

/-!
# Moving choices

A choice looks for the next text that it has not shown, in the branch that it has turned to and in
those after it. The search is followed branch by branch (`settles_of`), and in a branch value by
value (`sifts_of`).

## Main statements

* `sifts_of`, `settles_of` — where a choice stands after it has looked for a new text
* `runs_choice` — choices
-/

namespace SequenceConstraint

open Snapshot

/-! ## Branches -/

section Idle

variable {cap first : Nat} {σ σ' : Marks}

theorem idleEach_append {ps qs : List Plan} :
    IdleEach cap σ first (ps ++ qs) ↔
      IdleEach cap σ first ps ∧ IdleEach cap σ (past first ps) qs := by
  induction ps generalizing first with
  | nil => exact (and_iff_right trivial).symm
  | cons p ps ih =>
    rw [List.cons_append, IdleEach, IdleEach, ih, and_assoc]
    rfl

/-- Only one branch is moved. -/
theorem IdleEach.moved {ps qs : List Plan} {p : Plan}
    (h : IdleEach cap σ first (ps ++ p :: qs))
    (hσ' : σ.EqOutside (past first ps) (p.root (past first ps) + 1) σ')
    (hp : p.Idle cap σ' (past first ps)) : IdleEach cap σ' first (ps ++ p :: qs) := by
  rw [idleEach_append] at h ⊢
  exact ⟨h.1.congr (hσ'.dialsBelow (Nat.le_refl _)), hp,
    h.2.2.congr (hσ'.dialsAbove (Nat.le_refl _))⟩

end Idle

theorem Mover.Stands.idle {m : Machine} {cap first : Nat} {p : Plan} {r : Run Snapshot} {σ : Marks}
    (h : (p.mover m cap first).Stands r σ) : p.Idle cap σ first := by
  cases r with
  | done last => exact h.2
  | yield now rest => exact h.1.2

theorem Mover.Stands.next {m : Machine} {cap first : Nat} {p : Plan} {now : Snapshot}
    {rest : Unit → Run Snapshot} {σ σ₁ : Marks}
    (h : (p.mover m cap first).Stands (.yield now rest) σ) (hσ₁ : σ.EqBelow (p.root first + 1) σ₁) :
    ∃ σ₂, Ends (m.advance (p.root first) σ₁) ((rest ()).isYield, σ₂) ∧
      σ₁.EqOutside first (p.root first + 1) σ₂ ∧ (p.mover m cap first).Stands (rest ()) σ₂ :=
  h.2 σ₁ hσ₁

/-! ## Steps of a search -/

section Steps

variable {m : Machine} {i index branch : Nat} {branches : List Nat} {σ σ₁ : Marks}
  {text : List Char} {seen : Std.TreeSet (List Char) compare} {found : Bool}
  {result : Bool × Marks}

theorem settle_of_none (hbranch : branches[index]? = none) :
    Ends (m.settle i branches index σ) (false, σ) := by
  refine .succ (.pure fun fuel => ?_)
  rw [Machine.settle, hbranch]

theorem settle_of_some (hbranch : branches[index]? = some branch)
    (h : Ends (m.reset branch (σ.setDial i { (σ.mark i).dial with index })) (found, σ₁))
    (hrest : Ends (if found then m.sift i branches index branch σ₁
      else m.settle i branches (index + 1) σ₁) result) :
    Ends (m.settle i branches index σ) result := by
  refine .succ (h.of₂ hrest fun fuel hreset hrest => ?_)
  rw [Machine.settle, hbranch]
  show (m.reset branch _ fuel >>= _) = _
  rw [hreset, ← hrest]
  cases found <;> rfl

theorem sift_of_new (htext : Ends (m.render σ branch) text) (hseen : (σ.mark i).seen = seen)
    (hnew : seen.contains text = false) :
    Ends (m.sift i branches index branch σ) (true, σ.setSeen i (seen.insert text)) := by
  refine .succ (htext.of fun fuel htext => ?_)
  rw [Machine.sift, htext, hseen]
  show (if seen.contains text then _ else _) = _
  rw [hnew]
  rfl

theorem sift_of_seen (htext : Ends (m.render σ branch) text) (hseen : (σ.mark i).seen = seen)
    (hold : seen.contains text = true) (h : Ends (m.advance branch σ) (found, σ₁))
    (hrest : Ends (if found then m.sift i branches index branch σ₁
      else m.settle i branches (index + 1) σ₁) result) :
    Ends (m.sift i branches index branch σ) result := by
  refine .succ (htext.of₃ h hrest fun fuel htext hadvance hrest => ?_)
  rw [Machine.sift, htext, hseen]
  show (if seen.contains text then _ else _) = _
  rw [hold]
  show (m.advance branch σ fuel >>= _) = _
  rw [hadvance, ← hrest]
  cases found <;> rfl

theorem advanceGear_choice (hindex : (σ.mark i).dial.index = index)
    (hbranch : branches[index]? = some branch) (h : Ends (m.advance branch σ) (found, σ₁))
    (hrest : Ends (if found then m.sift i branches index branch σ₁
      else m.settle i branches (index + 1) σ₁) result) :
    Ends (m.advanceGear i (.choice branches) σ) result := by
  refine .succ (h.of₂ hrest fun fuel hadvance hrest => ?_)
  rw [Machine.advanceGear, hindex]
  show (branches[index]? >>= _) = _
  rw [hbranch]
  show (m.advance branch σ fuel >>= _) = _
  rw [hadvance, ← hrest]
  cases found <;> rfl

end Steps

/-- Whether a search of a choice comes to where the choice stands at a run. -/
def Mover.Lands (M : Mover) (i : Nat) (σ : Marks) (r : Run Snapshot)
    (search : Nat → Option (Bool × Marks)) : Prop :=
  ∃ σ', Ends search (r.isYield, σ') ∧ σ.EqOutside M.first M.past σ' ∧
    M.Stands r (σ'.setLive i r.isYield)

section Choice

variable {m : Machine} {cap : Nat} {place : Nat → Nat} {known : List Nat} {first : Nat}
  {bs ps qs : List Plan} {p : Plan} {env : Bindings} {scope : Scope}
  {seen seen' : Std.TreeSet (List Char) compare} {σ σ₁ : Marks}

/-- A choice that has turned to the branch after some branches, has shown some texts and sees what
the branches before have left. -/
structure Turned (m : Machine) (cap : Nat) (place : Nat → Nat) (known : List Nat) (first : Nat)
    (bs ps : List Plan) (env : Bindings) (scope : Scope)
    (seen : Std.TreeSet (List Char) compare) (σ : Marks) : Prop where
  sees : m.Carries place σ known first env
  index : (σ.mark (past first bs)).dial.index = ps.length
  seen : (σ.mark (past first bs)).seen = seen
  scope : scopeAfter σ id first ps = scope
  idle : IdleEach cap σ first bs

namespace Turned

theorem shown (h : Turned m cap place known first (ps ++ p :: qs) ps env scope seen σ) :
    (Plan.choice (ps ++ p :: qs)).shown σ first = within scope (p.shown σ (past first ps)) := by
  rw [Plan.shown, h.index, shownBranch_append, h.scope]

/-- What the branch sees. -/
theorem carries (h : Turned m cap place known first bs ps env scope seen σ)
    (hps : PartsPlaced m cap place known first ps) :
    m.Carries place σ (namesAfter known ps) (past first ps) (scope env) := by
  rw [← h.scope]
  exact carries_scopeAfter hps h.sees

/-- The branch has been moved. -/
theorem moved (hm : m.Descending)
    (h : Turned m cap place known first (ps ++ p :: qs) ps env scope seen σ)
    (hσ₁ : σ.EqOutside (past first ps) (p.root (past first ps) + 1) σ₁)
    (hp : p.Idle cap σ₁ (past first ps)) :
    Turned m cap place known first (ps ++ p :: qs) ps env scope seen σ₁ := by
  have hlast := root_lt_past first ps p qs
  have hmark := hσ₁ (past first (ps ++ p :: qs)) (.inr hlast)
  refine ⟨h.sees.congr hm fun i hi => ?_, by rw [hmark, h.index], by rw [hmark, h.seen], ?_,
    h.idle.moved hσ₁ hp⟩
  · exact congrArg Mark.dial (hσ₁ i (.inl (Nat.lt_of_lt_of_le hi (le_past ps first))))
  · rw [scopeAfter_congr (hσ₁.dialsBelow (Nat.le_refl _)), h.scope]

/-- The dials are the same, and the choice remembers texts. -/
theorem congr (hm : m.Descending) (h : Turned m cap place known first bs ps env scope seen σ)
    (hps : past first ps ≤ past first bs) (hdials : σ.EqDials 0 (past first bs + 1) σ₁)
    (hseen : (σ₁.mark (past first bs)).seen = seen') :
    Turned m cap place known first bs ps env scope seen' σ₁ := by
  have hle := le_past bs first
  refine ⟨h.sees.congr hm fun i hi => hdials i (Nat.zero_le i) (by omega), ?_, hseen, ?_,
    h.idle.congr (hdials.mono (Nat.zero_le _) (Nat.le_succ _))⟩
  · rw [hdials _ (Nat.zero_le _) (Nat.lt_succ_self _), h.index]
  · rw [scopeAfter_congr (hdials.mono (Nat.zero_le _) (by omega)), h.scope]

end Turned

/-- Whether to look for a new text from a branch on comes to where the choice stands at the run of
these branches. -/
def Settles (m : Machine) (cap : Nat) (place : Nat → Nat) (known : List Nat) (first : Nat)
    (bs ps qs : List Plan) (env : Bindings) : Prop :=
  ∀ σ seen last, m.Carries place σ known first env → (σ.mark (past first bs)).seen = seen →
    IdleEach cap σ first bs → (qs = [] → (Plan.choice bs).shown σ first = last) →
    ((Plan.choice bs).mover m cap first).Lands (past first bs) σ
      (Plan.runBranches cap qs env (scopeAfter σ id first ps) seen last)
      (m.settle (past first bs) (roots first bs) ps.length σ)

/-- **A new text** is remembered. From where it is shown, the search goes on with the next value. -/
theorem Turned.lands_new {now : Snapshot} {rest : Unit → Run Snapshot} {next : Run Snapshot}
    (hm : m.Descending) (hplaced : (Plan.choice (ps ++ p :: qs)).Placed m cap place known first)
    (h : Turned m cap place known first (ps ++ p :: qs) ps env scope seen σ)
    (hstands : (p.mover m cap (past first ps)).Stands (.yield now rest) σ)
    (hnew : seen.contains (now (scope env)).text = false)
    (hnext : ∀ σ₁, Turned m cap place known first (ps ++ p :: qs) ps env scope
        (seen.insert (now (scope env)).text) σ₁ →
      (p.mover m cap (past first ps)).Stands (rest ()) σ₁ →
      ((Plan.choice (ps ++ p :: qs)).mover m cap first).Lands (past first (ps ++ p :: qs)) σ₁ next
        (if (rest ()).isYield then
          m.sift (past first (ps ++ p :: qs)) (roots first (ps ++ p :: qs)) ps.length
            (p.root (past first ps)) σ₁
        else m.settle (past first (ps ++ p :: qs)) (roots first (ps ++ p :: qs))
          (ps.length + 1) σ₁)) :
    ((Plan.choice (ps ++ p :: qs)).mover m cap first).Lands (past first (ps ++ p :: qs)) σ
      (.yield (within scope now) fun _ => next)
      (m.sift (past first (ps ++ p :: qs)) (roots first (ps ++ p :: qs)) ps.length
        (p.root (past first ps)) σ) := by
  obtain ⟨hps, hp, -⟩ := partsPlaced_append.1 hplaced.1
  have hfirst := le_past ps first
  have hroot := p.le_root (past first ps)
  have hlast := root_lt_past first ps p qs
  have hpast := le_past (ps ++ p :: qs) first
  have htext := (hp.displays (h.carries hps)).text
  rw [hstands.1.1] at htext
  refine ⟨_, sift_of_new htext h.seen hnew,
    Marks.eqOutside_setSeen _ hpast (Nat.lt_succ_self _), ?_⟩
  have hdials : ∀ {lo hi}, σ.EqDials lo hi ((σ.setSeen (past first (ps ++ p :: qs))
      (seen.insert (now (scope env)).text)).setLive (past first (ps ++ p :: qs)) true) :=
    (Marks.eqDials_setSeen _).trans (Marks.eqDials_setLive _)
  have hnow : Turned m cap place known first (ps ++ p :: qs) ps env scope
      (seen.insert (now (scope env)).text) _ := h.congr hm (by omega) hdials (by simp)
  refine ⟨⟨hnow.shown.trans ?_, hnow.idle⟩, fun σ₁ hσ₁ => ?_⟩
  · rw [Plan.shown_congr hdials, hstands.1.1]
  · have hmark := hσ₁ (past first (ps ++ p :: qs)) (Nat.lt_succ_self _)
    have hturned := hnow.congr hm (by omega) hσ₁.dials
      ((congrArg Mark.seen hmark).trans hnow.seen)
    have hbelow : σ.EqBelow (p.root (past first ps) + 1) σ₁ := by
      intro j hj
      have hne : j ≠ past first (ps ++ p :: qs) := by omega
      rw [hσ₁ j (Nat.lt_succ_of_lt (Nat.lt_of_lt_of_le hj hlast)),
        Marks.mark_setLive_of_ne _ _ hne, Marks.mark_setSeen_of_ne _ _ hne]
    obtain ⟨σ₂, hadvance, hσ₂, hrest⟩ := hstands.next hbelow
    obtain ⟨σ₃, hmove, hσ₃, hland⟩ := hnext σ₂ (hturned.moved hm hσ₂ hrest.idle) hrest
    have hbranch := getElem?_roots_append ps (p :: qs) first
    have hgear := advanceGear_choice hturned.index hbranch hadvance hmove
    have hlive : (σ₁.mark (past first (ps ++ p :: qs))).live = true := by
      rw [hmark]
      exact congrArg Mark.live (Marks.mark_setLive_self _ _ _)
    refine ⟨_, Machine.ends_advance hplaced.2 hlive hgear, ?_, hland⟩
    exact ((hσ₂.mono hfirst (Nat.le_succ_of_le hlast)).trans hσ₃).trans
      (Marks.eqOutside_setLive _ hpast (Nat.lt_succ_self _))

/-- **The search in a branch,** value by value: what the choice shows next is the first text that it
has not shown, of the branch or of those after it. -/
theorem sifts_of {r : Run Snapshot} (hm : m.Descending) (hbs : bs = ps ++ p :: qs)
    (hplaced : (Plan.choice bs).Placed m cap place known first)
    (hsettles : Settles m cap place known first bs (ps ++ [p]) qs env)
    (h : Turned m cap place known first bs ps env scope seen σ)
    (hstands : (p.mover m cap (past first ps)).Stands r σ) :
    ((Plan.choice bs).mover m cap first).Lands (past first bs) σ
      (r.unseenThen (fun s => (s (scope env)).text) (within scope)
        (fun seen s => Plan.runBranches cap qs env (extend scope s) seen (within scope s)) seen)
      (if r.isYield then
        m.sift (past first bs) (roots first bs) ps.length (p.root (past first ps)) σ
      else m.settle (past first bs) (roots first bs) (ps.length + 1) σ) := by
  subst hbs
  obtain ⟨hps, hp, -⟩ := partsPlaced_append.1 hplaced.1
  have hfirst := le_past ps first
  have hlast := root_lt_past first ps p qs
  induction r generalizing σ seen with
  | done s =>
    have hshown := h.shown
    rw [hstands.1] at hshown
    have hnext := hsettles σ seen (within scope s) h.sees h.seen h.idle fun _ => hshown
    rw [scopeAfter_concat, h.scope, hstands.1, List.length_append] at hnext
    exact hnext
  | yield now rest ih =>
    have htext : Ends (m.render σ (p.root (past first ps))) (now (scope env)).text := by
      rw [← hstands.1.1]
      exact (hp.displays (h.carries hps)).text
    rw [Run.unseenThen]
    show Mover.Lands _ _ _ _ (m.sift _ _ _ _ σ)
    by_cases hseen : seen.contains (now (scope env)).text = true
    · obtain ⟨σ₁, hadvance, hσ₁, hrest⟩ := hstands.next (.refl σ)
      obtain ⟨σ₂, hmove, hσ₂, hland⟩ := ih () hrest (h.moved hm hσ₁ hrest.idle)
      rw [if_pos hseen]
      exact ⟨σ₂, sift_of_seen htext h.seen hseen hadvance hmove,
        (hσ₁.mono hfirst (Nat.le_succ_of_le hlast)).trans hσ₂, hland⟩
    · rw [Bool.not_eq_true] at hseen
      rw [if_neg (by simp [hseen])]
      exact h.lands_new hm hplaced hstands hseen fun σ₁ hturned hrest => ih () hrest hturned

/-- **The search in branches,** one after the other. -/
theorem settles_of (hm : m.Descending) (hbs : bs = ps ++ qs)
    (h : ∀ p ∈ bs, ∀ {known first}, p.Placed m cap place known first →
      p.Runs m cap place known first)
    (hplaced : (Plan.choice bs).Placed m cap place known first) :
    Settles m cap place known first bs ps qs env := by
  induction qs generalizing ps with
  | nil =>
    intro σ seen last henv hseen hidle hlast
    have hnone : (roots first bs)[ps.length]? = none := by
      rw [hbs, getElem?_roots_append]
      rfl
    refine ⟨σ, settle_of_none hnone, .refl σ, ?_, hidle.congr (Marks.eqDials_setLive _)⟩
    rw [Plan.shown_congr (Marks.eqDials_setLive _)]
    exact hlast rfl
  | cons p qs ih =>
    intro σ seen last henv hseen hidle _
    have hnext := ih (hbs.trans (List.append_cons ps p qs))
    subst hbs
    obtain ⟨hps, hp, -⟩ := partsPlaced_append.1 hplaced.1
    have hfirst := le_past ps first
    have hroot := p.le_root (past first ps)
    have hlast := root_lt_past first ps p qs
    -- the choice turns to the branch, which is then reset
    let σ₀ := σ.setDial (past first (ps ++ p :: qs))
      { (σ.mark (past first (ps ++ p :: qs))).dial with index := ps.length }
    have hσ₀ : σ.EqOutside (past first (ps ++ p :: qs)) (past first (ps ++ p :: qs) + 1) σ₀ :=
      Marks.eqOutside_setDial _ (Nat.le_refl _) (Nat.lt_succ_self _)
    have hturned : Turned m cap place known first (ps ++ p :: qs) ps env
        (scopeAfter σ id first ps) seen σ₀ := by
      refine ⟨henv.congr hm fun i hi => congrArg Mark.dial (hσ₀ i (.inl (by omega))), by simp [σ₀],
        by simp [σ₀, hseen], scopeAfter_congr (hσ₀.dialsBelow (by omega)),
        hidle.congr (hσ₀.dialsBelow (Nat.le_refl _))⟩
    obtain ⟨σ₁, hreset, hσ₁, hstands⟩ := h p (by simp) hp σ₀ _ (hturned.carries hps)
      (idleEach_append.1 hturned.idle).2.1
    obtain ⟨σ₂, hmove, hσ₂, hland⟩ :=
      sifts_of hm rfl hplaced hnext (hturned.moved hm hσ₁ hstands.idle) hstands
    have hsettle := settle_of_some (getElem?_roots_append ps (p :: qs) first) hreset hmove
    have hσ₀₁ : σ.EqOutside first (past first (ps ++ p :: qs) + 1) σ₁ :=
      (hσ₀.mono (le_past _ first) (Nat.le_refl _)).trans
        (hσ₁.mono hfirst (Nat.le_succ_of_le hlast))
    exact ⟨σ₂, hsettle, hσ₀₁.trans hσ₂, hland⟩

theorem runs_choice (hm : m.Descending)
    (h : ∀ p ∈ bs, ∀ {known first}, p.Placed m cap place known first →
      p.Runs m cap place known first)
    (hplaced : (Plan.choice bs).Placed m cap place known first) :
    (Plan.choice bs).Runs m cap place known first := by
  intro σ env henv hidle
  have hdials : ∀ {lo hi}, σ.EqDials lo hi (σ.setSeen (past first bs) ∅) :=
    Marks.eqDials_setSeen _
  have hsettles : Settles m cap place known first bs [] bs env := settles_of hm rfl h hplaced
  obtain ⟨σ₁, hsettle, hσ₁, hland⟩ := hsettles (σ.setSeen (past first bs) ∅) ∅ empty
    (henv.congr hm fun i hi => hdials i (Nat.zero_le i) hi) (by simp) (hidle.congr hdials)
    (by rintro rfl; rfl)
  have hreset : Ends (m.resetGear (past first bs) (.choice (roots first bs)) σ)
      (((Plan.choice bs).run cap env).isYield, σ₁) :=
    .succ (hsettle.of fun fuel hfuel => by rwa [Machine.resetGear])
  have hle := le_past bs first
  refine ⟨_, Machine.ends_reset hplaced.2 hreset, ?_, hland⟩
  exact ((Marks.eqOutside_setSeen _ hle (Nat.lt_succ_self _)).trans hσ₁).trans
    (Marks.eqOutside_setLive _ hle (Nat.lt_succ_self _))

end Choice

end SequenceConstraint
