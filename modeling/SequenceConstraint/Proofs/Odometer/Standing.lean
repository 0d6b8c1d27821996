import SequenceConstraint.Proofs.Odometer.Display

/-!
# Where a machine stands

The wheels of a plan stand at a run if they show its value, and to advance them leads to where they
stand at the rest of the run and tells whether there is a next value (`Mover.Stands`). Moves change
the wheels of the plan only, and wheels after them may have changed before.

A plan that is made of parts of which one has no value never touches the parts after that one. They
show what they showed at the start (`Plan.Idle`).

## Main statements

* `Plan.shown_congr` — a plan shows what its own dials say
* `Mover.Stands.congr` — wheels after those of a plan do not matter to it
* `Plan.shown_untouched` — what a plan shows before it is started
-/

namespace SequenceConstraint

open Snapshot

/-! ## Marks that stay -/

namespace Marks

/-- Whether the marks below a number are the same. -/
def EqBelow (hi : Nat) (σ σ' : Marks) : Prop := ∀ i < hi, σ'.mark i = σ.mark i

/-- Whether at most the marks from `lo` up to `hi` differ. -/
def EqOutside (lo hi : Nat) (σ σ' : Marks) : Prop := ∀ i, i < lo ∨ hi ≤ i → σ'.mark i = σ.mark i

variable {lo hi lo' hi' i : Nat} {σ σ₁ σ₂ : Marks}

theorem EqBelow.refl (σ : Marks) : σ.EqBelow hi σ := fun _ _ => rfl

theorem EqBelow.trans (h : σ.EqBelow hi σ₁) (h' : σ₁.EqBelow hi σ₂) : σ.EqBelow hi σ₂ :=
  fun i hi => (h' i hi).trans (h i hi)

theorem EqBelow.mono (h : σ.EqBelow hi σ₁) (hle : hi' ≤ hi) : σ.EqBelow hi' σ₁ :=
  fun i hi => h i (Nat.lt_of_lt_of_le hi hle)

theorem EqOutside.refl (σ : Marks) : σ.EqOutside lo hi σ := fun _ _ => rfl

theorem EqOutside.trans (h : σ.EqOutside lo hi σ₁) (h' : σ₁.EqOutside lo hi σ₂) :
    σ.EqOutside lo hi σ₂ := fun i hi => (h' i hi).trans (h i hi)

theorem EqOutside.mono (h : σ.EqOutside lo hi σ₁) (hlo : lo' ≤ lo) (hhi : hi ≤ hi') :
    σ.EqOutside lo' hi' σ₁ := fun i hi => h i (by omega)

theorem EqOutside.below (h : σ.EqOutside lo hi σ₁) (hle : hi' ≤ lo) : σ.EqBelow hi' σ₁ :=
  fun i hi => h i (.inl (Nat.lt_of_lt_of_le hi hle))

theorem eqOutside_setDial (dial : Dial) (hlo : lo ≤ i) (hhi : i < hi) :
    σ.EqOutside lo hi (σ.setDial i dial) :=
  fun j hj => mark_setDial_of_ne σ dial (by omega)

theorem eqOutside_setSeen (seen : Std.TreeSet (List Char) compare) (hlo : lo ≤ i) (hhi : i < hi) :
    σ.EqOutside lo hi (σ.setSeen i seen) :=
  fun j hj => mark_setSeen_of_ne σ seen (by omega)

theorem eqOutside_setLive (live : Bool) (hlo : lo ≤ i) (hhi : i < hi) :
    σ.EqOutside lo hi (σ.setLive i live) :=
  fun j hj => mark_setLive_of_ne σ live (by omega)

/-- Whether some dials are as they were at the start. -/
def Untouched (σ : Marks) (lo hi : Nat) : Prop := ∀ i, lo ≤ i → i < hi → (σ.mark i).dial = {}

theorem Untouched.mono (h : σ.Untouched lo hi) (hlo : lo ≤ lo') (hhi : hi' ≤ hi) :
    σ.Untouched lo' hi' := fun i hi hi' => h i (by omega) (by omega)

/-- Whether the dials from `lo` up to `hi` are the same. -/
def EqDials (lo hi : Nat) (σ σ' : Marks) : Prop :=
  ∀ i, lo ≤ i → i < hi → (σ'.mark i).dial = (σ.mark i).dial

theorem EqDials.mono (h : σ.EqDials lo hi σ₁) (hlo : lo ≤ lo') (hhi : hi' ≤ hi) :
    σ.EqDials lo' hi' σ₁ := fun i hi hi' => h i (by omega) (by omega)

theorem EqDials.trans (h : σ.EqDials lo hi σ₁) (h' : σ₁.EqDials lo hi σ₂) : σ.EqDials lo hi σ₂ :=
  fun i hlo hhi => (h' i hlo hhi).trans (h i hlo hhi)

theorem eqDials_setSeen (seen : Std.TreeSet (List Char) compare) :
    σ.EqDials lo hi (σ.setSeen i seen) := by
  intro j _ _
  by_cases hj : j = i
  · rw [hj, mark_setSeen_self]
  · rw [mark_setSeen_of_ne σ seen hj]

theorem eqDials_setLive (live : Bool) : σ.EqDials lo hi (σ.setLive i live) := by
  intro j _ _
  by_cases hj : j = i
  · rw [hj, mark_setLive_self]
  · rw [mark_setLive_of_ne σ live hj]

theorem EqBelow.dials (h : σ.EqBelow hi σ₁) : σ.EqDials lo hi σ₁ :=
  fun i _ hi => congrArg Mark.dial (h i hi)

theorem EqOutside.dialsBelow (h : σ.EqOutside lo hi σ₁) (hle : hi' ≤ lo) :
    σ.EqDials lo' hi' σ₁ := (h.below hle).dials

theorem EqOutside.dialsAbove (h : σ.EqOutside lo hi σ₁) (hle : hi ≤ lo') :
    σ.EqDials lo' hi' σ₁ :=
  fun i hi _ => congrArg Mark.dial (h i (.inr (Nat.le_trans hle hi)))

theorem Untouched.congr (h : σ.Untouched lo hi) (hdials : σ.EqDials lo hi σ₁) :
    σ₁.Untouched lo hi := fun i hlo hhi => (hdials i hlo hhi).trans (h i hlo hhi)

end Marks

/-! ## A plan shows what its own dials say -/

section Congr

variable {cap first : Nat} {σ σ' : Marks}

theorem shownRow_congr_of {ps : List Plan}
    (h : ∀ p ∈ ps, ∀ {first}, σ.EqDials first (p.root first + 1) σ' →
      p.shown σ' first = p.shown σ first)
    (hdials : σ.EqDials first (past first ps) σ') : shownRow σ' first ps = shownRow σ first ps := by
  induction ps generalizing first with
  | nil => rfl
  | cons p ps ih =>
    obtain ⟨hp, hps⟩ := List.forall_mem_cons.1 h
    have hroot := p.le_root first
    rw [shownRow, shownRow, hp (hdials.mono (Nat.le_refl _) (le_past ps _)),
      ih hps (hdials.mono (by omega) (Nat.le_refl _))]

theorem shownBranch_congr_of {ps : List Plan} {scope : Scope} {index : Nat}
    (h : ∀ p ∈ ps, ∀ {first}, σ.EqDials first (p.root first + 1) σ' →
      p.shown σ' first = p.shown σ first)
    (hdials : σ.EqDials first (past first ps) σ') :
    shownBranch σ' scope index first ps = shownBranch σ scope index first ps := by
  induction ps generalizing first scope index with
  | nil => rfl
  | cons p ps ih =>
    obtain ⟨hp, hps⟩ := List.forall_mem_cons.1 h
    have hroot := p.le_root first
    have hshown := hp (hdials.mono (Nat.le_refl _) (le_past ps _))
    cases index with
    | zero => rw [shownBranch, shownBranch, hshown]
    | succ index =>
      rw [shownBranch, shownBranch, hshown]
      exact ih hps (hdials.mono (by omega) (Nat.le_refl _))

/-- **A plan shows what its own dials say.** -/
theorem Plan.shown_congr {p : Plan} (h : σ.EqDials first (p.root first + 1) σ') :
    p.shown σ' first = p.shown σ first := by
  induction p generalizing first with
  | texts values => rw [shown, shown, h first (Nat.le_refl _) (Nat.lt_succ_self _)]
  | concat parts ih => exact shownRow_congr_of ih (h.mono (Nat.le_refl _) (Nat.le_succ _))
  | choice branches ih =>
    rw [shown, shown, h _ (le_past branches first) (Nat.lt_succ_self _)]
    exact shownBranch_congr_of ih (h.mono (Nat.le_refl _) (Nat.le_succ _))
  | times min max body ih =>
    have hroot := body.le_root first
    rw [shown, shown, h _ (Nat.le_succ_of_le hroot) (Nat.lt_succ_self _),
      ih (h.mono (Nat.le_refl _) (Nat.le_succ _))]
  | echo name => rfl
  | named name body ih => exact congrArg (Snapshot.named name) (ih h)

theorem shownRow_congr {ps : List Plan} (h : σ.EqDials first (past first ps) σ') :
    shownRow σ' first ps = shownRow σ first ps :=
  shownRow_congr_of (fun _ _ _ => Plan.shown_congr) h

theorem scopeAfter_congr {ps : List Plan} {scope : Scope}
    (h : σ.EqDials first (past first ps) σ') :
    scopeAfter σ' scope first ps = scopeAfter σ scope first ps := by
  induction ps generalizing first scope with
  | nil => rfl
  | cons p ps ih =>
    have hroot := p.le_root first
    rw [scopeAfter, scopeAfter, Plan.shown_congr (h.mono (Nat.le_refl _) (le_past ps _))]
    exact ih (h.mono (by omega) (Nat.le_refl _))

end Congr

/-! ## Parts that are never started -/

mutual

/-- Whether the parts of a plan that are never started are as they were at the start. -/
def Plan.Idle (cap : Nat) (σ : Marks) (first : Nat) : Plan → Prop
  | .texts _ => True
  | .concat parts => IdleRow cap σ first parts
  | .choice branches => IdleEach cap σ first branches
  | .times _ _ body => body.Idle cap σ first
  | .echo _ => True
  | .named _ body => body.Idle cap σ first

def IdleRow (cap : Nat) (σ : Marks) (first : Nat) : List Plan → Prop
  | [] => True
  | p :: ps =>
    p.Idle cap σ first ∧
      (p.produces cap = true → IdleRow cap σ (p.root first + 1) ps) ∧
      (p.produces cap = false → σ.Untouched (p.root first + 1) (past (p.root first + 1) ps))

def IdleEach (cap : Nat) (σ : Marks) (first : Nat) : List Plan → Prop
  | [] => True
  | p :: ps => p.Idle cap σ first ∧ IdleEach cap σ (p.root first + 1) ps

end

section Idle

variable {cap first : Nat} {σ σ' : Marks}

theorem IdleRow.congr_of {ps : List Plan}
    (h : ∀ p ∈ ps, ∀ {first}, p.Idle cap σ first → σ.EqDials first (p.root first + 1) σ' →
      p.Idle cap σ' first)
    (hidle : IdleRow cap σ first ps) (hdials : σ.EqDials first (past first ps) σ') :
    IdleRow cap σ' first ps := by
  induction ps generalizing first with
  | nil => trivial
  | cons p ps ih =>
    obtain ⟨hp, hps⟩ := List.forall_mem_cons.1 h
    obtain ⟨hfirst, hproduces, hstalled⟩ := hidle
    have hroot := p.le_root first
    have hrest : σ.EqDials (p.root first + 1) (past (p.root first + 1) ps) σ' :=
      hdials.mono (by omega) (Nat.le_refl _)
    exact ⟨hp hfirst (hdials.mono (Nat.le_refl _) (le_past ps _)),
      fun hp => ih hps (hproduces hp) hrest, fun hp => (hstalled hp).congr hrest⟩

theorem IdleEach.congr_of {ps : List Plan}
    (h : ∀ p ∈ ps, ∀ {first}, p.Idle cap σ first → σ.EqDials first (p.root first + 1) σ' →
      p.Idle cap σ' first)
    (hidle : IdleEach cap σ first ps) (hdials : σ.EqDials first (past first ps) σ') :
    IdleEach cap σ' first ps := by
  induction ps generalizing first with
  | nil => trivial
  | cons p ps ih =>
    obtain ⟨hp, hps⟩ := List.forall_mem_cons.1 h
    have hroot := p.le_root first
    exact ⟨hp hidle.1 (hdials.mono (Nat.le_refl _) (le_past ps _)),
      ih hps hidle.2 (hdials.mono (by omega) (Nat.le_refl _))⟩

theorem Plan.Idle.congr {p : Plan} (hidle : p.Idle cap σ first)
    (h : σ.EqDials first (p.root first + 1) σ') : p.Idle cap σ' first := by
  induction p generalizing first with
  | texts values => trivial
  | concat parts ih =>
    exact IdleRow.congr_of ih hidle (h.mono (Nat.le_refl _) (Nat.le_succ _))
  | choice branches ih =>
    exact IdleEach.congr_of ih hidle (h.mono (Nat.le_refl _) (Nat.le_succ _))
  | times min max body ih => exact ih hidle (h.mono (Nat.le_refl _) (Nat.le_succ _))
  | echo name => trivial
  | named name body ih => exact ih hidle h

theorem IdleRow.congr {ps : List Plan} (hidle : IdleRow cap σ first ps)
    (h : σ.EqDials first (past first ps) σ') : IdleRow cap σ' first ps :=
  IdleRow.congr_of (fun _ _ _ => Plan.Idle.congr) hidle h

theorem IdleEach.congr {ps : List Plan} (hidle : IdleEach cap σ first ps)
    (h : σ.EqDials first (past first ps) σ') : IdleEach cap σ' first ps :=
  IdleEach.congr_of (fun _ _ _ => Plan.Idle.congr) hidle h

theorem idleRow_untouched_of {ps : List Plan}
    (h : ∀ p ∈ ps, ∀ {first}, σ.Untouched first (p.root first + 1) → p.Idle cap σ first)
    (hσ : σ.Untouched first (past first ps)) : IdleRow cap σ first ps := by
  induction ps generalizing first with
  | nil => trivial
  | cons p ps ih =>
    obtain ⟨hp, hps⟩ := List.forall_mem_cons.1 h
    have hroot := p.le_root first
    have hrest : σ.Untouched (p.root first + 1) (past (p.root first + 1) ps) :=
      hσ.mono (by omega) (Nat.le_refl _)
    exact ⟨hp (hσ.mono (Nat.le_refl _) (le_past ps _)), fun _ => ih hps hrest, fun _ => hrest⟩

theorem idleEach_untouched_of {ps : List Plan}
    (h : ∀ p ∈ ps, ∀ {first}, σ.Untouched first (p.root first + 1) → p.Idle cap σ first)
    (hσ : σ.Untouched first (past first ps)) : IdleEach cap σ first ps := by
  induction ps generalizing first with
  | nil => trivial
  | cons p ps ih =>
    obtain ⟨hp, hps⟩ := List.forall_mem_cons.1 h
    have hroot := p.le_root first
    exact ⟨hp (hσ.mono (Nat.le_refl _) (le_past ps _)), ih hps (hσ.mono (by omega) (Nat.le_refl _))⟩

theorem Plan.idle_untouched {p : Plan} (h : σ.Untouched first (p.root first + 1)) :
    p.Idle cap σ first := by
  induction p generalizing first with
  | texts values => trivial
  | concat parts ih => exact idleRow_untouched_of ih (h.mono (Nat.le_refl _) (Nat.le_succ _))
  | choice branches ih => exact idleEach_untouched_of ih (h.mono (Nat.le_refl _) (Nat.le_succ _))
  | times min max body ih => exact ih (h.mono (Nat.le_refl _) (Nat.le_succ _))
  | echo name => trivial
  | named name body ih => exact ih h

theorem shownRow_untouched_of {ps : List Plan}
    (h : ∀ p ∈ ps, ∀ {first}, σ.Untouched first (p.root first + 1) → p.shown σ first = p.initial)
    (hσ : σ.Untouched first (past first ps)) : shownRow σ first ps = Plan.initials ps := by
  induction ps generalizing first with
  | nil => rfl
  | cons p ps ih =>
    obtain ⟨hp, hps⟩ := List.forall_mem_cons.1 h
    have hroot := p.le_root first
    rw [shownRow, Plan.initials, hp (hσ.mono (Nat.le_refl _) (le_past ps _)),
      ih hps (hσ.mono (by omega) (Nat.le_refl _))]

/-- **Before it is started** a plan shows the first texts. -/
theorem Plan.shown_untouched {p : Plan} (h : σ.Untouched first (p.root first + 1)) :
    p.shown σ first = p.initial := by
  induction p generalizing first with
  | texts values =>
    rw [shown, h first (Nat.le_refl _) (Nat.lt_succ_self _)]
    cases values <;> rfl
  | concat parts ih => exact shownRow_untouched_of ih (h.mono (Nat.le_refl _) (Nat.le_succ _))
  | choice branches ih =>
    rw [shown, h _ (le_past branches first) (Nat.lt_succ_self _)]
    cases branches with
    | nil => rfl
    | cons p ps =>
      exact ih p List.mem_cons_self (h.mono (Nat.le_refl _) (Nat.le_succ_of_le (le_past ps _)))
  | times min max body ih =>
    have hroot := body.le_root first
    rw [shown, h _ (Nat.le_succ_of_le hroot) (Nat.lt_succ_self _)]
    rfl
  | echo name => rfl
  | named name body ih => exact congrArg (Snapshot.named name) (ih h)

theorem shownRow_untouched {ps : List Plan} (h : σ.Untouched first (past first ps)) :
    shownRow σ first ps = Plan.initials ps :=
  shownRow_untouched_of (fun _ _ _ => Plan.shown_untouched) h

end Idle

/-! ## Standing at a run -/

/-- Whether a run has a value. -/
def Run.isYield {α : Type} : Run α → Bool
  | .done _ => false
  | .yield .. => true

/-- Wheels that are moved together. -/
structure Mover where
  first : Nat
  past : Nat
  /-- Whether they show a snapshot. -/
  Shows : Marks → Snapshot → Prop
  shows_congr : ∀ {σ σ' s}, σ.EqBelow past σ' → Shows σ s → Shows σ' s
  advance : Marks → Nat → Option (Bool × Marks)

namespace Mover

/-- Whether wheels stand at a run: they show its value, and to advance them leads to the rest. -/
def Stands (M : Mover) : Run Snapshot → Marks → Prop
  | .done last, σ => M.Shows σ last
  | .yield now rest, σ =>
    M.Shows σ now ∧ ∀ σ₁, σ.EqBelow M.past σ₁ →
      ∃ σ₂, Ends (M.advance σ₁) ((rest ()).isYield, σ₂) ∧ σ₁.EqOutside M.first M.past σ₂ ∧
        M.Stands (rest ()) σ₂

variable {M : Mover} {σ σ' : Marks}

/-- **Wheels after those that are moved do not matter.** -/
theorem Stands.congr {r : Run Snapshot} (h : M.Stands r σ) (hσ : σ.EqBelow M.past σ') :
    M.Stands r σ' := by
  cases r with
  | done last => exact M.shows_congr hσ h
  | yield now rest =>
    exact ⟨M.shows_congr hσ h.1, fun σ₁ hσ₁ => h.2 σ₁ (hσ.trans hσ₁)⟩

end Mover

variable {m : Machine} {cap first : Nat}

/-- The wheels of a plan. -/
def Plan.mover (m : Machine) (cap first : Nat) (p : Plan) : Mover where
  first := first
  past := p.root first + 1
  Shows σ s := p.shown σ first = s ∧ p.Idle cap σ first
  shows_congr hσ hs := ⟨(Plan.shown_congr hσ.dials).trans hs.1, hs.2.congr hσ.dials⟩
  advance := m.advance (p.root first)

/-- The wheels of parts beside each other. -/
def rowMover (m : Machine) (cap first : Nat) (ps : List Plan) : Mover where
  first := first
  past := past first ps
  Shows σ s := shownRow σ first ps = s ∧ IdleRow cap σ first ps
  shows_congr hσ hs := ⟨(shownRow_congr hσ.dials).trans hs.1, hs.2.congr hσ.dials⟩
  advance := m.advanceRow (roots first ps)

end SequenceConstraint
