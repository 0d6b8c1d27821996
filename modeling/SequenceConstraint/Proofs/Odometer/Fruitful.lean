import SequenceConstraint.Proofs.Odometer.Streams

/-!
# Wheels that have a value

Whether a wheel has a first value does not hang on any marks: it can be told from its gear and the
wheels before it (`Machine.fruitful`). For the wheels of a plan, it is whether the plan produces
anything.

A wheel that stands behind one without a value, in a row, is never moved. The others are those that
*start* (`Plan.Starts`). As long as only they have been moved, every wheel can be reset, and tells
what it always tells.

## Main statements

* `Plan.Placed.fruitful` — a wheel of a plan has a value if the plan produces something
* `Plan.Placed.ready` — what a wheel that starts works on starts as far as it is needed
* `Plan.idle_of_starts` — if only wheels that start have been moved, the others are idle
* `Plan.Placed.resets` — then every wheel can be reset, and tells whether it has a value
-/

namespace SequenceConstraint

/-! ## Values -/

/-- Whether a wheel has a first value, if it is known of the wheels it works on. -/
def Gear.fruitful (has : Nat → Bool) : Gear → Bool
  | .texts values => !values.isEmpty
  | .row parts => parts.all has
  | .choice branches => branches.any has
  | .times min max child => decide (min ≤ max) && (min == 0 || has child)
  | .echo _ => true

theorem Gear.fruitful_congr {has has' : Nat → Bool} {i : Nat} {gear : Gear} (h : gear.Below i)
    (heq : ∀ j < i, has j = has' j) : gear.fruitful has = gear.fruitful has' := by
  cases gear with
  | texts values => rfl
  | row parts =>
    rw [fruitful, fruitful, Bool.eq_iff_iff, List.all_eq_true, List.all_eq_true]
    exact forall₂_congr fun j hj => by rw [heq j (h j hj)]
  | choice branches =>
    rw [fruitful, fruitful, Bool.eq_iff_iff, List.any_eq_true, List.any_eq_true]
    exact exists_congr fun j => and_congr_right fun hj => by rw [heq j (h j hj)]
  | times min max child => rw [fruitful, fruitful, heq child h]
  | echo target => rfl

namespace Machine

/-- Whether a wheel has a first value. Wheels work on wheels before them. -/
def fruitful (m : Machine) (i : Nat) : Bool :=
  match m[i]? with
  | none => false
  | some w => w.gear.fruitful fun j => if _h : j < i then m.fruitful j else false
termination_by i

theorem fruitful_eq {m : Machine} (hm : m.Descending) {i : Nat} {w : Wheel} (hw : m[i]? = some w) :
    m.fruitful i = w.gear.fruitful m.fruitful := by
  rw [fruitful, hw]
  exact Gear.fruitful_congr (hm i w hw) fun j hj => dif_pos hj

end Machine

section Fruitful

variable {m : Machine} {cap : Nat} {place : Nat → Nat} {known : List Nat} {first : Nat}

theorem all_fruitful_of {ps : List Plan}
    (h : ∀ p ∈ ps, ∀ {known first}, p.Placed m cap place known first →
      m.fruitful (p.root first) = p.produces cap)
    (hps : PartsPlaced m cap place known first ps) :
    (roots first ps).all m.fruitful = Plan.allProduce cap ps := by
  induction ps generalizing known first with
  | nil => rfl
  | cons p ps ih =>
    obtain ⟨hp, hrest⟩ := List.forall_mem_cons.1 h
    rw [roots, List.all_cons, Plan.allProduce, hp hps.1, ih hrest hps.2]

theorem any_fruitful_of {ps : List Plan}
    (h : ∀ p ∈ ps, ∀ {known first}, p.Placed m cap place known first →
      m.fruitful (p.root first) = p.produces cap)
    (hps : PartsPlaced m cap place known first ps) :
    (roots first ps).any m.fruitful = Plan.anyProduces cap ps := by
  induction ps generalizing known first with
  | nil => rfl
  | cons p ps ih =>
    obtain ⟨hp, hrest⟩ := List.forall_mem_cons.1 h
    rw [roots, List.any_cons, Plan.anyProduces, hp hps.1, ih hrest hps.2]

/-- **A wheel of a plan has a value** if the plan produces something. -/
theorem Plan.Placed.fruitful {p : Plan} (hm : m.Descending) (h : p.Placed m cap place known first) :
    m.fruitful (p.root first) = p.produces cap := by
  induction p generalizing known first with
  | texts values => exact Machine.fruitful_eq hm h
  | concat parts ih =>
    exact (Machine.fruitful_eq hm h.2).trans (all_fruitful_of (fun p hp _ _ => ih p hp) h.1)
  | choice branches ih =>
    exact (Machine.fruitful_eq hm h.2).trans (any_fruitful_of (fun p hp _ _ => ih p hp) h.1)
  | times min max body ih =>
    rw [root, Machine.fruitful_eq hm h.2, Gear.fruitful, ih h.1]
    rfl
  | echo name => exact Machine.fruitful_eq hm h.2
  | named name body ih => exact ih h.2.2.2

end Fruitful

/-! ## Wheels that start -/

mutual

/-- Whether a wheel of a plan is ever moved, if the plan is. -/
def Plan.Starts (cap i first : Nat) : Plan → Prop
  | .texts _ => i = first
  | .concat parts => RowStarts cap i first parts ∨ i = past first parts
  | .choice branches => EachStarts cap i first branches ∨ i = past first branches
  | .times _ _ body => body.Starts cap i first ∨ i = body.root first + 1
  | .echo _ => i = first
  | .named _ body => body.Starts cap i first

/-- Parts after one that has no value do not start. -/
def RowStarts (cap i first : Nat) : List Plan → Prop
  | [] => False
  | p :: ps =>
    p.Starts cap i first ∨ (p.produces cap = true ∧ RowStarts cap i (p.root first + 1) ps)

def EachStarts (cap i first : Nat) : List Plan → Prop
  | [] => False
  | p :: ps => p.Starts cap i first ∨ EachStarts cap i (p.root first + 1) ps

end

section Starts

variable {cap i first : Nat}

theorem rowStarts_mem_of {ps : List Plan}
    (h : ∀ p ∈ ps, ∀ {first}, p.Starts cap i first → first ≤ i ∧ i ≤ p.root first)
    (hi : RowStarts cap i first ps) : first ≤ i ∧ i < past first ps := by
  induction ps generalizing first with
  | nil => exact hi.elim
  | cons p ps ih =>
    obtain ⟨hp, hps⟩ := List.forall_mem_cons.1 h
    have hroot := p.le_root first
    have hpast := le_past ps (p.root first + 1)
    rw [past]
    rcases hi with hi | ⟨-, hi⟩
    · have := hp hi
      omega
    · have := ih hps hi
      omega

theorem eachStarts_mem_of {ps : List Plan}
    (h : ∀ p ∈ ps, ∀ {first}, p.Starts cap i first → first ≤ i ∧ i ≤ p.root first)
    (hi : EachStarts cap i first ps) : first ≤ i ∧ i < past first ps := by
  induction ps generalizing first with
  | nil => exact hi.elim
  | cons p ps ih =>
    obtain ⟨hp, hps⟩ := List.forall_mem_cons.1 h
    have hroot := p.le_root first
    have hpast := le_past ps (p.root first + 1)
    rw [past]
    rcases hi with hi | hi
    · have := hp hi
      omega
    · have := ih hps hi
      omega

/-- Only wheels of a plan start with it. -/
theorem Plan.Starts.mem {p : Plan} (h : p.Starts cap i first) : first ≤ i ∧ i ≤ p.root first := by
  induction p generalizing first with
  | texts values =>
    cases h
    exact ⟨Nat.le_refl _, Nat.le_refl _⟩
  | concat parts ih =>
    rcases h with h | rfl
    · have := rowStarts_mem_of ih h
      exact ⟨this.1, Nat.le_of_lt this.2⟩
    · exact ⟨le_past parts first, Nat.le_refl _⟩
  | choice branches ih =>
    rcases h with h | rfl
    · have := eachStarts_mem_of ih h
      exact ⟨this.1, Nat.le_of_lt this.2⟩
    · exact ⟨le_past branches first, Nat.le_refl _⟩
  | times min max body ih =>
    rcases h with h | rfl
    · exact ⟨(ih h).1, Nat.le_succ_of_le (ih h).2⟩
    · exact ⟨Nat.le_succ_of_le (body.le_root first), Nat.le_refl _⟩
  | echo name =>
    cases h
    exact ⟨Nat.le_refl _, Nat.le_refl _⟩
  | named name body ih => exact ih h

theorem Plan.starts_root (p : Plan) : p.Starts cap (p.root first) first := by
  induction p with
  | texts values => rfl
  | concat parts ih => exact .inr rfl
  | choice branches ih => exact .inr rfl
  | times min max body ih => exact .inr rfl
  | echo name => rfl
  | named name body ih => exact ih

end Starts

/-! ### What a wheel that starts works on -/

/-- Whether parts start, up to one that has no value. -/
def RowReady (has : Nat → Bool) (starts : Nat → Prop) : List Nat → Prop
  | [] => True
  | part :: parts => starts part ∧ (has part = true → RowReady has starts parts)

/-- Whether the wheels that a gear moves start. -/
def Gear.Ready (has : Nat → Bool) (starts : Nat → Prop) : Gear → Prop
  | .texts _ => True
  | .row parts => RowReady has starts parts
  | .choice branches => ∀ branch ∈ branches, starts branch
  | .times _ _ child => starts child
  | .echo _ => True

section Ready

variable {has : Nat → Bool} {starts starts' : Nat → Prop}

theorem RowReady.mono {parts : List Nat} (h : RowReady has starts parts)
    (hstarts : ∀ i, starts i → starts' i) : RowReady has starts' parts := by
  induction parts with
  | nil => trivial
  | cons part parts ih => exact ⟨hstarts part h.1, fun hpart => ih (h.2 hpart)⟩

theorem Gear.Ready.mono {gear : Gear} (h : gear.Ready has starts)
    (hstarts : ∀ i, starts i → starts' i) : gear.Ready has starts' := by
  cases gear with
  | texts values => trivial
  | row parts => exact RowReady.mono h hstarts
  | choice branches => exact fun branch hb => hstarts branch (h branch hb)
  | times min max child => exact hstarts child h
  | echo target => trivial

/-- If all parts have a value, all of them start. -/
theorem RowReady.all {parts : List Nat} (h : RowReady has starts parts)
    (hall : parts.all has = true) : ∀ part ∈ parts, starts part ∧ has part = true := by
  induction parts with
  | nil => exact fun part hpart => absurd hpart List.not_mem_nil
  | cons part parts ih =>
    rw [List.all_cons, Bool.and_eq_true] at hall
    exact List.forall_mem_cons.2 ⟨⟨h.1, hall.1⟩, ih (h.2 hall.1) hall.2⟩

end Ready

section Placed

variable {m : Machine} {cap : Nat} {place : Nat → Nat} {known : List Nat} {first i : Nat}

theorem rowReady_roots {ps : List Plan} (hm : m.Descending)
    (hps : PartsPlaced m cap place known first ps) :
    RowReady m.fruitful (fun j => RowStarts cap j first ps) (roots first ps) := by
  induction ps generalizing known first with
  | nil => trivial
  | cons p ps ih =>
    refine ⟨.inl p.starts_root, fun hfruitful => ?_⟩
    rw [hps.1.fruitful hm] at hfruitful
    exact (ih hps.2).mono fun j hj => .inr ⟨hfruitful, hj⟩

theorem eachStarts_roots {ps : List Plan} :
    ∀ branch ∈ roots first ps, EachStarts cap branch first ps := by
  induction ps generalizing first with
  | nil => exact fun branch hb => absurd hb List.not_mem_nil
  | cons p ps ih =>
    exact List.forall_mem_cons.2 ⟨.inl p.starts_root, fun branch hb => .inr (ih branch hb)⟩

theorem RowStarts.ready_of {ps : List Plan} {w : Wheel}
    (h : ∀ p ∈ ps, ∀ {known first}, p.Placed m cap place known first → p.Starts cap i first →
      w.gear.Ready m.fruitful fun j => p.Starts cap j first)
    (hps : PartsPlaced m cap place known first ps) (hi : RowStarts cap i first ps) :
    w.gear.Ready m.fruitful fun j => RowStarts cap j first ps := by
  induction ps generalizing known first with
  | nil => exact hi.elim
  | cons p ps ih =>
    obtain ⟨hp, hrest⟩ := List.forall_mem_cons.1 h
    rcases hi with hi | ⟨hproduces, hi⟩
    · exact (hp hps.1 hi).mono fun j => .inl
    · exact (ih hrest hps.2 hi).mono fun j hj => .inr ⟨hproduces, hj⟩

theorem EachStarts.ready_of {ps : List Plan} {w : Wheel}
    (h : ∀ p ∈ ps, ∀ {known first}, p.Placed m cap place known first → p.Starts cap i first →
      w.gear.Ready m.fruitful fun j => p.Starts cap j first)
    (hps : PartsPlaced m cap place known first ps) (hi : EachStarts cap i first ps) :
    w.gear.Ready m.fruitful fun j => EachStarts cap j first ps := by
  induction ps generalizing known first with
  | nil => exact hi.elim
  | cons p ps ih =>
    obtain ⟨hp, hrest⟩ := List.forall_mem_cons.1 h
    rcases hi with hi | hi
    · exact (hp hps.1 hi).mono fun j => .inl
    · exact (ih hrest hps.2 hi).mono fun j => .inr

/-- **What a wheel that starts works on starts** as far as it is needed. -/
theorem Plan.Placed.ready {p : Plan} {w : Wheel} (hm : m.Descending)
    (h : p.Placed m cap place known first) (hw : m[i]? = some w) (hi : p.Starts cap i first) :
    w.gear.Ready m.fruitful fun j => p.Starts cap j first := by
  induction p generalizing known first with
  | texts values =>
    cases hi
    cases h.symm.trans hw
    trivial
  | concat parts ih =>
    rcases hi with hi | rfl
    · exact (RowStarts.ready_of ih h.1 hi).mono fun j => .inl
    · cases h.2.symm.trans hw
      exact (rowReady_roots hm h.1).mono fun j => .inl
  | choice branches ih =>
    rcases hi with hi | rfl
    · exact (EachStarts.ready_of ih h.1 hi).mono fun j => .inl
    · cases h.2.symm.trans hw
      exact fun branch hb => .inl (eachStarts_roots branch hb)
  | times min max body ih =>
    rcases hi with hi | rfl
    · exact (ih h.1 hi).mono fun j => .inl
    · cases h.2.symm.trans hw
      exact .inl body.starts_root
  | echo name =>
    cases hi
    cases h.2.symm.trans hw
    trivial
  | named name body ih => exact ih h.2.2.2 hi

end Placed

/-! ## Wheels that do not start -/

section Idle

variable {cap first : Nat} {σ : Marks}

theorem idleRow_of {ps : List Plan}
    (h : ∀ p ∈ ps, ∀ {first}, (∀ i, first ≤ i → i ≤ p.root first → ¬p.Starts cap i first →
      (σ.mark i).dial = {}) → p.Idle cap σ first)
    (hσ : ∀ i, first ≤ i → i < past first ps → ¬RowStarts cap i first ps →
      (σ.mark i).dial = {}) : IdleRow cap σ first ps := by
  induction ps generalizing first with
  | nil => trivial
  | cons p ps ih =>
    obtain ⟨hp, hps⟩ := List.forall_mem_cons.1 h
    have hroot := p.le_root first
    have hpast := le_past ps (p.root first + 1)
    rw [past] at hσ
    refine ⟨hp fun i hi hi' hstarts => hσ i hi (by omega) ?_,
      fun hproduces => ih hps fun i hi hi' hstarts => hσ i (by omega) hi' ?_,
      fun hstalled i hi hi' => hσ i (by omega) hi' ?_⟩
    · rintro (hi'' | ⟨-, hi''⟩)
      · exact hstarts hi''
      · have := rowStarts_mem_of (fun _ _ _ => Plan.Starts.mem) hi''
        omega
    · rintro (hi'' | ⟨-, hi''⟩)
      · have := hi''.mem
        omega
      · exact hstarts hi''
    · rintro (hi'' | ⟨hproduces, -⟩)
      · have := hi''.mem
        omega
      · rw [hstalled] at hproduces
        cases hproduces

theorem idleEach_of {ps : List Plan}
    (h : ∀ p ∈ ps, ∀ {first}, (∀ i, first ≤ i → i ≤ p.root first → ¬p.Starts cap i first →
      (σ.mark i).dial = {}) → p.Idle cap σ first)
    (hσ : ∀ i, first ≤ i → i < past first ps → ¬EachStarts cap i first ps →
      (σ.mark i).dial = {}) : IdleEach cap σ first ps := by
  induction ps generalizing first with
  | nil => trivial
  | cons p ps ih =>
    obtain ⟨hp, hps⟩ := List.forall_mem_cons.1 h
    have hroot := p.le_root first
    have hpast := le_past ps (p.root first + 1)
    rw [past] at hσ
    refine ⟨hp fun i hi hi' hstarts => hσ i hi (by omega) ?_,
      ih hps fun i hi hi' hstarts => hσ i (by omega) hi' ?_⟩
    · rintro (hi'' | hi'')
      · exact hstarts hi''
      · have := eachStarts_mem_of (fun _ _ _ => Plan.Starts.mem) hi''
        omega
    · rintro (hi'' | hi'')
      · have := hi''.mem
        omega
      · exact hstarts hi''

/-- **If only wheels that start have been moved, the others are idle.** -/
theorem Plan.idle_of_starts {p : Plan}
    (hσ : ∀ i, first ≤ i → i ≤ p.root first → ¬p.Starts cap i first → (σ.mark i).dial = {}) :
    p.Idle cap σ first := by
  induction p generalizing first with
  | texts values => trivial
  | concat parts ih =>
    refine idleRow_of ih fun i hi hi' hstarts => hσ i hi (Nat.le_of_lt hi') ?_
    rintro (h | rfl)
    · exact hstarts h
    · exact Nat.lt_irrefl _ hi'
  | choice branches ih =>
    refine idleEach_of ih fun i hi hi' hstarts => hσ i hi (Nat.le_of_lt hi') ?_
    rintro (h | rfl)
    · exact hstarts h
    · exact Nat.lt_irrefl _ hi'
  | times min max body ih =>
    refine ih fun i hi hi' hstarts => hσ i hi (Nat.le_succ_of_le hi') ?_
    rintro (h | rfl)
    · exact hstarts h
    · exact Nat.not_succ_le_self _ hi'
  | echo name => trivial
  | named name body ih => exact ih hσ

theorem IdleRow.each {ps : List Plan} (h : IdleRow cap σ first ps) : IdleEach cap σ first ps := by
  induction ps generalizing first with
  | nil => trivial
  | cons p ps ih =>
    refine ⟨h.1, ?_⟩
    cases hproduces : p.produces cap with
    | true => exact ih (h.2.1 hproduces)
    | false => exact idleEach_untouched_of (fun _ _ _ => Plan.idle_untouched) (h.2.2 hproduces)

end Idle

/-! ## Resetting any wheel -/

section Resets

variable {m : Machine} {cap : Nat} {place : Nat → Nat} {known : List Nat} {first i : Nat}
  {σ : Marks} {env : Bindings}

theorem parts_resets_of {ps : List Plan}
    (h : ∀ p ∈ ps, ∀ {known first env}, p.Placed m cap place known first →
      m.Carries place σ known first env → p.Idle cap σ first → first ≤ i → i ≤ p.root first →
      ∃ σ', Ends (m.reset i σ) (m.fruitful i, σ'))
    (hps : PartsPlaced m cap place known first ps) (henv : m.Carries place σ known first env)
    (hidle : IdleEach cap σ first ps) (hfirst : first ≤ i) (hi : i < past first ps) :
    ∃ σ', Ends (m.reset i σ) (m.fruitful i, σ') := by
  induction ps generalizing known first env with
  | nil => exact absurd hi (Nat.not_lt_of_le hfirst)
  | cons p ps ih =>
    obtain ⟨hp, hrest⟩ := List.forall_mem_cons.1 h
    by_cases hroot : i ≤ p.root first
    · exact hp hps.1 henv hidle.1 hfirst hroot
    · exact ih hrest hps.2 ((hps.1.displays henv).carries hps.1 henv) hidle.2
        (Nat.lt_of_not_le hroot) hi

theorem Plan.Placed.resets_root {p : Plan} (hm : m.Descending)
    (h : p.Placed m cap place known first) (henv : m.Carries place σ known first env)
    (hidle : p.Idle cap σ first) :
    ∃ σ', Ends (m.reset (p.root first) σ) (m.fruitful (p.root first), σ') := by
  obtain ⟨σ', hreset, -⟩ := h.runs hm σ env henv hidle
  rw [p.isYield_run, ← h.fruitful hm] at hreset
  exact ⟨σ', hreset⟩

/-- **Every wheel of a plan can be reset,** and tells whether it has a value. -/
theorem Plan.Placed.resets {p : Plan} (hm : m.Descending) (h : p.Placed m cap place known first)
    (henv : m.Carries place σ known first env) (hidle : p.Idle cap σ first) (hfirst : first ≤ i)
    (hi : i ≤ p.root first) : ∃ σ', Ends (m.reset i σ) (m.fruitful i, σ') := by
  induction p generalizing known first env with
  | texts values =>
    cases Nat.le_antisymm hi hfirst
    exact h.resets_root hm henv hidle
  | concat parts ih =>
    rcases Nat.lt_or_eq_of_le hi with hi | rfl
    · exact parts_resets_of ih h.1 henv (IdleRow.each hidle) hfirst hi
    · exact h.resets_root hm henv hidle
  | choice branches ih =>
    rcases Nat.lt_or_eq_of_le hi with hi | rfl
    · exact parts_resets_of ih h.1 henv hidle hfirst hi
    · exact h.resets_root hm henv hidle
  | times min max body ih =>
    rcases Nat.lt_or_eq_of_le hi with hi | rfl
    · exact ih h.1 henv hidle hfirst (Nat.le_of_lt_succ hi)
    · exact h.resets_root hm henv hidle
  | echo name =>
    cases Nat.le_antisymm hi hfirst
    exact h.resets_root hm henv hidle
  | named name body ih => exact ih h.2.2.2 henv hidle hfirst hi

end Resets

end SequenceConstraint
