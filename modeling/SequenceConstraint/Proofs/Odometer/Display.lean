import SequenceConstraint.Proofs.Odometer.Layout

/-!
# What an odometer shows

The dials of the wheels of a plan stand for a snapshot (`Plan.shown`), and the machine renders what
the snapshot shows (`Plan.Placed.displays`). The bindings of a snapshot say of each group before it
whether the wheels around the group have turned to it, and if so, what it shows
(`Machine.Carries`); this is all that an echo asks for.

## Main statements

* `Machine.participates_iff` — only wheels before an echo decide whether its target takes part
* `Machine.render_congr` — a wheel shows what the dials up to it say
* `Plan.Placed.displays` — a machine shows what the snapshot of its dials shows
-/

namespace SequenceConstraint

open Snapshot

/-! ## Targets of echoes -/

namespace Machine

variable {m : Machine} {σ σ' : Marks} {target i lim : Nat}

theorem within_iff {outer : Nat} :
    m.within i outer = true ↔ ∃ w : Wheel, m[outer]? = some w ∧ w.first ≤ i ∧ i ≤ outer := by
  unfold within
  cases m[outer]? with
  | none => simp
  | some w => simp

/-- Whether the wheels around a target, up to a limit, have turned to it. -/
def Visible (m : Machine) (σ : Marks) (target lim : Nat) : Prop :=
  ∀ outer, target < outer → outer < lim → m.within target outer = true →
    m.selects σ outer target = true

/-- **Only the wheels before an echo decide** whether its target takes part. -/
theorem participates_iff (h : target < i) :
    m.participates σ target i = true ↔ m.Visible σ target i := by
  unfold participates
  rw [List.all_eq_true]
  simp only [List.mem_range'_1, Bool.or_eq_true, Bool.not_eq_true', Bool.and_eq_false_iff,
    Bool.not_eq_false']
  constructor
  · intro hall outer hlt hle hwithin
    obtain ⟨w, hw, -⟩ := within_iff.1 hwithin
    obtain ⟨hsize, -⟩ := Array.getElem?_eq_some_iff.1 hw
    rcases hall outer (by omega) with (hnot | hecho) | hselects
    · rw [hnot] at hwithin
      cases hwithin
    · obtain ⟨_, -, -, hi⟩ := within_iff.1 hecho
      omega
    · exact hselects
  · intro hvisible outer hrange
    by_cases hwithin : m.within target outer = true
    · by_cases hle : outer < i
      · exact .inr (hvisible outer (by omega) hle hwithin)
      · -- around the target and not before the echo is around both
        obtain ⟨w, hw, hfirst, -⟩ := within_iff.1 hwithin
        exact .inl (.inr (within_iff.2 ⟨w, hw, by omega, by omega⟩))
    · exact .inl (.inl (Bool.eq_false_iff.2 hwithin))

theorem selects_congr {outer : Nat} (h : (σ'.mark outer).dial = (σ.mark outer).dial) :
    m.selects σ' outer target = m.selects σ outer target := by
  unfold selects
  rw [h]

theorem visible_congr (h : ∀ j < lim, (σ'.mark j).dial = (σ.mark j).dial) :
    m.Visible σ' target lim ↔ m.Visible σ target lim := by
  refine forall_congr' fun outer => forall_congr' fun _ => forall_congr' fun hlt => ?_
  rw [selects_congr (h outer hlt)]

/-- Wheels that are not around a target do not hide it. -/
theorem visible_iff_of_le {first : Nat} (hle : first ≤ lim)
    (h : ∀ (outer : Nat) (w : Wheel), m[outer]? = some w → first ≤ outer → outer < lim →
      target < w.first) : m.Visible σ target lim ↔ m.Visible σ target first := by
  constructor
  · exact fun hvisible outer hlt hfirst => hvisible outer hlt (Nat.lt_of_lt_of_le hfirst hle)
  · intro hvisible outer hlt hlim hwithin
    by_cases hfirst : outer < first
    · exact hvisible outer hlt hfirst hwithin
    · obtain ⟨w, hw, htarget, -⟩ := within_iff.1 hwithin
      exact absurd (h outer w hw (Nat.le_of_not_lt hfirst) hlim) (Nat.not_lt_of_le htarget)

theorem visible_succ_iff :
    m.Visible σ target (lim + 1) ↔
      m.Visible σ target lim ∧
        (target < lim → m.within target lim = true → m.selects σ lim target = true) := by
  constructor
  · intro h
    exact ⟨fun outer hlt hlim => h outer hlt (Nat.lt_succ_of_lt hlim),
      fun hlt => h lim hlt (Nat.lt_succ_self lim)⟩
  · rintro ⟨h, hself⟩ outer hlt hlim
    rcases Nat.lt_or_eq_of_le (Nat.le_of_lt_succ hlim) with hlim | rfl
    · exact h outer hlt hlim
    · exact hself hlt

section Branch

variable {branches : List Nat} {branch first : Nat}

theorem render_choice (hw : m[i]? = some ⟨.choice branches, first⟩)
    (hbranch : branches[(σ.mark i).dial.index]? = some branch) (fuel : Nat) :
    m.render σ i (fuel + 1) = m.render σ branch fuel := by
  rw [render, hw]
  simp only [Option.bind_eq_bind, Option.bind_some, hbranch]

theorem render_choice_none (hw : m[i]? = some ⟨.choice branches, first⟩)
    (hbranch : branches[(σ.mark i).dial.index]? = none) (fuel : Nat) :
    m.render σ i (fuel + 1) = some [] := by
  rw [render, hw]
  simp only [Option.bind_eq_bind, Option.bind_some, hbranch]
  rfl

end Branch

theorem renderRow_congr {parts : List Nat} (h : ∀ i ∈ parts, m.render σ' i = m.render σ i) :
    m.renderRow σ' parts = m.renderRow σ parts := by
  induction parts with
  | nil =>
    funext fuel
    cases fuel <;> rfl
  | cons i parts ih =>
    obtain ⟨hi, hparts⟩ := List.forall_mem_cons.1 h
    funext fuel
    cases fuel with
    | zero => rfl
    | succ fuel => rw [renderRow, renderRow, hi, ih hparts]

/-- **A wheel shows what the dials up to it say.** -/
theorem render_congr (hm : m.Descending) (h : ∀ j ≤ i, (σ'.mark j).dial = (σ.mark j).dial) :
    m.render σ' i = m.render σ i := by
  induction i using Nat.strongRecOn with
  | ind i ih =>
    have hbefore : ∀ j < i, m.render σ' j = m.render σ j := fun j hj =>
      ih j hj fun k hk => h k (Nat.le_trans hk (Nat.le_of_lt hj))
    funext fuel
    cases fuel with
    | zero => rfl
    | succ fuel =>
      cases hw : m[i]? with
      | none =>
        rw [render, render, hw]
        rfl
      | some w =>
        have hbelow := hm i w hw
        obtain ⟨gear, first⟩ := w
        cases gear with
        | texts values =>
          rw [render, render, hw, h i (Nat.le_refl i)]
          rfl
        | row parts =>
          have hparts := renderRow_congr fun j hj => hbefore j (hbelow j hj)
          rw [render, render, hw]
          exact congrFun hparts fuel
        | choice branches =>
          have hindex : (σ'.mark i).dial.index = (σ.mark i).dial.index := by
            rw [h i (Nat.le_refl i)]
          cases hbranch : branches[(σ.mark i).dial.index]? with
          | none => rw [render_choice_none hw (hindex ▸ hbranch), render_choice_none hw hbranch]
          | some branch =>
            rw [render_choice hw (hindex ▸ hbranch), render_choice hw hbranch,
              hbefore branch (hbelow branch (List.mem_of_getElem? hbranch))]
        | times min max child =>
          rw [render, render, hw, h i (Nat.le_refl i)]
          rfl
        | echo target =>
          have hparticipates : m.participates σ' target i = m.participates σ target i := by
            rw [Bool.eq_iff_iff, participates_iff hbelow, participates_iff hbelow]
            exact visible_congr fun j hj => h j (Nat.le_of_lt hj)
          rw [render, render, hw]
          show (if m.participates σ' target i then m.render σ' target fuel else some []) = _
          rw [hparticipates, hbefore target hbelow]
          rfl

/-! ## Groups -/

/-- Whether bindings say of some groups what an echo at `lim` sees of them. -/
structure Carries (m : Machine) (place : Nat → Nat) (σ : Marks) (names : List Nat) (lim : Nat)
    (groups : Bindings) : Prop where
  below : ∀ n ∈ names, place n < lim
  text : ∀ n ∈ names, m.Visible σ (place n) lim →
    ∃ text, Ends (m.render σ (place n)) text ∧ groups.lookup n = some text
  hidden : ∀ n, ¬(n ∈ names ∧ m.Visible σ (place n) lim) → groups.lookup n = none

namespace Carries

variable {place : Nat → Nat} {names names' all : List Nat} {groups env : Bindings} {first : Nat}

theorem nil (m : Machine) (place : Nat → Nat) (σ : Marks) (lim : Nat) :
    m.Carries place σ [] lim [] := ⟨by simp, by simp, fun _ _ => rfl⟩

/-- A group that ends where an echo could begin. -/
theorem single {name : Nat} {text : List Char} (hplace : place name = i)
    (h : Ends (m.render σ i) text) : m.Carries place σ [name] (i + 1) [(name, text)] where
  below n hn := by
    rw [List.mem_singleton.1 hn, hplace]
    exact Nat.lt_succ_self i
  text n hn _ := by
    rw [List.mem_singleton.1 hn, hplace]
    exact ⟨text, h, by simp⟩
  hidden n hn := by
    have hne : n ≠ name := by
      rintro rfl
      refine hn ⟨List.mem_singleton_self n, fun outer hlt hlim => ?_⟩
      omega
    rw [List.lookup_cons, beq_eq_false_iff_ne.2 hne]
    rfl

theorem append (h : m.Carries place σ names lim groups) (h' : m.Carries place σ names' lim env)
    (hall : ∀ n, n ∈ all ↔ n ∈ names ∨ n ∈ names') :
    m.Carries place σ all lim (groups ++ env) where
  below n hn := ((hall n).1 hn).elim (h.below n) (h'.below n)
  text n hn hvisible := by
    rw [List.lookup_append]
    by_cases hmem : n ∈ names
    · obtain ⟨text, hrender, hlookup⟩ := h.text n hmem hvisible
      exact ⟨text, hrender, by rw [hlookup]; rfl⟩
    · obtain ⟨text, hrender, hlookup⟩ := h'.text n (((hall n).1 hn).resolve_left hmem) hvisible
      exact ⟨text, hrender, by rw [h.hidden n fun hn => hmem hn.1, hlookup]; rfl⟩
  hidden n hn := by
    rw [List.lookup_append, h.hidden n fun h => hn ⟨(hall n).2 (.inl h.1), h.2⟩,
      h'.hidden n fun h => hn ⟨(hall n).2 (.inr h.1), h.2⟩]
    rfl

/-- What lies between the groups and an echo does not hide them if it is made of later wheels. -/
theorem widen (h : m.Carries place σ names first groups) (hle : first ≤ lim)
    (hwheels : ∀ (i : Nat) (w : Wheel), m[i]? = some w → first ≤ i → i < lim → first ≤ w.first) :
    m.Carries place σ names lim groups := by
  have hiff : ∀ n ∈ names, (m.Visible σ (place n) lim ↔ m.Visible σ (place n) first) :=
    fun n hn => visible_iff_of_le hle fun i w hw hi hlim =>
      Nat.lt_of_lt_of_le (h.below n hn) (hwheels i w hw hi hlim)
  refine ⟨fun n hn => Nat.lt_of_lt_of_le (h.below n hn) hle,
    fun n hn hvisible => h.text n hn ((hiff n hn).1 hvisible), fun n hn => h.hidden n ?_⟩
  exact fun hn' => hn ⟨hn'.1, (hiff n hn'.1).2 hn'.2⟩

/-- A wheel that has turned to the groups does not hide them. -/
theorem succ (h : m.Carries place σ names lim groups)
    (hselects : ∀ n ∈ names, m.selects σ lim (place n) = true) :
    m.Carries place σ names (lim + 1) groups where
  below n hn := Nat.lt_succ_of_lt (h.below n hn)
  text n hn hvisible := h.text n hn (visible_succ_iff.1 hvisible).1
  hidden n hn := h.hidden n fun hn' =>
    hn ⟨hn'.1, visible_succ_iff.2 ⟨hn'.2, fun _ _ => hselects n hn'.1⟩⟩

/-- A wheel that has not turned to the groups in it hides them. -/
theorem of_hidden (hbelow : ∀ n ∈ names, place n < lim)
    (hwithin : ∀ n ∈ names, m.within (place n) lim = true)
    (hselects : ∀ n ∈ names, m.selects σ lim (place n) = false) :
    m.Carries place σ names (lim + 1) [] where
  below n hn := Nat.lt_succ_of_lt (hbelow n hn)
  text n hn hvisible := by
    have := (visible_succ_iff.1 hvisible).2 (hbelow n hn) (hwithin n hn)
    rw [hselects n hn] at this
    cases this
  hidden _ _ := rfl

theorem congr (hm : m.Descending) (h : m.Carries place σ names lim groups)
    (hdial : ∀ i < lim, (σ'.mark i).dial = (σ.mark i).dial) :
    m.Carries place σ' names lim groups where
  below := h.below
  text n hn hvisible := by
    have hn' := h.below n hn
    rw [render_congr hm fun j hj => hdial j (Nat.lt_of_le_of_lt hj hn')]
    exact h.text n hn ((visible_congr hdial).1 hvisible)
  hidden n hn := h.hidden n fun hn' => hn ⟨hn'.1, (visible_congr hdial).2 hn'.2⟩

/-- What an echo shows. -/
theorem ends_echo (h : m.Carries place σ names lim groups) {n : Nat} (hn : n ∈ names) :
    Ends (fun fuel => if m.participates σ (place n) lim then m.render σ (place n) fuel else some [])
      (groups.text n) := by
  have hiff : m.participates σ (place n) lim = true ↔ m.Visible σ (place n) lim :=
    participates_iff (h.below n hn)
  unfold Bindings.text
  by_cases hvisible : m.Visible σ (place n) lim
  · obtain ⟨text, hrender, hlookup⟩ := h.text n hn hvisible
    simp only [if_pos (hiff.2 hvisible), hlookup]
    exact hrender
  · simp only [if_neg fun hp => hvisible (hiff.1 hp), h.hidden n fun hn => hvisible hn.2]
    exact .pure fun _ => rfl

end Carries

end Machine

/-! ## Snapshots -/

mutual

/-- The snapshot that the dials of the wheels of a plan stand for. -/
def Plan.shown (σ : Marks) (first : Nat) : Plan → Snapshot
  | .texts values => const (values[(σ.mark first).dial.index]?.getD [])
  | .concat parts => shownRow σ first parts
  | .choice branches => shownBranch σ id (σ.mark (past first branches)).dial.index first branches
  | .times _ _ body =>
    let dial := (σ.mark (body.root first + 1)).dial
    let text := dial.digits.flatMap fun digit => dial.values[digit]?.getD []
    fun env => ⟨text, if dial.digits.isEmpty then [] else (body.shown σ first env).groups⟩
  | .echo name => Snapshot.echo name
  | .named name body => (body.shown σ first).named name

def shownRow (σ : Marks) (first : Nat) : List Plan → Snapshot
  | [] => empty
  | p :: ps => (p.shown σ first).beside (shownRow σ (p.root first + 1) ps)

/-- What the branch with an index shows. It sees what those before it have left. -/
def shownBranch (σ : Marks) (scope : Scope) (index first : Nat) : List Plan → Snapshot
  | [] => empty
  | p :: ps =>
    match index with
    | 0 => within scope (p.shown σ first)
    | index + 1 => shownBranch σ (extend scope (p.shown σ first)) index (p.root first + 1) ps

end

/-- What is seen after some branches. -/
def scopeAfter (σ : Marks) (scope : Scope) (first : Nat) : List Plan → Scope
  | [] => scope
  | p :: ps => scopeAfter σ (extend scope (p.shown σ first)) (p.root first + 1) ps

/-- The names that have been given after some parts. -/
def namesAfter (known : List Nat) : List Plan → List Nat
  | [] => known
  | p :: ps => namesAfter (p.names ++ known) ps

theorem mem_namesAfter {known : List Nat} {ps : List Plan} {n : Nat} :
    n ∈ namesAfter known ps ↔ n ∈ partsNames ps ∨ n ∈ known := by
  induction ps generalizing known with
  | nil => simp [namesAfter, partsNames]
  | cons p ps ih =>
    simp only [namesAfter, partsNames, ih, List.mem_append]
    tauto

theorem shownBranch_append {σ : Marks} (scope : Scope) (first : Nat) (ps : List Plan) (p : Plan)
    (qs : List Plan) :
    shownBranch σ scope ps.length first (ps ++ p :: qs) =
      within (scopeAfter σ scope first ps) (p.shown σ (past first ps)) := by
  induction ps generalizing scope first with
  | nil => rfl
  | cons q ps ih => exact ih _ _

theorem scopeAfter_concat {σ : Marks} (scope : Scope) (first : Nat) (ps : List Plan) (p : Plan) :
    scopeAfter σ scope first (ps ++ [p]) =
      extend (scopeAfter σ scope first ps) (p.shown σ (past first ps)) := by
  induction ps generalizing scope first with
  | nil => rfl
  | cons q ps ih => exact ih _ _

theorem partsPlaced_append {m : Machine} {cap : Nat} {place : Nat → Nat} {known : List Nat}
    {first : Nat} {ps qs : List Plan} :
    PartsPlaced m cap place known first (ps ++ qs) ↔
      PartsPlaced m cap place known first ps ∧
        PartsPlaced m cap place (namesAfter known ps) (past first ps) qs := by
  induction ps generalizing known first with
  | nil => exact (and_iff_right trivial).symm
  | cons p ps ih =>
    rw [List.cons_append, PartsPlaced, PartsPlaced, ih, and_assoc]
    rfl

/-! ## Machines show what snapshots show -/

section Render

variable {m : Machine} {cap : Nat} {place : Nat → Nat} {σ : Marks} {known : List Nat}
  {first : Nat} {env : Bindings}

/-- Whether a wheel shows a text, and an echo behind it sees the groups that come with it. -/
structure Machine.Displays (m : Machine) (place : Nat → Nat) (σ : Marks) (names : List Nat)
    (root : Nat) (shown : Shown) : Prop where
  text : Ends (m.render σ root) shown.text
  groups : m.Carries place σ names (root + 1) shown.groups

/-- What is seen after a plan. -/
theorem Machine.Displays.carries {p : Plan} {shown : Shown}
    (h : m.Displays place σ p.names (p.root first) shown)
    (hplaced : p.Placed m cap place known first) (henv : m.Carries place σ known first env) :
    m.Carries place σ (p.names ++ known) (p.root first + 1) (shown.groups ++ env) :=
  h.groups.append (henv.widen (Nat.le_succ_of_le (p.le_root first)) fun _ _ hw hfirst hi =>
    (hplaced.wheel henv.below hw hfirst (Nat.le_of_lt_succ hi)).1) fun _ => List.mem_append

theorem renderRow_of {ps : List Plan}
    (h : ∀ p ∈ ps, ∀ {known first env}, p.Placed m cap place known first →
      m.Carries place σ known first env →
      m.Displays place σ p.names (p.root first) (p.shown σ first env))
    (hps : PartsPlaced m cap place known first ps) (henv : m.Carries place σ known first env) :
    Ends (m.renderRow σ (roots first ps)) (shownRow σ first ps env).text ∧
      m.Carries place σ (partsNames ps) (past first ps) (shownRow σ first ps env).groups := by
  induction ps generalizing known first env with
  | nil => exact ⟨.succ (.pure fun fuel => by rw [roots, Machine.renderRow]; rfl), .nil ..⟩
  | cons p ps ih =>
    obtain ⟨hp, hrest⟩ := List.forall_mem_cons.1 h
    have hleft := hp hps.1 henv
    have henv' := hleft.carries hps.1 henv
    obtain ⟨htext, hgroups⟩ := ih hrest hps.2 henv'
    refine ⟨?_, ?_⟩
    · refine .succ (hleft.text.of₂ htext fun fuel hleft hright => ?_)
      rw [roots, Machine.renderRow, hleft]
      show (m.renderRow σ _ fuel >>= _) = _
      rw [hright]
      rfl
    · refine hgroups.append (hleft.groups.widen (le_past ps _) fun i w hw hfirst hi => ?_)
        fun n => ?_
      · exact (hps.2.wheel henv'.below hw hfirst hi).1
      · rw [partsNames, List.mem_append, or_comm]

theorem carries_scopeAfter_of {ps : List Plan}
    (h : ∀ p ∈ ps, ∀ {known first env}, p.Placed m cap place known first →
      m.Carries place σ known first env →
      m.Displays place σ p.names (p.root first) (p.shown σ first env))
    (hps : PartsPlaced m cap place known first ps) (scope : Scope)
    (henv : m.Carries place σ known first (scope env)) :
    m.Carries place σ (namesAfter known ps) (past first ps) (scopeAfter σ scope first ps env) := by
  induction ps generalizing known first scope with
  | nil => exact henv
  | cons p ps ih =>
    obtain ⟨hp, hrest⟩ := List.forall_mem_cons.1 h
    exact ih hrest hps.2 _ ((hp hps.1 henv).carries hps.1 henv)

theorem mem_partsNames_append {ps qs : List Plan} {n : Nat} :
    n ∈ partsNames (ps ++ qs) ↔ n ∈ partsNames ps ∨ n ∈ partsNames qs := by
  induction ps with
  | nil => simp [partsNames]
  | cons p ps ih => simp only [List.cons_append, partsNames, List.mem_append, ih, or_assoc]

/-- The wheels of a branch hold the names of the branch and no others. -/
theorem place_mem_branch_iff {ps qs : List Plan} {p : Plan}
    (hparts : PartsPlaced m cap place known first (ps ++ p :: qs)) {n : Nat}
    (hn : n ∈ partsNames (ps ++ p :: qs)) :
    past first ps ≤ place n ∧ place n ≤ p.root (past first ps) ↔ n ∈ p.names := by
  obtain ⟨hps, hp, hqs⟩ := partsPlaced_append.1 hparts
  refine ⟨fun hrange => ?_, fun hmem => hp.place_mem hmem⟩
  rcases mem_partsNames_append.1 hn with hn | hn
  · have := (hps.place_mem hn).2
    omega
  · rcases List.mem_append.1 hn with hn | hn
    · exact hn
    · have := (hqs.place_mem hn).1
      omega

/-- **A choice hides the groups in all branches but the one that it has turned to.** -/
theorem visible_choice_iff {ps qs : List Plan} {p : Plan}
    (hplaced : (Plan.choice (ps ++ p :: qs)).Placed m cap place known first)
    (hknown : ∀ n ∈ known, place n < first)
    (hindex : (σ.mark (past first (ps ++ p :: qs))).dial.index = ps.length) {n : Nat}
    (hn : n ∈ partsNames (ps ++ p :: qs)) :
    m.Visible σ (place n) (past first (ps ++ p :: qs) + 1) ↔
      n ∈ p.names ∧ m.Visible σ (place n) (p.root (past first ps) + 1) := by
  obtain ⟨hparts, hwheel⟩ := hplaced
  obtain ⟨hps, hp, hqs⟩ := partsPlaced_append.1 hparts
  obtain ⟨gear, hroot⟩ := hp.exists_root
  have hlast : past first (ps ++ p :: qs) = past (p.root (past first ps) + 1) qs :=
    past_append ps (p :: qs) first
  have hle := le_past qs (p.root (past first ps) + 1)
  have hplace := hparts.place_mem hn
  have hwithin : m.within (place n) (p.root (past first ps)) = true ↔ n ∈ p.names := by
    rw [Machine.within_iff, hroot, ← place_mem_branch_iff hparts hn]
    simp only [Option.some.injEq, exists_eq_left']
  have hselects : m.selects σ (past first (ps ++ p :: qs)) (place n) = true ↔ n ∈ p.names := by
    rw [Machine.selects, hwheel]
    simp only [hindex, getElem?_roots_append, roots, List.head?_cons, hwithin]
  constructor
  · intro hvisible
    have hself : m.within (place n) (past first (ps ++ p :: qs)) = true :=
      Machine.within_iff.2 ⟨_, hwheel, hplace.1, Nat.le_of_lt hplace.2⟩
    refine ⟨hselects.1 (hvisible _ hplace.2 (Nat.lt_succ_self _) hself), ?_⟩
    exact fun outer hlt hlim => hvisible outer hlt (by omega)
  · rintro ⟨hmem, hvisible⟩ outer hlt hlim hself
    by_cases hbefore : outer < p.root (past first ps) + 1
    · exact hvisible outer hlt hbefore hself
    · rcases Nat.lt_or_eq_of_le (Nat.le_of_lt_succ hlim) with hlim | rfl
      · -- wheels of later branches are not around the target
        obtain ⟨w, hw, hfirst, -⟩ := Machine.within_iff.1 hself
        have hknown' : ∀ n ∈ p.names ++ namesAfter known ps,
            place n < p.root (past first ps) + 1 := by
          intro n hn
          have hlo := le_past ps first
          have hpn := p.le_root (past first ps)
          rcases List.mem_append.1 hn with hn | hn
          · exact Nat.lt_succ_of_le (hp.place_mem hn).2
          · rcases mem_namesAfter.1 hn with hn | hn
            · have := (hps.place_mem hn).2
              omega
            · have := hknown n hn
              omega
        have := (hqs.wheel hknown' hw (by omega) (by omega)).1
        have := (hp.place_mem hmem).2
        omega
      · exact hselects.2 hmem

theorem shownBranch_of_length_le {scope : Scope} {index : Nat} {ps : List Plan}
    (h : ps.length ≤ index) : shownBranch σ scope index first ps = empty := by
  induction ps generalizing scope first index with
  | nil => rfl
  | cons p ps ih =>
    cases index with
    | zero => cases h
    | succ index => exact ih (Nat.le_of_succ_le_succ h)

theorem displays_choice {bs : List Plan}
    (h : ∀ p ∈ bs, ∀ {known first env}, p.Placed m cap place known first →
      m.Carries place σ known first env →
      m.Displays place σ p.names (p.root first) (p.shown σ first env))
    (hplaced : (Plan.choice bs).Placed m cap place known first)
    (henv : m.Carries place σ known first env) :
    m.Displays place σ (partsNames bs) (past first bs) ((Plan.choice bs).shown σ first env) := by
  have hbelow : ∀ n ∈ partsNames bs, place n < past first bs + 1 := fun n hn =>
    Nat.lt_succ_of_lt (hplaced.1.place_mem hn).2
  rw [Plan.shown]
  by_cases hindex : (σ.mark (past first bs)).dial.index < bs.length
  · obtain ⟨ps, p, qs, rfl, hlength⟩ : ∃ ps p qs, bs = ps ++ p :: qs ∧
        (σ.mark (past first bs)).dial.index = ps.length :=
      ⟨_, _, _, (List.take_append_drop _ bs).symm.trans
        (by rw [List.drop_eq_getElem_cons hindex]), by rw [List.length_take]; omega⟩
    obtain ⟨hps, hp, -⟩ := partsPlaced_append.1 hplaced.1
    have hscope := carries_scopeAfter_of (fun q hq => h q (List.mem_append_left _ hq)) hps id henv
    have hbranch := h p (by simp) hp hscope
    rw [hlength, shownBranch_append]
    refine ⟨?_, hbelow, fun n hn hvisible => ?_, fun n hn => ?_⟩
    · refine .succ (hbranch.text.of fun fuel hfuel => ?_)
      rw [Machine.render_choice hplaced.2 (hlength ▸ getElem?_roots_append ps (p :: qs) first)]
      exact hfuel
    · obtain ⟨hmem, hvisible⟩ := (visible_choice_iff hplaced henv.below hlength hn).1 hvisible
      exact hbranch.groups.text n hmem hvisible
    · refine hbranch.groups.hidden n fun hn' => hn ?_
      have hmem : n ∈ partsNames (ps ++ p :: qs) :=
        mem_partsNames_append.2 (.inr (List.mem_append_left _ hn'.1))
      exact ⟨hmem, (visible_choice_iff hplaced henv.below hlength hmem).2 hn'⟩
  · -- turned past its branches a choice shows nothing
    have hnone : (roots first bs)[(σ.mark (past first bs)).dial.index]? = none := by
      rw [List.getElem?_eq_none_iff, length_roots]
      exact Nat.le_of_not_lt hindex
    rw [shownBranch_of_length_le (Nat.le_of_not_lt hindex)]
    refine ⟨?_, .of_hidden (fun n hn => (hplaced.1.place_mem hn).2) (fun n hn => ?_)
      fun n hn => ?_⟩
    · exact .succ (.pure (Machine.render_choice_none hplaced.2 hnone))
    · obtain ⟨hfirst, hpast⟩ := hplaced.1.place_mem hn
      exact Machine.within_iff.2 ⟨_, hplaced.2, hfirst, Nat.le_of_lt hpast⟩
    · rw [Machine.selects, hplaced.2]
      simp only [hnone]

/-- **A machine shows what the snapshot of its dials shows,** and so do the groups in it. -/
theorem Plan.Placed.displays {p : Plan} (h : p.Placed m cap place known first)
    (henv : m.Carries place σ known first env) :
    m.Displays place σ p.names (p.root first) (p.shown σ first env) := by
  induction p generalizing known first env with
  | texts values =>
    refine ⟨.succ (.pure fun fuel => ?_), .nil m place σ _⟩
    rw [Machine.render, root, h]
    rfl
  | concat parts ih =>
    obtain ⟨htext, hgroups⟩ := renderRow_of ih h.1 henv
    refine ⟨?_, hgroups.succ fun n hn => ?_⟩
    · refine .succ (htext.of fun fuel hfuel => ?_)
      rw [root, Machine.render, h.2]
      exact hfuel
    · rw [Machine.selects, h.2]
  | choice branches ih => exact displays_choice ih h henv
  | times min max body ih =>
    have hbody := ih h.1 henv
    have hselects : ∀ n, m.selects σ (body.root first + 1) (place n) =
        !(σ.mark (body.root first + 1)).dial.digits.isEmpty := by
      intro n
      rw [Machine.selects, h.2]
    have hgroups : m.Carries place σ body.names (body.root first + 1 + 1)
        (if (σ.mark (body.root first + 1)).dial.digits.isEmpty then []
          else (body.shown σ first env).groups) := by
      split
      · rename_i hempty
        refine .of_hidden hbody.groups.below (fun n hn => ?_) fun n _ => ?_
        · obtain ⟨hfirst, hroot⟩ := h.1.place_mem hn
          exact Machine.within_iff.2 ⟨_, h.2, hfirst, Nat.le_succ_of_le hroot⟩
        · rw [hselects, hempty]
          rfl
      · rename_i hdigits
        refine hbody.groups.succ fun n _ => ?_
        rw [hselects, Bool.eq_false_iff.2 hdigits]
        rfl
    refine ⟨.succ (.pure fun fuel => ?_), hgroups⟩
    rw [root, Machine.render, h.2]
    rfl
  | echo name =>
    refine ⟨.succ ((henv.ends_echo h.1).of fun fuel hfuel => ?_), .nil m place σ _⟩
    rw [root, Machine.render, h.2]
    exact hfuel
  | named name body ih =>
    obtain ⟨-, -, hplace, hbody⟩ := h
    obtain ⟨htext, hgroups⟩ := ih hbody henv
    exact ⟨htext, (Machine.Carries.single hplace htext).append hgroups fun n => by
      rw [names, List.mem_cons, List.mem_singleton]⟩

/-- What a branch sees is what the branches before it have left. -/
theorem carries_scopeAfter {ps : List Plan} (hps : PartsPlaced m cap place known first ps)
    (henv : m.Carries place σ known first env) :
    m.Carries place σ (namesAfter known ps) (past first ps) (scopeAfter σ id first ps env) :=
  carries_scopeAfter_of (fun _ _ _ _ _ hp henv => hp.displays henv) hps id henv

end Render

end SequenceConstraint
