import SequenceConstraint.Proofs.Agreement.Recall
import SequenceConstraint.Proofs.Odometer.Layout

/-!
# Groups that take no part

A group takes no part in a text if it lies in a branch that is not chosen, or in a repetition of no
rounds. An echo of such a group should show nothing. This is what a plan says (`Plan.Says`), with
one exception: a branch that a choice has passed over is left with something, and its groups are
still there for the echoes in later branches of the same choice. What is left of a branch can be
told from the plan (`Plan.leaves`): literals are left with nothing, repetitions with a word.

## Main statements

* `Plan.run_leaves` — what a plan is left with
* `Plan.says_of_shows` — a plan shows what it says
* `Stream.says_of_mem` — so does a stream: a reference shows nothing if its group takes no part, and
  was not left with a text in a branch passed over
* `Stream.not_forall_says` — the exception cannot be dropped
-/

namespace SequenceConstraint

/-! ## What a run is left with -/

namespace Run

variable {α β γ : Type}

theorem last_unseenThen {κ : Type} [Ord κ] (key : α → κ) (f : α → β)
    (next : Std.TreeSet κ compare → α → Run β) (seen : Std.TreeSet κ compare) (r : Run α) :
    (r.unseenThen key f next seen).last = (next (seenAfter key seen r.toList) r.last).last := by
  induction r generalizing seen with
  | done a => rfl
  | yield a rest ih =>
    rw [unseenThen, toList_yield, seenAfter, last_yield]
    split
    · exact ih () seen
    · exact ih () _

/-- A cross ends with two last values; the second is one of the run for the last value before. -/
theorem last_cross (join : α → β → γ) (right : α → Run β) (before : β) {r : Run α}
    (h : r.toList ≠ []) : ∃ a ∈ r.toList,
      (r.cross join right before).last = join r.last (right a).last := by
  induction r generalizing before with
  | done a => exact absurd rfl h
  | yield a rest ih =>
    rw [cross, last_andThen, last_yield, toList_yield]
    by_cases hrest : (rest ()).toList = []
    · refine ⟨a, List.mem_cons_self, ?_⟩
      cases hdone : rest () with
      | done b => rfl
      | yield b rest' =>
        rw [hdone] at hrest
        cases hrest
    · obtain ⟨b, hb, hlast⟩ := ih () _ hrest
      exact ⟨b, List.mem_cons_of_mem a hb, hlast⟩

end Run

namespace Snapshot

/-- Whether a snapshot shows no text, if it is to be blank, and none in its groups, but for some
names. -/
structure Leaves (blank : Bool) (names : List Nat) (s : Snapshot) : Prop where
  text : blank = true → ∀ env, (s env).text = []
  groups : ∀ env, ∀ g ∈ (s env).groups, g.1 ∈ names ∨ g.2 = []

variable {blank blank' : Bool} {names names' : List Nat} {s t : Snapshot}

theorem Binds.leaves (h : s.Binds names) : s.Leaves false names where
  text := nofun
  groups env g hg := .inl (h env g hg)

theorem leaves_const (text : List Char) (h : blank = true → text = []) :
    (const text).Leaves blank [] where
  text hblank _ := h hblank
  groups _ _ hg := absurd hg List.not_mem_nil

theorem Leaves.within (scope : Scope) (h : s.Leaves blank names) :
    (s.within scope).Leaves blank names where
  text hblank env := h.text hblank (scope env)
  groups env := h.groups (scope env)

theorem Leaves.beside (hs : s.Leaves blank names) (ht : t.Leaves blank' names') :
    (s.beside t).Leaves (blank && blank') (names ++ names') where
  text hblank env := by
    obtain ⟨hblank, hblank'⟩ := Bool.and_eq_true_iff.1 hblank
    exact List.append_eq_nil_iff.2 ⟨hs.text hblank env, ht.text hblank' _⟩
  groups env g hg := by
    rcases List.mem_append.1 hg with hg | hg
    · exact (ht.groups _ g hg).imp_left (List.mem_append_right names)
    · exact (hs.groups env g hg).imp_left (List.mem_append_left names')

theorem Leaves.named (name : Nat) (h : s.Leaves blank names) :
    (s.named name).Leaves blank (if blank then names else name :: names) where
  text := h.text
  groups env g hg := by
    rcases List.mem_cons.1 hg with rfl | hg
    · cases blank with
      | true => exact .inr (h.text rfl env)
      | false => exact .inl List.mem_cons_self
    · refine (h.groups env g hg).imp_left fun hmem => ?_
      split
      · exact hmem
      · exact List.mem_cons_of_mem name hmem

end Snapshot

namespace Plan

open Snapshot

mutual

/-- Whether a plan is sure to be left with no text. -/
def spent (cap : Nat) : Plan → Bool
  | .texts _ => true
  | .concat parts => allProduce cap parts && allSpent cap parts
  | .choice branches => lastSpent cap branches
  | .times min max _ => min == 0 && limit cap min max == 0
  | .echo _ => false
  | .named _ body => body.spent cap

def allSpent (cap : Nat) : List Plan → Bool
  | [] => true
  | p :: ps => p.spent cap && allSpent cap ps

def lastSpent (cap : Nat) : List Plan → Bool
  | [] => true
  | [p] => p.spent cap
  | _ :: p :: ps => lastSpent cap (p :: ps)

end

mutual

/-- The names of a plan that may be left with a text. -/
def leaves (cap : Nat) : Plan → List Nat
  | .texts _ => []
  | .concat parts => if allProduce cap parts then partsLeave cap parts else partsNames parts
  | .choice branches => lastLeaves cap branches
  | .times min max body => if min == 0 && limit cap min max == 0 then [] else body.names
  | .echo _ => []
  | .named name body => if body.spent cap then body.leaves cap else name :: body.leaves cap

def partsLeave (cap : Nat) : List Plan → List Nat
  | [] => []
  | p :: ps => p.leaves cap ++ partsLeave cap ps

def lastLeaves (cap : Nat) : List Plan → List Nat
  | [] => []
  | [p] => p.leaves cap
  | _ :: p :: ps => lastLeaves cap (p :: ps)

end

variable {cap : Nat} {env : Bindings}

theorem toList_run_ne_nil {p : Plan} (h : p.produces cap = true) (env : Bindings) :
    (p.run cap env).toList ≠ [] := by
  obtain ⟨r, x, hx, -⟩ := (produces_iff p env).1 h
  exact List.ne_nil_of_mem hx

theorem runParts_leaves {parts : List Plan}
    (h : ∀ p ∈ parts, ∀ env, (p.run cap env).last.Leaves (p.spent cap) (p.leaves cap))
    (hall : allProduce cap parts = true) (env : Bindings) :
    (runParts cap parts env).last.Leaves (allSpent cap parts) (partsLeave cap parts) := by
  induction parts generalizing env with
  | nil => exact leaves_const [] fun _ => rfl
  | cons p ps ih =>
    obtain ⟨hp, hps⟩ := List.forall_mem_cons.1 h
    obtain ⟨hproduces, hall⟩ := Bool.and_eq_true_iff.1 hall
    obtain ⟨a, -, hlast⟩ := Run.last_cross beside
      (fun s => runParts cap ps ((s env).groups ++ env)) empty (toList_run_ne_nil hproduces env)
    rw [runParts, hlast]
    exact (hp env).beside (ih hps hall _)

/-- A choice is left with what its last branch is left with. -/
theorem runBranches_leaves {p : Plan} {ps : List Plan}
    (h : ∀ q ∈ p :: ps, ∀ env, (q.run cap env).last.Leaves (q.spent cap) (q.leaves cap))
    (env : Bindings) (scope : Scope) (seen : Std.TreeSet (List Char) compare) (last : Snapshot) :
    (runBranches cap (p :: ps) env scope seen last).last.Leaves
      (lastSpent cap (p :: ps)) (lastLeaves cap (p :: ps)) := by
  induction ps generalizing p scope seen last with
  | nil =>
    rw [runBranches, Run.last_unseenThen, runBranches]
    exact (h p List.mem_cons_self (scope env)).within scope
  | cons q ps ih =>
    rw [runBranches, Run.last_unseenThen]
    exact ih (fun r hr => h r (List.mem_cons_of_mem p hr)) _ _ _

/-- **What a plan is left with.** -/
theorem run_leaves (p : Plan) (env : Bindings) :
    (p.run cap env).last.Leaves (p.spent cap) (p.leaves cap) := by
  induction p generalizing env with
  | texts values =>
    rw [run, Run.last_ofList]
    exact leaves_const [] fun _ => rfl
  | concat parts ih =>
    rw [run, spent, leaves]
    by_cases hall : allProduce cap parts = true
    · rw [if_pos hall, if_pos hall, hall]
      exact runParts_leaves ih hall env
    · rw [if_neg hall, if_neg hall, Bool.eq_false_iff.2 hall]
      exact (stalledParts_binds (fun p _ => run_binds p) env).leaves
  | choice branches ih =>
    cases branches with
    | nil => exact leaves_const [] fun _ => rfl
    | cons p ps => exact runBranches_leaves ih env id ∅ empty
  | times min max body ih =>
    rw [spent, leaves]
    by_cases hzero : (min == 0 && limit cap min max == 0) = true
    · rw [if_pos hzero, hzero]
      obtain ⟨hmin, hlimit⟩ := Bool.and_eq_true_iff.1 hzero
      rw [run, eq_of_beq hlimit, eq_of_beq hmin, Repeats.run, if_neg (by simp), Repeats.words,
        Run.last_counting]
      exact leaves_const [] fun _ => rfl
    · rw [if_neg hzero, Bool.eq_false_iff.2 hzero]
      exact (run_binds (.times min max body) env).last.leaves
  | echo name =>
    exact ⟨fun hblank => absurd hblank Bool.false_ne_true,
      fun _ _ hg => absurd hg List.not_mem_nil⟩
  | named name body ih =>
    rw [run, Run.last_map]
    exact (ih env).named name

theorem leftover_eq_nil {p : Plan} {g : Nat × List Char} (hg : g ∈ p.leftover cap env)
    (h : g.1 ∉ p.leaves cap) : g.2 = [] :=
  ((run_leaves p env).groups env g hg).resolve_left h

/-! ## What a plan says -/

mutual

/-- Whether a plan says that it shows a text and groups, if the groups `present` take part. Echoes
of the names in `passed`, which were left in branches passed over, are free to show anything. What
a branch may leave is given by `left`. -/
def Says (cap : Nat) (left : Plan → List Nat) (present : Bindings) (passed : List Nat) :
    Plan → Shown → Prop
  | .texts values, r => ∃ v ∈ values, r = ⟨v, []⟩
  | .concat parts, r => PartsSay cap left present passed parts r
  | .choice branches, r => AnySays cap left present passed branches r
  | .times min max body, r =>
    ∃ rs : List Shown, (∀ b ∈ rs, body.Says cap left present passed b) ∧ min ≤ rs.length ∧
      rs.length ≤ limit cap min max ∧ r = ofRepeats rs
  | .echo name, r => r.groups = [] ∧ (name ∈ passed ∨ r.text = present.text name)
  | .named name body, r =>
    ∃ b, body.Says cap left present passed b ∧ r = ⟨b.text, (name, b.text) :: b.groups⟩

def PartsSay (cap : Nat) (left : Plan → List Nat) (present : Bindings) (passed : List Nat) :
    List Plan → Shown → Prop
  | [], r => r = ⟨[], []⟩
  | p :: ps, r =>
    ∃ a b, p.Says cap left present passed a ∧ PartsSay cap left (a.groups ++ present) passed ps b ∧
      r = a.beside b

/-- The groups of a branch that is passed over take no part. -/
def AnySays (cap : Nat) (left : Plan → List Nat) (present : Bindings) (passed : List Nat) :
    List Plan → Shown → Prop
  | [], _ => False
  | p :: ps, r =>
    p.Says cap left present passed r ∨ AnySays cap left present (left p ++ passed) ps r

end

end Plan

/-! ## What is shown is what is said -/

theorem Bindings.text_append_eq_nil {groups env : Bindings} {name : Nat}
    (hgroups : ∀ g ∈ groups, g.1 = name → g.2 = []) (henv : env.text name = []) :
    (groups ++ env).text name = [] := by
  have hleft := text_eq_nil hgroups
  unfold text at hleft henv ⊢
  rw [List.lookup_append]
  cases hlookup : groups.lookup name with
  | none => exact henv
  | some w =>
    rw [hlookup] at hleft
    exact hleft

namespace Plan

section Saying

variable {cap : Nat} {known passed : List Nat} {env present : Bindings} {r : Shown}

/-- Whether echoes see the groups that take part: those they see otherwise have been left in
branches passed over, under names in `passed`. -/
structure Sees (known passed : List Nat) (env present : Bindings) : Prop where
  known : ∀ g ∈ present, g.1 ∈ known
  agree : ∀ n, n ∉ passed → env.text n = present.text n

/-- The groups of a part that is shown take part. -/
theorem Sees.part {names : List Nat} {groups : Bindings} (h : Sees known passed env present)
    (hgroups : ∀ g ∈ groups, g.1 ∈ names) :
    Sees (names ++ known) passed (groups ++ env) (groups ++ present) where
  known := by
    refine List.forall_mem_append.2 ⟨fun g hg => ?_, fun g hg => ?_⟩
    · exact List.mem_append_left known (hgroups g hg)
    · exact List.mem_append_right names (h.known g hg)
  agree n hn := by
    have hagree := h.agree n hn
    unfold Bindings.text at hagree ⊢
    rw [List.lookup_append, List.lookup_append]
    cases groups.lookup n with
    | none => exact hagree
    | some w => rfl

/-- **The groups of a branch passed over take no part.** What they are left with is under names that
the branch may leave. -/
theorem Sees.branch {p : Plan} (h : Sees known passed env present) (hwell : p.WellNamed known) :
    Sees (p.names ++ known) (p.leaves cap ++ passed) (p.leftover cap env ++ env) present where
  known g hg := List.mem_append_right p.names (h.known g hg)
  agree n hn := by
    rw [List.mem_append, not_or] at hn
    by_cases hname : n ∈ p.names
    · -- the name is new, so nothing of `present` is under it
      have hknown : n ∉ known := hwell.nodup.2 n hname
      have hpresent : present.text n = [] :=
        Bindings.text_eq_nil fun g hg heq => absurd (heq ▸ h.known g hg) hknown
      rw [hpresent]
      refine Bindings.text_append_eq_nil (fun g hg heq => ?_) ((h.agree n hn.2).trans hpresent)
      exact leftover_eq_nil hg (heq ▸ hn.1)
    · rw [Bindings.text_append]
      · exact h.agree n hn.2
      · rintro g hg rfl
        exact hname (leftover_names g hg)

theorem partsSay_of {parts : List Plan}
    (h : ∀ p ∈ parts, ∀ known env present r, p.WellNamed known → Sees known passed env present →
      p.Shows cap env r → p.Says cap (leaves cap) present passed r)
    (hwell : PartsWellNamed known parts) (hsees : Sees known passed env present)
    (hr : PartsShow cap env parts r) : PartsSay cap (leaves cap) present passed parts r := by
  induction parts generalizing known env present r with
  | nil => exact hr
  | cons p ps ih =>
    obtain ⟨hp, hps⟩ := List.forall_mem_cons.1 h
    obtain ⟨a, b, ha, hb, rfl⟩ := hr
    exact ⟨a, b, hp _ _ _ _ hwell.1 hsees ha, ih hps hwell.2 (hsees.part ha.names) hb, rfl⟩

theorem anySays_of {branches : List Plan}
    (h : ∀ p ∈ branches, ∀ known passed env present r, p.WellNamed known →
      Sees known passed env present → p.Shows cap env r →
        p.Says cap (leaves cap) present passed r)
    (hwell : PartsWellNamed known branches) (hsees : Sees known passed env present)
    (hr : AnyShows cap env branches r) : AnySays cap (leaves cap) present passed branches r := by
  induction branches generalizing known passed env with
  | nil => exact hr
  | cons p ps ih =>
    obtain ⟨hp, hps⟩ := List.forall_mem_cons.1 h
    rcases hr with hr | hr
    · exact .inl (hp _ _ _ _ _ hwell.1 hsees hr)
    · exact .inr (ih hps hwell.2 (hsees.branch hwell.1) hr)

/-- **A plan shows what it says.** -/
theorem says_of_shows {p : Plan} (hwell : p.WellNamed known) (hsees : Sees known passed env present)
    (hr : p.Shows cap env r) : p.Says cap (leaves cap) present passed r := by
  induction p generalizing known passed env present r with
  | texts values => exact shows_texts.1 hr
  | concat parts ih =>
    exact partsSay_of (fun p hp _ _ _ _ => ih p hp) hwell hsees (shows_concat.1 hr)
  | choice branches ih =>
    exact anySays_of (fun p hp _ _ _ _ _ => ih p hp) hwell hsees (anyShows_of_shows hr)
  | times min max body ih =>
    obtain ⟨rs, hrs, hmin, hmax, rfl⟩ := shows_times.1 hr
    exact ⟨rs, fun b hb => ih hwell hsees (hrs b hb), hmin, hmax, rfl⟩
  | echo name =>
    obtain rfl := shows_echo.1 hr
    exact ⟨rfl, or_iff_not_imp_left.2 (hsees.agree name)⟩
  | named name body ih =>
    obtain ⟨b, hb, rfl⟩ := shows_named.1 hr
    exact ⟨b, ih hwell.2.2 hsees hb, rfl⟩

end Saying

end Plan

namespace Stream

variable {cap : Nat} {tree : Tree} {s : Stream} {w : List Char}

/-- **A reference to a group that takes no part shows nothing,** unless the group was left with a
text in a branch that a choice around the reference has passed over. -/
theorem says_of_mem (hs : ofTree cap tree = .ok s) (hw : w ∈ s.toList) :
    ∃ p r, tree.plan = .ok p ∧ p.Says cap (Plan.leaves cap) [] [] r ∧ r.text = w := by
  obtain ⟨p, hp, rfl⟩ := ofTree_eq_ok_iff.1 hs
  obtain ⟨r, hr, rfl⟩ := mem_toList_ofPlan.1 hw
  have hsees : Plan.Sees [] [] [] [] := ⟨fun g hg => absurd hg List.not_mem_nil, fun _ _ => rfl⟩
  exact ⟨p, r, hp, Plan.says_of_shows (Tree.wellNamed_plan hp) hsees hr, rfl⟩

/-- The tree of `(x)|(A)?B\1\2`, where `x` is a node. -/
def leftBranch (x : Node) : Tree :=
  ⟨[[.group (.capture 1) [[x]]], [.repetition 0 (some 1) (.group (.capture 2) [[.char 'A']]),
    .char 'B', .backreference 1, .backreference 2]], 2⟩

/-- Neither group takes part in the text B. -/
theorem says_leftBranch : ∃ s, ofTree 1 (leftBranch (.char 'A')) = .ok s ∧ ['B'] ∈ s.toList ∧
    ∃ p r, (leftBranch (.char 'A')).plan = .ok p ∧ p.Says 1 (Plan.leaves 1) [] [] r ∧
      r.text = ['B'] := by
  obtain ⟨s, hs⟩ : ∃ s, ofTree 1 (leftBranch (.char 'A')) = .ok s := ⟨_, rfl⟩
  have hw : ['B'] ∈ s.toList := by
    cases hs
    decide +kernel
  exact ⟨s, hs, hw, says_of_mem hs hw⟩

/-- **A repetition that a choice has passed over is left with a word,** and a reference shows it: in
the tree of `(A*)|B\1` the group of the first branch takes no part in the text BA. -/
theorem not_forall_says : ¬∀ (cap : Nat) (tree : Tree) (s : Stream) (w : List Char),
    ofTree cap tree = .ok s → w ∈ s.toList →
      ∃ p r, tree.plan = .ok p ∧ p.Says cap (fun _ => []) [] [] r ∧ r.text = w := by
  intro h
  let tree : Tree :=
    ⟨[[.group (.capture 1) [[.repetition 0 none (.char 'A')]]], [.char 'B', .backreference 1]], 1⟩
  obtain ⟨s, hs⟩ : ∃ s, ofTree 1 tree = .ok s := ⟨_, rfl⟩
  have hw : ['B', 'A'] ∈ s.toList := by
    cases hs
    decide +kernel
  obtain ⟨p, r, hp, hsays, htext⟩ := h 1 tree s ['B', 'A'] hs hw
  cases hp
  -- the first branch has no B in its texts, and nothing is there for the reference to show
  rcases hsays with ⟨a, b, ⟨c, hc, rfl⟩, rfl, rfl⟩ | ⟨a, b, ⟨v, hv, rfl⟩, hecho, rfl⟩ | hnone
  · obtain ⟨a, b, ⟨rs, hrs, -, -, rfl⟩, rfl, rfl⟩ := hc
    have hB : 'B' ∈ rs.flatMap Shown.text := by
      have hrounds : rs.flatMap Shown.text = ['B', 'A'] := by
        simpa [Shown.beside, Plan.ofRepeats] using htext
      rw [hrounds]
      exact List.mem_cons_self
    obtain ⟨b, hb, hB⟩ := List.mem_flatMap.1 hB
    obtain ⟨v, hv, rfl⟩ := hrs b hb
    rw [List.mem_singleton.1 hv] at hB
    exact absurd hB (by decide)
  · obtain ⟨a, b', ⟨-, hnone | hnone⟩, rfl, rfl⟩ := hecho
    · exact absurd hnone List.not_mem_nil
    · obtain rfl := List.mem_singleton.1 hv
      have hecho : a.text = ['A'] := by simpa [Shown.beside] using htext
      rw [hecho] at hnone
      cases hnone
  · exact hnone

end Stream

end SequenceConstraint
