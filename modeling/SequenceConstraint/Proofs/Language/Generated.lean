import Mathlib.Computability.Language
import Mathlib.Data.ENat.Basic
import SequenceConstraint.Proofs.Generation.Planning

/-!
# Languages of trees

Without backreferences, what a tree stands for is a language, composed node by node. Unbounded
repetitions get a cap on how often they repeat beyond what they must; without a cap (`⊤`) this is
the usual language of a regular expression. Anchors and lookaheads put no condition on a text here.

## Main statement

* `Tree.exists_plan` — a tree without backreferences has a plan, and its texts are those of the
  language with the same cap
-/

namespace SequenceConstraint

/-! ## The language -/

/-- Whether a number of repeats lies within the bounds of a repetition. -/
structure Within (cap : ℕ∞) (min : Nat) (max : Option Nat) (k : Nat) : Prop where
  enough : min ≤ k
  bounded : ∀ m, max = some m → k ≤ m
  capped : max = none → (k : ℕ∞) ≤ min + cap

/-- The characters of a class. -/
def CharClass.language (k : CharClass) : Language Char := {w | ∃ c ∈ k.resolve, w = [c]}

/-- Any number of words of a language within the bounds of a repetition. -/
def repeatedLanguage {α : Type} (cap : ℕ∞) (min : Nat) (max : Option Nat) (l : Language α) :
    Language α :=
  {w | ∃ k, Within cap min max k ∧ w ∈ l ^ k}

theorem mem_repeatedLanguage {α : Type} {cap : ℕ∞} {min : Nat} {max : Option Nat} {l : Language α}
    {w : List α} : w ∈ repeatedLanguage cap min max l ↔ ∃ k, Within cap min max k ∧ w ∈ l ^ k :=
  Iff.rfl

mutual

/-- The texts that a node stands for. -/
def Node.language (cap : ℕ∞) : Node → Language Char
  | .char c => {[c]}
  | .charClass k => k.language
  | .anchor _ => 1
  | .backreference _ => 0
  | .group _ branches => branchesLanguage cap branches
  | .repetition 0 (some 1) (.repetition min max body) =>
    repeatedLanguage cap min max (body.language cap)
  | .repetition min max body => repeatedLanguage cap min max (body.language cap)

/-- The nodes of a branch that take characters, one after the other. -/
def branchLanguage (cap : ℕ∞) : List Node → Language Char
  | [] => 1
  | n :: ns =>
    if n.isLookahead then branchLanguage cap ns else n.language cap * branchLanguage cap ns

def branchesLanguage (cap : ℕ∞) : List (List Node) → Language Char
  | [] => 0
  | b :: bs => branchLanguage cap b + branchesLanguage cap bs

end

def Tree.language (cap : ℕ∞) (tree : Tree) : Language Char := branchesLanguage cap tree.branches

theorem mem_branchesLanguage {cap : ℕ∞} {branches : List (List Node)} {w : List Char} :
    w ∈ branchesLanguage cap branches ↔ ∃ b ∈ branches, w ∈ branchLanguage cap b := by
  induction branches with
  | nil => simp [branchesLanguage, Language.notMem_zero]
  | cons b bs ih => simp [branchesLanguage, Language.mem_add, ih]

theorem branchLanguage_singleton {cap : ℕ∞} {n : Node} (h : n.isLookahead = false) :
    branchLanguage cap [n] = n.language cap := by
  rw [branchLanguage, if_neg (by simp [h]), branchLanguage, mul_one]

theorem branchLanguage_append (cap : ℕ∞) (b c : Branch) :
    branchLanguage cap (b ++ c) = branchLanguage cap b * branchLanguage cap c := by
  induction b with
  | nil => rw [List.nil_append, branchLanguage, one_mul]
  | cons n ns ih =>
    rw [List.cons_append, branchLanguage, branchLanguage, ih]
    by_cases hn : n.isLookahead = true
    · rw [if_pos hn, if_pos hn]
    · rw [if_neg hn, if_neg hn, mul_assoc]

/-- A group that is repeated at least `min` times. -/
theorem branchLanguage_repeatedGroup (cap : ℕ∞) (min : Nat) (kind : GroupKind)
    (branches : List (List Node)) :
    branchLanguage cap [.repetition min none (.group kind branches)] =
      repeatedLanguage cap min none (branchesLanguage cap branches) := by
  rw [branchLanguage_singleton rfl, Node.language, Node.language]
  simp

/-- Lookaheads do not count. -/
theorem branchLanguage_takingNodes (cap : ℕ∞) (branch : Branch) :
    branchLanguage cap (takingNodes branch) = branchLanguage cap branch := by
  induction branch with
  | nil => rfl
  | cons n ns ih =>
    by_cases hn : n.isLookahead = true
    · rw [takingNodes_skip hn, ih, branchLanguage, if_pos hn]
    · rw [takingNodes_cons (Bool.eq_false_iff.2 hn), branchLanguage, branchLanguage, if_neg hn,
        if_neg hn, ih]

/-- The bounds that a plan keeps to. -/
theorem within_iff {cap min k : Nat} {max : Option Nat} :
    Within cap min max k ↔ min ≤ k ∧ k ≤ Plan.limit cap min max := by
  cases max with
  | none =>
    have hcast : (k : ℕ∞) ≤ min + cap ↔ k ≤ min + cap := by norm_cast
    constructor
    · intro h
      exact ⟨h.enough, hcast.1 (h.capped rfl)⟩
    · rintro ⟨hmin, hlimit⟩
      exact ⟨hmin, by simp, fun _ => hcast.2 hlimit⟩
  | some m =>
    constructor
    · intro h
      exact ⟨h.enough, h.bounded m rfl⟩
    · rintro ⟨hmin, hlimit⟩
      refine ⟨hmin, ?_, by simp⟩
      rintro _ ⟨⟩
      exact hlimit

/-! ## What plans produce -/

namespace Plan

/-- Whether the texts of a plan are those of a language, whatever its surroundings. -/
def Produces (cap : Nat) (p : Plan) (l : Language Char) : Prop :=
  ∀ env w, (∃ r, p.Shows cap env r ∧ r.text = w) ↔ w ∈ l

variable {cap : Nat}

/-- A plan of texts is for the language of these texts. -/
theorem produces_texts {values : List (List Char)} {l : Language Char}
    (h : ∀ w, w ∈ values ↔ w ∈ l) : (texts values).Produces cap l := by
  intro env w
  rw [← h]
  simp only [shows_texts]
  constructor
  · rintro ⟨_, ⟨v, hv, rfl⟩, rfl⟩
    exact hv
  · intro hw
    exact ⟨_, ⟨w, hw, rfl⟩, rfl⟩

theorem produces_named {name : Nat} {body : Plan} {l : Language Char} (h : body.Produces cap l) :
    (named name body).Produces cap l := by
  intro env w
  rw [← h env w]
  simp only [shows_named]
  constructor
  · rintro ⟨_, ⟨b, hb, rfl⟩, rfl⟩
    exact ⟨b, hb, rfl⟩
  · rintro ⟨b, hb, rfl⟩
    exact ⟨_, ⟨b, hb, rfl⟩, rfl⟩

theorem produces_times {min : Nat} {max : Option Nat} {body : Plan} {l : Language Char}
    (h : body.Produces cap l) :
    (times min max body).Produces cap (repeatedLanguage cap min max l) := by
  intro env w
  simp only [shows_times, mem_repeatedLanguage, within_iff, Language.mem_pow]
  constructor
  · rintro ⟨_, ⟨rs, hrs, hmin, hmax, rfl⟩, rfl⟩
    refine ⟨rs.length, ⟨hmin, hmax⟩, rs.map Shown.text, ?_, by simp, ?_⟩
    · rw [ofRepeats, List.flatMap_def]
    · intro v hv
      obtain ⟨b, hb, rfl⟩ := List.mem_map.1 hv
      exact (h env b.text).1 ⟨b, hrs b hb, rfl⟩
  · rintro ⟨_, ⟨hmin, hmax⟩, ws, rfl, rfl, hws⟩
    obtain ⟨rs, hrs, rfl⟩ := exists_map_eq fun v hv => (h env v).2 (hws v hv)
    rw [List.length_map] at hmin hmax
    refine ⟨_, ⟨rs, hrs, hmin, hmax, rfl⟩, ?_⟩
    rw [ofRepeats, List.flatMap_def]

theorem exists_anyShows_cons {env : Bindings} {w : List Char} {p : Plan} {ps : List Plan}
    {l : Language Char} (h : p.Produces cap l) :
    (∃ r, AnyShows cap env (p :: ps) r ∧ r.text = w) ↔
      w ∈ l ∨ ∃ r, AnyShows cap (p.leftover cap env ++ env) ps r ∧ r.text = w := by
  simp only [AnyShows, or_and_right, exists_or, h env w]

/-- A lone branch or a choice shows the texts of its branches. -/
theorem exists_shows_ofBranches_iff {env : Bindings} {w : List Char} {ps : List Plan} :
    (∃ r, (ofBranches ps).Shows cap env r ∧ r.text = w) ↔
      ∃ r, AnyShows cap env ps r ∧ r.text = w := by
  constructor
  · rintro ⟨r, hr, rfl⟩
    exact ⟨r, anyShows_of_shows_ofBranches hr, rfl⟩
  · rintro ⟨r, hr, rfl⟩
    exact exists_shows_ofBranches hr

end Plan

/-! ## Nodes -/

/-- Whether planning a node succeeds, with a plan for its language. -/
def Node.Planned (n : Node) : Prop :=
  ∀ σ, ∃ p σ', n.plan σ = .ok (p, σ') ∧ ∀ cap : Nat, p.Produces cap (n.language cap)

theorem exists_planBranch {branch : List Node} (h : ∀ n ∈ branch, n.Planned) (σ : Naming) :
    ∃ ps σ', planBranch branch σ = .ok (ps, σ') ∧
      ∀ cap : Nat, (Plan.concat ps).Produces cap (branchLanguage cap branch) := by
  induction branch generalizing σ with
  | nil =>
    refine ⟨[], σ, planBranch_nil_iff.2 ⟨rfl, rfl⟩, fun cap env w => ?_⟩
    simp only [Plan.shows_concat, Plan.PartsShow, branchLanguage, Language.mem_one, exists_eq_left]
    exact eq_comm
  | cons n ns ih =>
    obtain ⟨hn, hns⟩ := List.forall_mem_cons.1 h
    by_cases hlook : n.isLookahead = true
    · simp only [planBranch_skip hlook, branchLanguage, if_pos hlook]
      exact ih hns σ
    · obtain ⟨p, σ₁, hp, hfirst⟩ := hn σ
      obtain ⟨rest, σ', hrest, hsecond⟩ := ih hns σ₁
      refine ⟨p :: rest, σ', (planBranch_cons_iff (Bool.eq_false_iff.2 hlook)).2
        ⟨p, σ₁, rest, hp, hrest, rfl⟩, fun cap env w => ?_⟩
      rw [branchLanguage, if_neg hlook, Language.mem_mul]
      simp only [Plan.shows_concat, Plan.PartsShow]
      constructor
      · rintro ⟨_, ⟨a, b, ha, hb, rfl⟩, rfl⟩
        exact ⟨a.text, (hfirst cap env _).1 ⟨a, ha, rfl⟩, b.text,
          (hsecond cap _ _).1 ⟨b, Plan.shows_concat.2 hb, rfl⟩, rfl⟩
      · rintro ⟨u, hu, v, hv, rfl⟩
        obtain ⟨a, ha, rfl⟩ := (hfirst cap env u).2 hu
        obtain ⟨b, hb, rfl⟩ := (hsecond cap (a.groups ++ env) v).2 hv
        exact ⟨_, ⟨a, b, ha, Plan.shows_concat.1 hb, rfl⟩, rfl⟩

/-- The branches that are left out are like some that have been seen. -/
theorem exists_planBranches {branches : List (List Node)}
    (h : ∀ b ∈ branches, ∀ n ∈ b, n.Planned) (seen : List Branch) (σ : Naming) :
    ∃ ps σ', planBranches seen branches σ = .ok (ps, σ') ∧
      ∀ (cap : Nat) env w,
        ((∃ r, Plan.AnyShows cap env ps r ∧ r.text = w) ∨ ∃ c ∈ seen, w ∈ branchLanguage cap c) ↔
          (w ∈ branchesLanguage cap branches ∨ ∃ c ∈ seen, w ∈ branchLanguage cap c) := by
  induction branches generalizing seen σ with
  | nil =>
    refine ⟨[], σ, planBranches_nil_iff.2 ⟨rfl, rfl⟩, fun cap env w => ?_⟩
    simp [Plan.AnyShows, branchesLanguage, Language.notMem_zero]
  | cons b bs ih =>
    obtain ⟨hb, hbs⟩ := List.forall_mem_cons.1 h
    by_cases hseen : takingNodes b ∈ seen
    · obtain ⟨ps, σ', hps, hiff⟩ := ih hbs seen σ
      refine ⟨ps, σ', by rw [planBranches_skip hseen, hps], fun cap env w => ?_⟩
      -- the branch adds nothing to what has been seen
      have hlike : w ∈ branchLanguage cap b → ∃ c ∈ seen, w ∈ branchLanguage cap c := by
        intro hw
        exact ⟨takingNodes b, hseen, by rwa [branchLanguage_takingNodes]⟩
      rw [hiff cap env w, branchesLanguage, Language.mem_add]
      constructor
      · rintro (hw | hw)
        · exact .inl (.inr hw)
        · exact .inr hw
      · rintro ((hw | hw) | hw)
        · exact .inr (hlike hw)
        · exact .inl hw
        · exact .inr hw
    · obtain ⟨parts, σ₁, hparts, hfirst⟩ := exists_planBranch hb σ
      obtain ⟨rest, σ', hrest, hiff⟩ := ih hbs (takingNodes b :: seen) σ₁
      refine ⟨_, σ', (planBranches_cons_iff hseen).2 ⟨parts, σ₁, rest, hparts, hrest, rfl⟩,
        fun cap env w => ?_⟩
      have hrest := hiff cap ((Plan.concat parts).leftover cap env ++ env) w
      simp only [List.exists_mem_cons_iff, branchLanguage_takingNodes] at hrest
      -- from here on the branch counts as seen
      rw [Plan.exists_anyShows_cons (hfirst cap), branchesLanguage, Language.mem_add]
      grind

theorem planned_group {kind : GroupKind} {branches : List (List Node)}
    (h : ∀ b ∈ branches, ∀ n ∈ b, n.Planned) : (Node.group kind branches).Planned := by
  intro σ
  obtain ⟨ps, σ₁, hps, hiff⟩ := exists_planBranches h [] σ
  have hbody : ∀ cap : Nat, (Plan.ofBranches ps).Produces cap (branchesLanguage cap branches) := by
    intro cap env w
    rw [Plan.exists_shows_ofBranches_iff]
    simpa using hiff cap env w
  refine ⟨_, _, plan_group_iff.2 ⟨ps, σ₁, hps, rfl⟩, fun cap => ?_⟩
  rw [Node.language]
  cases kind with
  | capture index =>
    show (σ₁.record index (Plan.ofBranches ps)).1.Produces cap (branchesLanguage cap branches)
    unfold Naming.record
    split
    · exact Plan.produces_named (hbody cap)
    · exact hbody cap
  | plain => exact hbody cap
  | lookahead negative => exact hbody cap

/-- **A node without backreferences has a plan for its language.** -/
theorem Node.planned {n : Node} (h : ∀ index, .backreference index ∉ n.nodes) : n.Planned := by
  induction n with
  | char c =>
    refine fun σ => ⟨_, σ, plan_char_iff.2 ⟨rfl, rfl⟩, fun cap => Plan.produces_texts fun w => ?_⟩
    rw [Node.language]
    exact List.mem_singleton
  | charClass k =>
    refine fun σ => ⟨_, σ, plan_charClass_iff.2 ⟨rfl, rfl⟩,
      fun cap => Plan.produces_texts fun w => ?_⟩
    rw [Node.language]
    show _ ↔ ∃ c ∈ k.resolve, w = [c]
    simp only [List.mem_map, eq_comm]
    rfl
  | anchor a =>
    refine fun σ => ⟨_, σ, plan_anchor_iff.2 ⟨rfl, rfl⟩, fun cap => Plan.produces_texts fun w => ?_⟩
    rw [Node.language, Language.mem_one, List.mem_singleton]
  | backreference index => exact absurd (Node.self_mem_nodes _) (h index)
  | group kind branches ih =>
    refine planned_group fun b hb n hn => ih b hb n hn fun index hi => h index ?_
    exact List.mem_cons_of_mem _ (mem_branchesNodes_of_mem hb hn hi)
  | marked min max body ih =>
    intro σ
    have hbody : ∀ index, .backreference index ∉ body.nodes := fun index hi =>
      h index (List.mem_cons_of_mem _ (List.mem_cons_of_mem _ hi))
    obtain ⟨b, σ', hb, hproduces⟩ := ih hbody σ
    refine ⟨_, σ', plan_marked_iff.2 ⟨b, hb, rfl⟩, fun cap => ?_⟩
    rw [Node.language]
    exact Plan.produces_times (hproduces cap)
  | repetition min max body hm ih =>
    intro σ
    have hbody : ∀ index, .backreference index ∉ body.nodes := fun index hi =>
      h index (List.mem_cons_of_mem _ hi)
    obtain ⟨b, σ', hb, hproduces⟩ := ih hbody σ
    refine ⟨_, σ', (plan_repetition_iff hm).2 ⟨b, hb, rfl⟩, fun cap => ?_⟩
    rw [Node.language]
    · exact Plan.produces_times (hproduces cap)
    · exact hm

/-- **A tree without backreferences has a plan for its language.** -/
theorem Tree.exists_plan {tree : Tree} (h : ∀ index, .backreference index ∉ tree.nodes) :
    ∃ p, tree.plan = .ok p ∧ ∀ cap : Nat, p.Produces cap (tree.language cap) := by
  have hnodes : ∀ b ∈ tree.branches, ∀ n ∈ b, n.Planned := by
    intro b hb n hn
    exact Node.planned fun index hi => h index (mem_branchesNodes_of_mem hb hn hi)
  obtain ⟨ps, σ', hps, hiff⟩ := exists_planBranches hnodes [] (.start tree.captures)
  refine ⟨_, Tree.plan_eq_ok_iff.2 ⟨ps, σ', hps, rfl⟩, fun cap env w => ?_⟩
  rw [Plan.exists_shows_ofBranches_iff, Tree.language]
  simpa using hiff cap env w

end SequenceConstraint
