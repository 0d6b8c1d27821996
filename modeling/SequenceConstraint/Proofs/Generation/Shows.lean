import SequenceConstraint.Proofs.Generation.InOrder

/-!
# What a plan shows

A plan goes through its states in an order, and its choices skip texts that have been shown. For
the set of the texts only one thing matters: what the plan can show among the groups that its
surroundings see (`Plan.Shows`), in whatever order. Each kind of plan has a law of its own below, so
that proofs need not look at runs; it is what the law of the order says about membership.

Of the laws, only the one of choices is not exact: a choice shows what one of its branches shows,
but of states with one text it keeps the first.

## Main statements

* `shows_texts`, `shows_concat`, `shows_times`, `shows_echo`, `shows_named` — the exact laws
* `anyShows_of_shows`, `exists_shows_of_anyShows` — the law of choices
* `listing_concat` — parts beside each other in order, whether or not all of them have states
* `Stream.mem_toList_ofPlan` — the texts of a stream are those that its plan shows
-/

namespace SequenceConstraint

/-! ## Induction -/

/-- Induction over plans. -/
@[elab_as_elim, induction_eliminator]
theorem Plan.induct {motive : Plan → Prop} (texts : ∀ values, motive (.texts values))
    (concat : ∀ parts, (∀ p ∈ parts, motive p) → motive (.concat parts))
    (choice : ∀ branches, (∀ p ∈ branches, motive p) → motive (.choice branches))
    (times : ∀ min max body, motive body → motive (.times min max body))
    (echo : ∀ name, motive (.echo name))
    (named : ∀ name body, motive body → motive (.named name body)) (p : Plan) : motive p := by
  refine @Plan.rec motive (fun ps => ∀ p ∈ ps, motive p)
    texts concat choice times echo named ?_ ?_ p
  · simp
  · intro p ps hp hps
    simp only [List.forall_mem_cons]
    exact ⟨hp, hps⟩

/-- Values that are all given by a function are given by a list of its arguments. -/
theorem exists_map_eq {α β : Type} {P : α → Prop} {f : α → β} {bs : List β}
    (h : ∀ b ∈ bs, ∃ a, P a ∧ f a = b) : ∃ as : List α, (∀ a ∈ as, P a) ∧ as.map f = bs := by
  induction bs with
  | nil => exact ⟨[], by simp, rfl⟩
  | cons b bs ih =>
    obtain ⟨hb, hbs⟩ := List.forall_mem_cons.1 h
    obtain ⟨a, ha, rfl⟩ := hb
    obtain ⟨as, has, rfl⟩ := ih hbs
    exact ⟨a :: as, List.forall_mem_cons.2 ⟨ha, has⟩, rfl⟩

namespace Plan

open Snapshot

/-! ## What a plan shows -/

/-- Whether a plan has a state that shows a text and groups, among the groups `env`. -/
def Shows (cap : Nat) (env : Bindings) (p : Plan) (r : Shown) : Prop :=
  ∃ x ∈ (p.run cap env).toList, x env = r

/-- Whether one of some branches shows a text and groups. A branch sees what the branches before
it have left. -/
def AnyShows (cap : Nat) : Bindings → List Plan → Shown → Prop
  | _, [], _ => False
  | env, p :: ps, r => p.Shows cap env r ∨ AnyShows cap (p.leftover cap env ++ env) ps r

section Laws

variable {cap : Nat} {env : Bindings} {r : Shown}

theorem mem_listing {p : Plan} : r ∈ p.listing cap env ↔ p.Shows cap env r :=
  List.mem_map

theorem shows_texts {values : List (List Char)} :
    (texts values).Shows cap env r ↔ ∃ v ∈ values, r = ⟨v, []⟩ := by
  rw [← mem_listing, listing_texts, List.mem_map]
  simp only [eq_comm]

theorem shows_echo {name : Nat} : (echo name).Shows cap env r ↔ r = ⟨env.text name, []⟩ := by
  rw [← mem_listing, listing_echo, List.mem_singleton]

theorem shows_named {name : Nat} {body : Plan} :
    (named name body).Shows cap env r ↔
      ∃ b, body.Shows cap env b ∧ r = ⟨b.text, (name, b.text) :: b.groups⟩ := by
  rw [← mem_listing, listing_named, List.mem_map]
  simp only [mem_listing, eq_comm]

/-- **A repetition shows the words of any number of repeats within its bounds.** -/
theorem shows_times {min : Nat} {max : Option Nat} {body : Plan} :
    (times min max body).Shows cap env r ↔
      ∃ rs : List Shown, (∀ b ∈ rs, body.Shows cap env b) ∧ min ≤ rs.length ∧
        rs.length ≤ limit cap min max ∧ r = ofRepeats rs := by
  rw [← mem_listing, listing_times, mem_repeated]
  simp only [mem_listing]

/-! ### Choices -/

theorem anyShows_iff {branches : List Plan} :
    AnyShows cap env branches r ↔ r ∈ (branchListings cap env branches).flatten := by
  induction branches generalizing env with
  | nil => simp [AnyShows, branchListings]
  | cons p ps ih =>
    rw [AnyShows, branchListings, List.flatten_cons, List.mem_append, mem_listing, ih]

/-- A choice shows what one of its branches shows. -/
theorem anyShows_of_shows {branches : List Plan} (h : (choice branches).Shows cap env r) :
    AnyShows cap env branches r := by
  rw [← mem_listing, listing_choice] at h
  exact anyShows_iff.2 (mem_of_mem_keepFirst h)

/-- **A choice shows each text of each of its branches.** -/
theorem exists_shows_of_anyShows {branches : List Plan} (h : AnyShows cap env branches r) :
    ∃ r', (choice branches).Shows cap env r' ∧ r'.text = r.text := by
  have hkept : r.text ∈ [] ∨ ∃ r' ∈ (choice branches).listing cap env, r'.text = r.text := by
    rw [listing_choice]
    exact exists_mem_keepFirst (anyShows_iff.1 h)
  obtain ⟨r', hr', htext⟩ := hkept.resolve_left List.not_mem_nil
  rw [mem_listing] at hr'
  exact ⟨r', hr', htext⟩

/-! ### Parts beside each other -/

/-- Whether parts beside each other show a text and groups. -/
def PartsShow (cap : Nat) : Bindings → List Plan → Shown → Prop
  | _, [], r => r = ⟨[], []⟩
  | env, p :: ps, r =>
    ∃ a b, p.Shows cap env a ∧ PartsShow cap (a.groups ++ env) ps b ∧
      r = ⟨a.text ++ b.text, b.groups ++ a.groups⟩

theorem partsShow_iff {parts : List Plan} :
    PartsShow cap env parts r ↔ r ∈ partsListing cap env parts := by
  induction parts generalizing env r with
  | nil => rw [PartsShow, partsListing, List.mem_singleton]
  | cons p ps ih =>
    simp only [PartsShow, partsListing, List.mem_flatMap, List.mem_map, mem_listing, ih]
    constructor
    · rintro ⟨a, b, ha, hb, rfl⟩
      exact ⟨a, ha, b, hb, rfl⟩
    · rintro ⟨a, ha, b, hb, rfl⟩
      exact ⟨a, b, ha, hb, rfl⟩

theorem mem_runParts {parts : List Plan} :
    (∃ x ∈ (runParts cap parts env).toList, x env = r) ↔ PartsShow cap env parts r := by
  rw [partsShow_iff, ← map_runParts, List.mem_map]

/-! ### Whether anything is shown

Parts beside each other are only gone through if all of them have states, and whether a plan has
states does not hang on its surroundings. -/

theorem allProduce_iff {parts : List Plan}
    (h : ∀ p ∈ parts, ∀ env, p.produces cap = true ↔ ∃ r, p.Shows cap env r) (env : Bindings) :
    allProduce cap parts = true ↔ ∃ r, PartsShow cap env parts r := by
  induction parts generalizing env with
  | nil => simp [allProduce, PartsShow]
  | cons p ps ih =>
    obtain ⟨hp, hps⟩ := List.forall_mem_cons.1 h
    rw [allProduce, Bool.and_eq_true, hp env]
    constructor
    · rintro ⟨⟨a, ha⟩, hall⟩
      obtain ⟨b, hb⟩ := (ih hps (a.groups ++ env)).1 hall
      exact ⟨_, a, b, ha, hb, rfl⟩
    · rintro ⟨_, a, b, ha, hb, -⟩
      exact ⟨⟨a, ha⟩, (ih hps (a.groups ++ env)).2 ⟨b, hb⟩⟩

theorem anyProduces_iff {branches : List Plan}
    (h : ∀ p ∈ branches, ∀ env, p.produces cap = true ↔ ∃ r, p.Shows cap env r) (env : Bindings) :
    anyProduces cap branches = true ↔ ∃ r, AnyShows cap env branches r := by
  induction branches generalizing env with
  | nil => simp [anyProduces, AnyShows]
  | cons p ps ih =>
    obtain ⟨hp, hps⟩ := List.forall_mem_cons.1 h
    rw [anyProduces, Bool.or_eq_true, hp env, ih hps (p.leftover cap env ++ env)]
    simp only [AnyShows, exists_or]

theorem shows_concat_of {parts : List Plan}
    (h : ∀ p ∈ parts, ∀ env, p.produces cap = true ↔ ∃ r, p.Shows cap env r) :
    (concat parts).Shows cap env r ↔ PartsShow cap env parts r := by
  rw [Shows, run]
  split
  · exact mem_runParts
  · rename_i hall
    have hnone : ¬∃ r, PartsShow cap env parts r := fun hr => hall ((allProduce_iff h env).2 hr)
    simp only [Run.toList_done, List.not_mem_nil, false_and, exists_false, false_iff]
    exact fun hr => hnone ⟨r, hr⟩

/-- **A plan has states or not, whatever its surroundings.** -/
theorem produces_iff (p : Plan) (env : Bindings) :
    p.produces cap = true ↔ ∃ r, p.Shows cap env r := by
  induction p generalizing env with
  | texts values => cases values <;> simp [produces, shows_texts]
  | concat parts ih =>
    simp only [shows_concat_of ih]
    exact allProduce_iff ih env
  | choice branches ih =>
    rw [produces, anyProduces_iff ih env]
    constructor
    · rintro ⟨r, hr⟩
      obtain ⟨r', hr', -⟩ := exists_shows_of_anyShows hr
      exact ⟨r', hr'⟩
    · rintro ⟨r, hr⟩
      exact ⟨r, anyShows_of_shows hr⟩
  | times min max body ih =>
    rw [produces, Bool.and_eq_true, decide_eq_true_eq, Bool.or_eq_true, beq_iff_eq, ih env]
    simp only [shows_times]
    constructor
    · rintro ⟨hle, rfl | ⟨b, hb⟩⟩
      · exact ⟨_, [], by simp, Nat.le_refl 0, hle, rfl⟩
      · -- as few repeats as possible, all of them the same
        refine ⟨_, List.replicate min b, ?_, ?_, ?_, rfl⟩
        · intro b' hb'
          rw [List.eq_of_mem_replicate hb']
          exact hb
        · exact Nat.le_of_eq List.length_replicate.symm
        · rwa [List.length_replicate]
    · rintro ⟨_, rs, hrs, hmin, hmax, -⟩
      refine ⟨Nat.le_trans hmin hmax, ?_⟩
      cases rs with
      | nil => exact .inl (Nat.le_zero.1 hmin)
      | cons b rs => exact .inr ⟨b, hrs b List.mem_cons_self⟩
  | echo name => simp [produces, shows_echo]
  | named name body ih =>
    rw [produces, ih env]
    simp only [shows_named]
    constructor
    · rintro ⟨b, hb⟩
      exact ⟨_, b, hb, rfl⟩
    · rintro ⟨_, b, hb, -⟩
      exact ⟨b, hb⟩

/-- **Parts beside each other show one text after the other,** each part among the groups of the
parts before it. -/
theorem shows_concat {parts : List Plan} :
    (concat parts).Shows cap env r ↔ PartsShow cap env parts r :=
  shows_concat_of fun p _ => produces_iff p

/-- **Parts beside each other in order:** the rightmost moves fastest. -/
theorem listing_concat (parts : List Plan) :
    (concat parts).listing cap env = partsListing cap env parts := by
  rw [listing, run]
  split
  · exact map_runParts parts env
  · -- one of the parts shows nothing, so there is nothing to go through
    rename_i hall
    symm
    rw [Run.toList_done, List.map_nil, List.eq_nil_iff_forall_not_mem]
    intro r hr
    rw [← map_runParts, List.mem_map] at hr
    exact hall ((allProduce_iff (fun p _ => produces_iff p) env).2 ⟨r, mem_runParts.1 hr⟩)

/-- A lone branch is no choice. -/
theorem anyShows_of_shows_ofBranches {branches : List Plan}
    (h : (ofBranches branches).Shows cap env r) : AnyShows cap env branches r := by
  unfold ofBranches at h
  split at h
  · exact .inl h
  · exact anyShows_of_shows h

theorem exists_shows_ofBranches {branches : List Plan} (h : AnyShows cap env branches r) :
    ∃ r', (ofBranches branches).Shows cap env r' ∧ r'.text = r.text := by
  unfold ofBranches
  split
  · rcases h with h | h
    · exact ⟨r, h, rfl⟩
    · exact h.elim
  · exact exists_shows_of_anyShows h

end Laws

end Plan

/-- The texts of a stream are those that its plan shows. -/
theorem Stream.mem_toList_ofPlan {cap : Nat} {plan : Plan} {w : List Char} :
    w ∈ (Stream.ofPlan cap plan).toList ↔ ∃ r, plan.Shows cap [] r ∧ r.text = w := by
  rw [Stream.toList_ofPlan, List.mem_map]
  constructor
  · rintro ⟨x, hx, rfl⟩
    exact ⟨x [], ⟨x, hx, rfl⟩, rfl⟩
  · rintro ⟨_, ⟨x, hx, rfl⟩, rfl⟩
    exact ⟨x, hx, rfl⟩

end SequenceConstraint
