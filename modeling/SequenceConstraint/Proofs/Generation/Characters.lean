import SequenceConstraint.Proofs.Generation.Planning

/-!
# Characters of generated texts

A text that a plan shows is put together from the texts that stand in the plan: an echo repeats
what a part has shown, and a repetition shows its body again. So no character comes from elsewhere,
and those of a plan come from the characters and the classes of its tree.

Among the groups that a part sees are texts of other parts. A condition on characters is therefore
carried through all states together with the groups: where the groups satisfy it, so does what a
part shows, and so do the groups that it adds (`Snapshot.Over`).

## Main statements

* `Plan.run_over` — the texts of a plan are over its letters
* `Node.plansOver` — the letters of a plan are taken by nodes of its tree
* `Tree.exists_takes` — so are the characters of all generated texts
-/

namespace SequenceConstraint

/-! ## Conditions on characters -/

/-- Whether the texts of some groups consist of characters that satisfy a condition. -/
def Bindings.Over (ok : Char → Prop) (env : Bindings) : Prop := ∀ g ∈ env, ∀ c ∈ g.2, ok c

/-- Whether a text and the groups in it consist of such characters. -/
structure Shown.Over (ok : Char → Prop) (r : Shown) : Prop where
  text : ∀ c ∈ r.text, ok c
  groups : Bindings.Over ok r.groups

/-- Whether a snapshot shows such characters among groups with such characters. -/
def Snapshot.Over (ok : Char → Prop) (s : Snapshot) : Prop :=
  ∀ env, Bindings.Over ok env → (s env).Over ok

section Over

variable {ok : Char → Prop} {env groups : Bindings}

theorem Bindings.over_nil : Bindings.Over ok [] := fun _ hg => absurd hg List.not_mem_nil

theorem Bindings.Over.append (hgroups : groups.Over ok) (henv : env.Over ok) :
    Bindings.Over ok (groups ++ env) :=
  fun g hg => (List.mem_append.1 hg).elim (hgroups g) (henv g)

theorem Bindings.Over.text (h : env.Over ok) (name : Nat) : ∀ c ∈ env.text name, ok c := by
  unfold Bindings.text
  induction env with
  | nil => exact fun c hc => absurd hc List.not_mem_nil
  | cons g env ih =>
    obtain ⟨hg, henv⟩ := List.forall_mem_cons.1 h
    rw [List.lookup_cons]
    split
    · exact hg
    · exact ih henv

namespace Snapshot

variable {s t : Snapshot}

theorem over_const {text : List Char} (h : ∀ c ∈ text, ok c) : (const text).Over ok :=
  fun _ _ => ⟨h, Bindings.over_nil⟩

theorem over_empty : Snapshot.empty.Over ok := over_const fun _ hc => absurd hc List.not_mem_nil

theorem over_echo (name : Nat) : (echo name).Over ok :=
  fun _ henv => ⟨henv.text name, Bindings.over_nil⟩

theorem Over.beside (hs : s.Over ok) (ht : t.Over ok) : (s.beside t).Over ok := by
  intro env henv
  have hleft := hs env henv
  have hright := ht _ (hleft.groups.append henv)
  exact ⟨fun c hc => (List.mem_append.1 hc).elim (hleft.text c) (hright.text c),
    hright.groups.append hleft.groups⟩

theorem Over.named (name : Nat) (h : s.Over ok) : (s.named name).Over ok := by
  intro env henv
  have hbody := h env henv
  exact ⟨hbody.text, List.forall_mem_cons.2 ⟨hbody.text, hbody.groups⟩⟩

/-- Whether a scope adds only groups with such characters. -/
def Scope.Over (ok : Char → Prop) (scope : Scope) : Prop :=
  ∀ env, Bindings.Over ok env → Bindings.Over ok (scope env)

theorem Over.within {scope : Scope} (hscope : scope.Over ok) (h : s.Over ok) :
    (s.within scope).Over ok :=
  fun env henv => h _ (hscope env henv)

theorem Scope.Over.extend {scope : Scope} (hscope : scope.Over ok) (h : s.Over ok) :
    Scope.Over ok (Snapshot.extend scope s) :=
  fun env henv => (h _ (hscope env henv)).groups.append (hscope env henv)

end Snapshot

end Over

/-! ## Letters of a plan -/

mutual

/-- The characters of the texts that stand in a plan. -/
def Plan.letters : Plan → List Char
  | .texts values => values.flatten
  | .concat parts => partsLetters parts
  | .choice branches => partsLetters branches
  | .times _ _ body => body.letters
  | .echo _ => []
  | .named _ body => body.letters

def partsLetters : List Plan → List Char
  | [] => []
  | p :: ps => p.letters ++ partsLetters ps

end

theorem forall_partsLetters {ok : Char → Prop} {ps : List Plan} :
    (∀ c ∈ partsLetters ps, ok c) ↔ ∀ p ∈ ps, ∀ c ∈ p.letters, ok c := by
  induction ps with
  | nil => simp [partsLetters]
  | cons p ps ih => rw [partsLetters, List.forall_mem_append, ih, List.forall_mem_cons]

namespace Plan

open Snapshot

variable {cap : Nat} {ok : Char → Prop} {env : Bindings}

theorem initials_over {parts : List Plan} (h : ∀ p ∈ parts, p.initial.Over ok) :
    (initials parts).Over ok := by
  induction parts with
  | nil => exact over_empty
  | cons p ps ih =>
    obtain ⟨hp, hps⟩ := List.forall_mem_cons.1 h
    exact hp.beside (ih hps)

theorem initial_over {p : Plan} (h : ∀ c ∈ p.letters, ok c) : p.initial.Over ok := by
  induction p with
  | texts values =>
    cases values with
    | nil => exact over_empty
    | cons v values => exact over_const fun c hc => h c (List.mem_append_left _ hc)
  | concat parts ih =>
    have hparts := forall_partsLetters.1 h
    exact initials_over fun p hp => ih p hp (hparts p hp)
  | choice branches ih =>
    cases branches with
    | nil => exact over_empty
    | cons p ps => exact ih p List.mem_cons_self (forall_partsLetters.1 h p List.mem_cons_self)
  | times min max body ih => exact over_empty
  | echo name => exact over_echo name
  | named name body ih => exact (ih h).named name

namespace Repeats

variable {r : Repeats}

theorem groupsOf_over {s : Option Snapshot} (h : ∀ x, s = some x → x.Over ok)
    (henv : env.Over ok) : Bindings.Over ok (groupsOf s env) := by
  cases s with
  | none => exact Bindings.over_nil
  | some x => exact (h x rfl env henv).groups

theorem run_over {min limit : Nat} (hstates : ∀ x ∈ r.states, x.Over ok)
    (htexts : ∀ t ∈ r.texts, ∀ c ∈ t, ok c) (hlast : r.last.Over ok) :
    (r.run min limit).Each (Over ok) := by
  have htext : ∀ i, ∀ c ∈ r.text i, ok c := by
    intro i c hc
    unfold Repeats.text at hc
    cases hi : r.texts[i]? with
    | none => simp [hi] at hc
    | some t =>
      rw [hi] at hc
      exact htexts t (Array.mem_of_getElem? hi) c hc
  have hrepeated : ∀ count, ∀ c ∈ (List.replicate count (r.text 0)).flatten, ok c := by
    intro count c hc
    obtain ⟨t, ht, hc⟩ := List.mem_flatten.1 hc
    rw [List.eq_of_mem_replicate ht] at hc
    exact htext 0 c hc
  refine each_run over_empty (fun count i env henv => ⟨fun c hc => ?_, ?_⟩) ?_
    fun env henv => ⟨hrepeated min, (hlast env henv).groups⟩
  · obtain ⟨d, -, hc⟩ := List.mem_flatMap.1 hc
    exact htext d c hc
  · refine groupsOf_over (fun x hx => ?_) henv
    obtain ⟨d, -, hd⟩ := Option.bind_eq_some_iff.1 hx
    exact hstates x (Array.mem_of_getElem? hd)
  · unfold exhausted
    split
    · exact over_empty
    · refine fun env henv => ⟨hrepeated limit, groupsOf_over (fun x hx => ?_) henv⟩
      rw [Array.back?_eq_getElem?] at hx
      exact hstates x (Array.mem_of_getElem? hx)

end Repeats

theorem runParts_over {parts : List Plan}
    (h : ∀ p ∈ parts, ∀ env, env.Over ok → (p.run cap env).Each (Over ok)) (henv : env.Over ok) :
    (runParts cap parts env).Each (Over ok) := by
  induction parts generalizing env with
  | nil =>
    refine Run.each_ofList over_empty fun x hx => ?_
    rw [List.mem_singleton.1 hx]
    exact over_empty
  | cons p ps ih =>
    obtain ⟨hp, hps⟩ := List.forall_mem_cons.1 h
    exact (hp env henv).cross (fun s hs => ih hps ((hs env henv).groups.append henv)) over_empty
      fun s t hs ht => hs.beside ht

theorem stalledParts_over {parts : List Plan} (hletters : ∀ p ∈ parts, ∀ c ∈ p.letters, ok c)
    (h : ∀ p ∈ parts, ∀ env, env.Over ok → (p.run cap env).Each (Over ok)) (henv : env.Over ok) :
    (stalledParts cap parts env).Over ok := by
  induction parts generalizing env with
  | nil => exact over_empty
  | cons p ps ih =>
    obtain ⟨hp, hps⟩ := List.forall_mem_cons.1 h
    obtain ⟨-, hletters⟩ := List.forall_mem_cons.1 hletters
    have hp := hp env henv
    rw [stalledParts]
    split
    · rename_i s hs
      rw [hs] at hp
      exact Over.beside hp (initials_over fun q hq => initial_over (hletters q hq))
    · rename_i s rest hs
      rw [hs] at hp
      exact hp.1.beside (ih hletters hps ((hp.1 env henv).groups.append henv))

theorem runBranches_over {branches : List Plan} {scope : Scope}
    (h : ∀ p ∈ branches, ∀ env, env.Over ok → (p.run cap env).Each (Over ok))
    (henv : env.Over ok) (hscope : scope.Over ok) (seen : Std.TreeSet (List Char) compare)
    {last : Snapshot} (hlast : last.Over ok) :
    (runBranches cap branches env scope seen last).Each (Over ok) := by
  induction branches generalizing scope seen last with
  | nil => exact hlast
  | cons p ps ih =>
    obtain ⟨hp, hps⟩ := List.forall_mem_cons.1 h
    refine (hp _ (hscope env henv)).unseenThen (fun s hs => hs.within hscope) fun seen s hs => ?_
    exact ih hps (hscope.extend hs) _ (hs.within hscope)

/-- **The texts of a plan are over its letters,** in every state and in the one it is left in. -/
theorem run_over {p : Plan} (h : ∀ c ∈ p.letters, ok c) (henv : env.Over ok) :
    (p.run cap env).Each (Over ok) := by
  induction p generalizing env with
  | texts values =>
    refine Run.each_ofList over_empty fun x hx => ?_
    obtain ⟨v, hv, rfl⟩ := List.mem_map.1 hx
    exact over_const fun c hc => h c (List.mem_flatten.2 ⟨v, hv, hc⟩)
  | concat parts ih =>
    have hparts := forall_partsLetters.1 h
    have hruns : ∀ p ∈ parts, ∀ env, env.Over ok → (p.run cap env).Each (Over ok) :=
      fun p hp env henv => ih p hp (hparts p hp) henv
    rw [run]
    split
    · exact runParts_over hruns henv
    · exact stalledParts_over hparts hruns henv
  | choice branches ih =>
    have hbranches := forall_partsLetters.1 h
    exact runBranches_over (fun p hp env henv => ih p hp (hbranches p hp) henv) henv
      (fun _ henv => henv) ∅ over_empty
  | times min max body ih =>
    have hbody := ih h henv
    have hstates : (Repeats.ofRun (body.run cap env) env).states =
        (body.run cap env).toList.toArray := by
      simp [Repeats.ofRun, Run.collect_eq]
    have htexts : (Repeats.ofRun (body.run cap env) env).texts =
        ((body.run cap env).toList.map fun s => (s env).text).toArray := by
      simp [Repeats.ofRun, Run.collect_eq]
    have hlast : (Repeats.ofRun (body.run cap env) env).last = (body.run cap env).last := by
      simp [Repeats.ofRun, Run.collect_eq]
    refine Repeats.run_over (fun x hx => ?_) (fun t ht => ?_) ?_
    · rw [hstates] at hx
      exact hbody.of_mem (List.mem_toArray.1 hx)
    · rw [htexts] at ht
      obtain ⟨x, hx, rfl⟩ := List.mem_map.1 (List.mem_toArray.1 ht)
      exact (hbody.of_mem hx env henv).text
    · rw [hlast]
      exact hbody.last
  | echo name =>
    refine Run.each_ofList (over_echo name) fun x hx => ?_
    rw [List.mem_singleton.1 hx]
    exact over_echo name
  | named name body ih =>
    exact (ih h henv).andThen (fun s hs => hs.named name) fun s hs => hs.named name

end Plan

/-! ## Letters of a tree -/

/-- Whether a node takes a character by itself: it is that character, or a class with it. -/
def Node.Takes (c : Char) : Node → Prop
  | .char d => d = c
  | .charClass k => k.accepts c = true
  | _ => False

instance (c : Char) : DecidablePred (Node.Takes c)
  | .char d => inferInstanceAs (Decidable (d = c))
  | .charClass k => inferInstanceAs (Decidable (k.accepts c = true))
  | .anchor _ => .isFalse id
  | .backreference _ => .isFalse id
  | .group _ _ => .isFalse id
  | .repetition _ _ _ => .isFalse id

section Letters

variable {σ σ' : Naming} {ps : List Plan} {ok : Char → Prop}

/-- Whether the letters of a node's plan satisfy a condition, however its groups are named. -/
def Node.PlansOver (ok : Char → Prop) (n : Node) : Prop :=
  ∀ σ p σ', n.plan σ = .ok (p, σ') → ∀ c ∈ p.letters, ok c

theorem planBranch_over {branch : Branch} (h : ∀ n ∈ branch, n.PlansOver ok)
    (hp : planBranch branch σ = .ok (ps, σ')) : ∀ c ∈ partsLetters ps, ok c := by
  induction branch generalizing σ ps with
  | nil =>
    obtain ⟨rfl, rfl⟩ := planBranch_nil_iff.1 hp
    simp [partsLetters]
  | cons n ns ih =>
    obtain ⟨hn, hns⟩ := List.forall_mem_cons.1 h
    by_cases hlook : n.isLookahead = true
    · rw [planBranch_skip hlook] at hp
      exact ih hns hp
    · obtain ⟨p, σ₁, rest, hfirst, hrest, rfl⟩ :=
        (planBranch_cons_iff (Bool.eq_false_iff.2 hlook)).1 hp
      rw [partsLetters, List.forall_mem_append]
      exact ⟨hn σ p σ₁ hfirst, ih hns hrest⟩

theorem planBranches_over {branches : List (List Node)} {seen : List Branch}
    (h : ∀ b ∈ branches, ∀ n ∈ b, n.PlansOver ok)
    (hp : planBranches seen branches σ = .ok (ps, σ')) : ∀ c ∈ partsLetters ps, ok c := by
  induction branches generalizing σ ps seen with
  | nil =>
    obtain ⟨rfl, rfl⟩ := planBranches_nil_iff.1 hp
    simp [partsLetters]
  | cons b bs ih =>
    obtain ⟨hb, hbs⟩ := List.forall_mem_cons.1 h
    by_cases hseen : takingNodes b ∈ seen
    · rw [planBranches_skip hseen] at hp
      exact ih hbs hp
    · obtain ⟨parts, σ₁, rest, hparts, hrest, rfl⟩ := (planBranches_cons_iff hseen).1 hp
      rw [partsLetters, List.forall_mem_append]
      exact ⟨planBranch_over hb hparts, ih hbs hrest⟩

theorem letters_ofBranches (ps : List Plan) : (Plan.ofBranches ps).letters = partsLetters ps := by
  unfold Plan.ofBranches
  split
  · simp [partsLetters]
  · rfl

theorem letters_close (kind : GroupKind) (body : Plan) (σ : Naming) :
    (kind.close body σ).1.letters = body.letters := by
  cases kind with
  | capture index =>
    show (σ.record index body).1.letters = body.letters
    unfold Naming.record
    split <;> rfl
  | plain => rfl
  | lookahead negative => rfl

/-- **The letters of a node's plan are taken by nodes in it.** -/
theorem Node.plansOver (n : Node) (h : ∀ m ∈ n.nodes, ∀ c, m.Takes c → ok c) : n.PlansOver ok := by
  induction n with
  | char d =>
    intro σ p σ' hp
    obtain ⟨rfl, rfl⟩ := plan_char_iff.1 hp
    intro c hc
    obtain rfl : c = d := by simpa [Plan.letters] using hc
    exact h _ (Node.self_mem_nodes _) c rfl
  | charClass k =>
    intro σ p σ' hp
    obtain ⟨rfl, rfl⟩ := plan_charClass_iff.1 hp
    intro c hc
    have hc : c ∈ k.resolve.toList := by simpa [Plan.letters] using hc
    exact h _ (Node.self_mem_nodes _) c (CharClass.mem_resolve.1 hc)
  | anchor a =>
    intro σ p σ' hp
    obtain ⟨rfl, rfl⟩ := plan_anchor_iff.1 hp
    simp [Plan.letters]
  | backreference index =>
    intro σ p σ' hp
    obtain ⟨name, -, rfl, rfl⟩ := plan_backreference_iff.1 hp
    simp [Plan.letters]
  | group kind branches ih =>
    intro σ p σ' hp
    obtain ⟨ps, σ₁, hps, hclose⟩ := plan_group_iff.1 hp
    have hp : p = (kind.close (Plan.ofBranches ps) σ₁).1 := congrArg Prod.fst hclose
    rw [hp, letters_close, letters_ofBranches]
    refine planBranches_over (fun b hb n hn => ih b hb n hn fun m hm => ?_) hps
    exact h m (List.mem_cons_of_mem _ (mem_branchesNodes_of_mem hb hn hm))
  | marked min max body ih =>
    intro σ p σ' hp
    obtain ⟨b, hb, rfl⟩ := plan_marked_iff.1 hp
    exact ih (fun m hm => h m (List.mem_cons_of_mem _ (List.mem_cons_of_mem _ hm))) σ b σ' hb
  | repetition min max body hm ih =>
    intro σ p σ' hp
    obtain ⟨b, hb, rfl⟩ := (plan_repetition_iff hm).1 hp
    exact ih (fun m hm => h m (List.mem_cons_of_mem _ hm)) σ b σ' hb

/-- **The characters of a generated text are taken by nodes of the tree.** -/
theorem Tree.exists_takes {tree : Tree} {plan : Plan} (hplan : tree.plan = .ok plan) {cap : Nat}
    {state : Snapshot} (hstate : state ∈ (plan.run cap []).toList) :
    ∀ c ∈ (state []).text, ∃ n ∈ tree.nodes, n.Takes c := by
  obtain ⟨ps, σ, hps, rfl⟩ := Tree.plan_eq_ok_iff.1 hplan
  have hletters : ∀ c ∈ (Plan.ofBranches ps).letters, ∃ n ∈ tree.nodes, n.Takes c := by
    rw [letters_ofBranches]
    refine planBranches_over (fun b hb n hn => n.plansOver fun m hm c hc => ?_) hps
    exact ⟨m, mem_branchesNodes_of_mem hb hn hm, hc⟩
  exact ((Plan.run_over hletters Bindings.over_nil).of_mem hstate [] Bindings.over_nil).text

end Letters

end SequenceConstraint
