import SequenceConstraint.Proofs.Generation.Shows
import SequenceConstraint.Proofs.Syntax.Nodes

/-!
# Names of groups

A plan binds its own names and no others, in every state it goes through and in the one it is left
in. When a tree is planned, each group gets a name that no group before it has, so what a part of a
tree binds does not touch what an echo outside of it looks for.

## Main statements

* `Plan.run_binds` — a plan binds its own names
* `Naming.Extends` — a naming that has gone on
-/

namespace SequenceConstraint

/-! ## All states of a run -/

namespace Run

variable {α β γ : Type} {p : α → Prop} {q : β → Prop}

/-- A condition on all values of a run and on its last value. -/
def Each (p : α → Prop) : Run α → Prop
  | done a => p a
  | yield a rest => p a ∧ Each p (rest ())

theorem Each.of_mem {r : Run α} (h : r.Each p) {a : α} (ha : a ∈ r.toList) : p a := by
  induction r with
  | done b => cases ha
  | yield b rest ih =>
    rcases List.mem_cons.1 ha with rfl | ha
    · exact h.1
    · exact ih () h.2 ha

theorem Each.last {r : Run α} (h : r.Each p) : p r.last := by
  induction r with
  | done b => exact h
  | yield b rest ih => exact ih () h.2

theorem Each.mono {p' : α → Prop} {r : Run α} (h : r.Each p) (hp : ∀ a, p a → p' a) :
    r.Each p' := by
  induction r with
  | done a => exact hp a h
  | yield a rest ih => exact ⟨hp a h.1, ih () h.2⟩

theorem each_ofList {last : α} {as : List α} (hlast : p last) (h : ∀ a ∈ as, p a) :
    (ofList last as).Each p := by
  induction as with
  | nil => exact hlast
  | cons a as ih =>
    obtain ⟨ha, has⟩ := List.forall_mem_cons.1 h
    exact ⟨ha, ih has⟩

theorem Each.andThen {f : α → β} {next : α → Run β} {r : Run α} (h : r.Each p)
    (hf : ∀ a, p a → q (f a)) (hnext : ∀ a, p a → (next a).Each q) : (r.andThen f next).Each q := by
  induction r with
  | done a => exact hnext a h
  | yield a rest ih => exact ⟨hf a h.1, ih () h.2⟩

theorem Each.cross {c : γ → Prop} {join : α → β → γ} {right : α → Run β} {before : β} {r : Run α}
    (h : r.Each p) (hright : ∀ a, p a → (right a).Each q) (hbefore : q before)
    (hjoin : ∀ a b, p a → q b → c (join a b)) : (r.cross join right before).Each c := by
  induction r generalizing before with
  | done a => exact hjoin a before h hbefore
  | yield a rest ih =>
    exact (hright a h.1).andThen (fun b hb => hjoin a b h.1 hb) fun b hb => ih () h.2 hb

theorem Each.unseenThen {κ : Type} [Ord κ] {key : α → κ} {f : α → β}
    {next : Std.TreeSet κ compare → α → Run β} {seen : Std.TreeSet κ compare} {r : Run α}
    (h : r.Each p) (hf : ∀ a, p a → q (f a)) (hnext : ∀ seen a, p a → (next seen a).Each q) :
    (r.unseenThen key f next seen).Each q := by
  induction r generalizing seen with
  | done a => exact hnext seen a h
  | yield a rest ih =>
    rw [Run.unseenThen]
    split
    · exact ih () h.2
    · exact ⟨hf a h.1, ih () h.2⟩

theorem each_counting {f : Nat → α} {next : Unit → Run α} {count i : Nat} (hf : ∀ i, p (f i))
    (hnext : (next ()).Each p) : (counting f next count i).Each p := by
  induction count generalizing i with
  | zero => exact hnext
  | succ count ih => exact ⟨hf i, ih⟩

end Run

/-! ## Names that are bound -/

/-- Whether all groups that a snapshot shows have one of some names. -/
def Snapshot.Binds (names : List Nat) (s : Snapshot) : Prop :=
  ∀ env, ∀ g ∈ (s env).groups, g.1 ∈ names

mutual

/-- The names that a plan gives. -/
def Plan.names : Plan → List Nat
  | .texts _ => []
  | .concat parts => partsNames parts
  | .choice branches => partsNames branches
  | .times _ _ body => body.names
  | .echo _ => []
  | .named name body => name :: body.names

def partsNames : List Plan → List Nat
  | [] => []
  | p :: ps => p.names ++ partsNames ps

end

namespace Snapshot

variable {names names' : List Nat} {s t : Snapshot}

theorem binds_const (text : List Char) : (const text).Binds names := by
  intro env g hg
  cases hg

theorem Binds.mono (h : s.Binds names) (hsub : ∀ n ∈ names, n ∈ names') : s.Binds names' :=
  fun env g hg => hsub g.1 (h env g hg)

theorem Binds.beside (hs : s.Binds names) (ht : t.Binds names') :
    (s.beside t).Binds (names ++ names') := by
  intro env g hg
  rcases List.mem_append.1 hg with hg | hg
  · exact List.mem_append_right names (ht _ g hg)
  · exact List.mem_append_left names' (hs env g hg)

theorem Binds.named (name : Nat) (h : s.Binds names) : (s.named name).Binds (name :: names) := by
  intro env g hg
  rcases List.mem_cons.1 hg with rfl | hg
  · exact List.mem_cons_self
  · exact List.mem_cons_of_mem name (h env g hg)

theorem Binds.within (scope : Scope) (h : s.Binds names) : (s.within scope).Binds names :=
  fun env g hg => h (scope env) g hg

end Snapshot

namespace Plan

open Snapshot

variable {cap : Nat}

theorem initials_binds {parts : List Plan} (h : ∀ p ∈ parts, p.initial.Binds p.names) :
    (initials parts).Binds (partsNames parts) := by
  induction parts with
  | nil => exact binds_const []
  | cons p ps ih =>
    obtain ⟨hp, hps⟩ := List.forall_mem_cons.1 h
    exact hp.beside (ih hps)

theorem initial_binds (p : Plan) : p.initial.Binds p.names := by
  induction p with
  | texts values => exact binds_const _
  | concat parts ih => exact initials_binds ih
  | choice branches ih =>
    cases branches with
    | nil => exact binds_const []
    | cons p ps => exact (ih p List.mem_cons_self).mono fun n hn => List.mem_append_left _ hn
  | times min max body ih => exact binds_const []
  | echo name =>
    intro env g hg
    cases hg
  | named name body ih => exact ih.named name

namespace Repeats

variable {r : Repeats} {names : List Nat}

theorem groupsOf_binds {s : Option Snapshot} (h : ∀ x, s = some x → x.Binds names)
    (env : Bindings) : ∀ g ∈ groupsOf s env, g.1 ∈ names := by
  cases s with
  | none =>
    intro g hg
    cases hg
  | some x => exact h x rfl env

/-- **The words of a repetition are its states;** what it is left with is one of three snapshots
more. -/
theorem each_run {q : Snapshot → Prop} {min limit : Nat} (hempty : q Snapshot.empty)
    (hword : ∀ count i, q (r.word count i)) (hexhausted : q (r.exhausted limit))
    (hstalled : q (r.stalled min)) : (r.run min limit).Each q := by
  -- the words of one more repeat come after those of fewer
  have hwords : ∀ more count, (r.words limit more count).Each q := by
    intro more
    induction more with
    | zero => exact fun count => Run.each_counting (hword count) hexhausted
    | succ more ih =>
      intro count
      refine Run.each_counting (hword count) ?_
      split
      · exact hempty
      · exact ih (count + 1)
  unfold Repeats.run
  split
  · exact hstalled
  · exact hwords _ _

theorem run_each {min limit : Nat} (hstates : ∀ x ∈ r.states, x.Binds names)
    (hlast : r.last.Binds names) : (r.run min limit).Each (Binds names) := by
  refine each_run (binds_const []) (fun count i env => ?_) ?_ fun env => hlast env
  · refine groupsOf_binds (fun x hx => ?_) env
    obtain ⟨d, -, hd⟩ := Option.bind_eq_some_iff.1 hx
    exact hstates x (Array.mem_of_getElem? hd)
  · unfold exhausted
    split
    · exact binds_const []
    · intro env
      refine groupsOf_binds (fun x hx => ?_) env
      rw [Array.back?_eq_getElem?] at hx
      exact hstates x (Array.mem_of_getElem? hx)

end Repeats

theorem runParts_each {parts : List Plan}
    (h : ∀ p ∈ parts, ∀ env, (p.run cap env).Each (Binds p.names)) (env : Bindings) :
    (runParts cap parts env).Each (Binds (partsNames parts)) := by
  induction parts generalizing env with
  | nil =>
    refine Run.each_ofList (binds_const []) fun x hx => ?_
    rw [List.mem_singleton.1 hx]
    exact binds_const []
  | cons p ps ih =>
    obtain ⟨hp, hps⟩ := List.forall_mem_cons.1 h
    exact (hp env).cross (fun s _ => ih hps _) (binds_const []) fun s t hs ht => hs.beside ht

theorem stalledParts_binds {parts : List Plan}
    (h : ∀ p ∈ parts, ∀ env, (p.run cap env).Each (Binds p.names)) (env : Bindings) :
    (stalledParts cap parts env).Binds (partsNames parts) := by
  induction parts generalizing env with
  | nil => exact binds_const []
  | cons p ps ih =>
    obtain ⟨hp, hps⟩ := List.forall_mem_cons.1 h
    have hp := hp env
    rw [stalledParts]
    split
    · rename_i s hs
      rw [hs] at hp
      exact Binds.beside hp (initials_binds fun q _ => initial_binds q)
    · rename_i s rest hs
      rw [hs] at hp
      exact hp.1.beside (ih hps _)

theorem runBranches_each {branches : List Plan} {names : List Nat}
    (h : ∀ p ∈ branches, ∀ env, (p.run cap env).Each (Binds names)) (env : Bindings)
    (scope : Scope) (seen : Std.TreeSet (List Char) compare) {last : Snapshot}
    (hlast : last.Binds names) :
    (runBranches cap branches env scope seen last).Each (Binds names) := by
  induction branches generalizing scope seen last with
  | nil => exact hlast
  | cons p ps ih =>
    obtain ⟨hp, hps⟩ := List.forall_mem_cons.1 h
    refine (hp (scope env)).unseenThen (fun s hs => hs.within scope) fun seen s hs => ?_
    exact ih hps _ _ (hs.within scope)

theorem names_subset_partsNames {p : Plan} {ps : List Plan} (h : p ∈ ps) :
    ∀ n ∈ p.names, n ∈ partsNames ps := by
  induction ps with
  | nil => cases h
  | cons q ps ih =>
    intro n hn
    rcases List.mem_cons.1 h with rfl | h
    · exact List.mem_append_left _ hn
    · exact List.mem_append_right _ (ih h n hn)

/-- **A plan binds its own names,** in every state and in the one it is left in. -/
theorem run_binds (p : Plan) (env : Bindings) : (p.run cap env).Each (Binds p.names) := by
  induction p generalizing env with
  | texts values =>
    refine Run.each_ofList (binds_const []) fun x hx => ?_
    obtain ⟨v, -, rfl⟩ := List.mem_map.1 hx
    exact binds_const v
  | concat parts ih =>
    rw [run]
    split
    · exact runParts_each ih env
    · exact stalledParts_binds ih env
  | choice branches ih =>
    refine runBranches_each (fun p hp env => ?_) env id ∅ (binds_const [])
    exact (ih p hp env).mono fun s hs => hs.mono (names_subset_partsNames hp)
  | times min max body ih =>
    refine Repeats.run_each (fun x hx => ?_) ?_
    · have hmem : x ∈ (body.run cap env).toList := by
        simpa [Repeats.ofRun, Run.collect_eq] using hx
      exact (ih env).of_mem hmem
    · have hlast : (Repeats.ofRun (body.run cap env) env).last = (body.run cap env).last := by
        simp [Repeats.ofRun, Run.collect_eq]
      rw [hlast]
      exact (ih env).last
  | echo name =>
    have hecho : (Snapshot.echo name).Binds [] := by
      intro env g hg
      cases hg
    refine Run.each_ofList hecho fun x hx => ?_
    rw [List.mem_singleton.1 hx]
    exact hecho
  | named name body ih =>
    exact (ih env).andThen (fun s hs => hs.named name) fun s hs => hs.named name

theorem Shows.names {p : Plan} {env : Bindings} {r : Shown} (h : p.Shows cap env r) :
    ∀ g ∈ r.groups, g.1 ∈ p.names := by
  obtain ⟨x, hx, rfl⟩ := h
  exact (run_binds p env).of_mem hx env

theorem leftover_names {p : Plan} {env : Bindings} : ∀ g ∈ p.leftover cap env, g.1 ∈ p.names :=
  (run_binds p env).last env

end Plan

/-! ## Names that are given -/

namespace Naming

/-- Whether every name that is recorded has been given. -/
def Valid (naming : Naming) : Prop :=
  ∀ index name, naming.name? index = some name → name < naming.fresh

theorem valid_start (limit : Nat) : (start limit).Valid := by
  intro index name h
  cases h

theorem name?_record {σ : Naming} {index : Nat} {body : Plan} (h : index ≤ σ.limit) (i : Nat) :
    (σ.record index body).2.name? i = if i = index then some σ.fresh else σ.name? i := by
  unfold record
  rw [if_pos h, name?, List.lookup_cons]
  by_cases hi : i = index
  · rw [if_pos hi, beq_iff_eq.2 hi]
  · rw [if_neg hi, beq_eq_false_iff_ne.2 hi]
    rfl

theorem Valid.record {σ : Naming} {index : Nat} {body : Plan} (h : σ.Valid) :
    (σ.record index body).2.Valid := by
  by_cases hindex : index ≤ σ.limit
  · intro i name hname
    rw [name?_record hindex] at hname
    unfold Naming.record
    rw [if_pos hindex]
    split at hname
    · cases hname
      exact Nat.lt_succ_self _
    · exact Nat.lt_succ_of_lt (h i name hname)
  · unfold Naming.record
    rwa [if_neg hindex]

/-- A naming that has gone on: it has given some fresh names, and recorded some indices anew, under
fresh names and within the limit. -/
structure Extends (indices names : List Nat) (σ σ' : Naming) : Prop where
  limit : σ'.limit = σ.limit
  fresh : σ.fresh ≤ σ'.fresh
  names : ∀ name ∈ names, σ.fresh ≤ name ∧ name < σ'.fresh
  kept : ∀ index, index ∉ indices → σ'.name? index = σ.name? index
  given : ∀ index name, σ'.name? index = some name →
    σ.name? index = some name ∨ (σ.fresh ≤ name ∧ index ≤ σ.limit)
  valid : σ.Valid → σ'.Valid

namespace Extends

variable {indices indices' names names' : List Nat} {σ σ' σ'' : Naming}

theorem refl (σ : Naming) : Extends indices [] σ σ :=
  ⟨rfl, Nat.le_refl _, by simp, fun _ _ => rfl, fun _ _ => .inl, id⟩

theorem trans (h : Extends indices names σ σ') (h' : Extends indices names' σ' σ'') :
    Extends indices (names ++ names') σ σ'' where
  limit := h'.limit.trans h.limit
  fresh := Nat.le_trans h.fresh h'.fresh
  names name hn := by
    have h₁ := h.fresh
    have h₂ := h'.fresh
    rcases List.mem_append.1 hn with hn | hn
    · have := h.names name hn
      omega
    · have := h'.names name hn
      omega
  kept index hi := (h'.kept index hi).trans (h.kept index hi)
  given index name hname := by
    rcases h'.given index name hname with hname | ⟨hfresh, hlimit⟩
    · exact h.given index name hname
    · rw [h.limit] at hlimit
      exact .inr ⟨Nat.le_trans h.fresh hfresh, hlimit⟩
  valid hv := h'.valid (h.valid hv)

theorem mono (h : Extends indices names σ σ') (hi : ∀ i ∈ indices, i ∈ indices') :
    Extends indices' names σ σ' where
  limit := h.limit
  fresh := h.fresh
  names := h.names
  kept index hn := h.kept index fun hm => hn (hi index hm)
  given := h.given
  valid := h.valid

/-- One part of a tree after another. -/
theorem append (h : Extends indices names σ σ') (h' : Extends indices' names' σ' σ'') :
    Extends (indices ++ indices') (names ++ names') σ σ'' :=
  (h.mono fun _ hi => List.mem_append_left indices' hi).trans
    (h'.mono fun _ hi => List.mem_append_right indices hi)

theorem record {index : Nat} {body : Plan} (h : Extends indices body.names σ σ')
    (hi : index ∈ indices) :
    Extends indices (σ'.record index body).1.names σ (σ'.record index body).2 := by
  by_cases hindex : index ≤ σ'.limit
  · refine ⟨?_, ?_, ?_, ?_, ?_, fun hv => (h.valid hv).record⟩
    · rw [Naming.record, if_pos hindex]
      exact h.limit
    · rw [Naming.record, if_pos hindex]
      exact Nat.le_succ_of_le h.fresh
    · rw [Naming.record, if_pos hindex]
      intro name hn
      rcases List.mem_cons.1 hn with rfl | hn
      · exact ⟨h.fresh, Nat.lt_succ_self _⟩
      · exact ⟨(h.names name hn).1, Nat.lt_succ_of_lt (h.names name hn).2⟩
    · intro other ho
      have hne : other ≠ index := fun he => ho (he ▸ hi)
      rw [name?_record hindex, if_neg hne, h.kept other ho]
    · intro other name hname
      rw [name?_record hindex] at hname
      split at hname
      · rename_i he
        cases hname
        rw [he, ← h.limit]
        exact .inr ⟨h.fresh, hindex⟩
      · exact h.given other name hname
  · rw [Naming.record, if_neg hindex]
    exact h

end Extends

end Naming

end SequenceConstraint
