import SequenceConstraint.Generation.Stream
import SequenceConstraint.Proofs.Odometer.Repeats

/-!
# Odometers and streams

An odometer hands out the texts of the stream of its plan, in whatever state it has been left when
it starts over. A step of the odometer is a step of the stream (`Odometer.Follows.next`), and so are
all calls in a row (`Odometer.Follows.after`).

## Main statements

* `Plan.Placed.runs` — to reset the wheels of a plan brings them to where they stand at its run
* `Odometer.after_nexts` — what an odometer answers, whatever it has been asked before
* `Odometer.exhausts` — there is a number of answers after which no text is left
* `Odometer.restarts` — an odometer that starts over answers like a new one
-/

namespace SequenceConstraint

open Snapshot

/-! ## All plans -/

/-- **To reset the wheels of a plan** brings them to where they stand at its run. -/
theorem Plan.Placed.runs {m : Machine} {cap : Nat} {place : Nat → Nat} {known : List Nat}
    {first : Nat} {p : Plan} (hm : m.Descending) (h : p.Placed m cap place known first) :
    p.Runs m cap place known first := by
  induction p generalizing known first with
  | texts values => exact runs_texts h
  | concat parts ih => exact runs_concat hm (fun p hp _ _ hplaced => ih p hp hplaced) h
  | choice branches ih => exact runs_choice hm (fun p hp _ _ hplaced => ih p hp hplaced) h
  | times min max body ih => exact runs_times hm (ih h.1) h
  | echo name => exact runs_echo h
  | named name body ih => exact runs_named (ih h.2.2.2)

namespace Odometer

/-! ## Steps -/

/-- Whether an odometer of a plan is where a stream of the plan is. -/
structure Follows (cap : Nat) (p : Plan) (o : Odometer) (s : Stream) : Prop where
  machine : o.machine = p.machine cap
  root : o.root = p.root 0
  start : s.start () = p.run cap []
  stands : match o.stage with
    | .fresh => s.rest () = p.run cap [] ∧ p.Idle cap o.marks 0
    | .running => ∃ now, (p.mover (p.machine cap) cap 0).Stands (.yield now s.rest) o.marks
    | .done => (s.rest ()).isYield = false ∧
        (p.mover (p.machine cap) cap 0).Stands (s.rest ()) o.marks

namespace Follows

variable {cap : Nat} {p : Plan} {o : Odometer} {s : Stream}

theorem ofPlan (cap : Nat) (p : Plan) : Follows cap p (.ofPlan cap p) (.ofPlan cap p) :=
  ⟨rfl, rfl, rfl, rfl, Plan.idle_untouched fun _ _ _ => rfl⟩

/-- Whatever an odometer is left with, the parts that have never been started are as they were. -/
theorem idle (h : Follows cap p o s) : p.Idle cap o.marks 0 := by
  have hstands := h.stands
  cases hstage : o.stage with
  | fresh =>
    rw [hstage] at hstands
    exact hstands.2
  | running =>
    rw [hstage] at hstands
    obtain ⟨now, hstands⟩ := hstands
    exact hstands.idle
  | done =>
    rw [hstage] at hstands
    exact hstands.2.idle

theorem restart (h : Follows cap p o s) : Follows cap p o.restart s.restart :=
  ⟨h.machine, h.root, h.start, h.start, h.idle⟩

/-- An odometer that starts over has all texts before it. -/
theorem toList_restart (h : Follows cap p o s) :
    s.restart.toList = (Stream.ofPlan cap p).toList := by
  show (s.start ()).toList.map _ = _
  rw [h.start]
  rfl

theorem move (hp : p.WellNamed []) (h : Follows cap p o s) :
    ∃ σ, Ends o.move ((s.rest ()).isYield, σ) ∧
      (p.mover (p.machine cap) cap 0).Stands (s.rest ()) σ := by
  have hm : (p.machine cap).Descending := p.descending_machine hp
  have hplaced : p.Placed (p.machine cap) cap p.place [] 0 := p.placed_machine hp
  have hstands := h.stands
  cases hstage : o.stage with
  | fresh =>
    rw [hstage] at hstands
    obtain ⟨σ, hreset, -, hσ⟩ := hplaced.runs hm o.marks [] (.nil _ _ _ _) hstands.2
    refine ⟨σ, hreset.of fun fuel hreset => ?_, by rwa [hstands.1]⟩
    rw [Odometer.move, hstage, hstands.1, h.machine, h.root]
    exact hreset
  | running =>
    rw [hstage] at hstands
    obtain ⟨now, hstands⟩ := hstands
    obtain ⟨σ, hadvance, -, hσ⟩ := hstands.next (.refl o.marks)
    refine ⟨σ, hadvance.of fun fuel hadvance => ?_, hσ⟩
    rw [Odometer.move, hstage, h.machine, h.root]
    exact hadvance
  | done =>
    rw [hstage] at hstands
    refine ⟨o.marks, .pure fun fuel => ?_, hstands.2⟩
    rw [Odometer.move, hstage, hstands.1]

/-- **A step of an odometer is a step of the stream.** -/
theorem next (hp : p.WellNamed []) (h : Follows cap p o s) :
    ∃ o', Ends o.next (s.next.1, o') ∧ Follows cap p o' s.next.2 := by
  have hplaced : p.Placed (p.machine cap) cap p.place [] 0 := p.placed_machine hp
  obtain ⟨σ, hmove, hσ⟩ := h.move hp
  rw [Stream.next]
  cases hrest : s.rest () with
  | done last =>
    rw [hrest] at hσ hmove
    refine ⟨{ o with marks := σ, stage := .done }, hmove.of fun fuel hmove => ?_, h.machine, h.root,
      h.start, rfl, hσ⟩
    rw [Odometer.next, hmove]
    rfl
  | yield now rest =>
    rw [hrest] at hσ hmove
    have htext : Ends ((p.machine cap).render σ (p.root 0)) (now []).text := by
      rw [← hσ.1.1]
      exact (hplaced.displays (.nil _ _ _ _)).text
    refine ⟨{ o with marks := σ, stage := .running },
      hmove.of₂ htext fun fuel hmove htext => ?_, h.machine, h.root, h.start, now, hσ⟩
    rw [Odometer.next, hmove]
    show (o.machine.render σ o.root fuel >>= _) = _
    rw [h.machine, h.root, htext]
    rfl

theorem nexts (hp : p.WellNamed []) (h : Follows cap p o s) (count : Nat) :
    ∃ o', Ends (o.nexts count) ((List.range count).map fun i => s.toList[i]?, o') := by
  induction count generalizing o s with
  | zero => exact ⟨o, .pure fun _ => rfl⟩
  | succ count ih =>
    obtain ⟨o₁, hnext, h₁⟩ := h.next hp
    obtain ⟨o₂, hnexts⟩ := ih h₁
    refine ⟨o₂, hnext.of₂ hnexts fun fuel hnext hnexts => ?_⟩
    rw [Odometer.nexts, hnext]
    show (o₁.nexts count fuel >>= _) = _
    rw [hnexts, List.range_succ_eq_map, List.map_cons, List.map_map, s.fst_next, s.toList_next,
      List.head?_eq_getElem?]
    simp only [List.getElem?_tail]
    rfl

end Follows

/-! ## Calls in a row -/

/-- How many texts have been asked for since an odometer has started over, if `count` had been asked
for before some calls. -/
def Call.asked (count : Nat) : List Call → Nat
  | [] => count
  | .next :: calls => asked (count + 1) calls
  | .restart :: calls => asked 0 calls

variable {cap : Nat} {tree : Tree} {o : Odometer}

theorem ofTree_eq_ok_iff : ofTree cap tree = .ok o ↔ ∃ p, tree.plan = .ok p ∧ o = ofPlan cap p := by
  unfold ofTree
  cases tree.plan with
  | error e => simp [Except.map]
  | ok p => simp [Except.map, eq_comm]

theorem Follows.after {p : Plan} {s : Stream} {count : Nat} (hp : p.WellNamed [])
    (h : Follows cap p o s) (hs : s.toList = (Stream.ofPlan cap p).toList.drop count)
    (calls : List Call) :
    ∃ o' s', Ends (o.after calls) o' ∧ Follows cap p o' s' ∧
      s'.toList = (Stream.ofPlan cap p).toList.drop (Call.asked count calls) := by
  induction calls generalizing o s count with
  | nil => exact ⟨o, s, .pure fun _ => rfl, h, hs⟩
  | cons call calls ih =>
    cases call with
    | next =>
      obtain ⟨o₁, hnext, h₁⟩ := h.next hp
      have hs₁ : s.next.2.toList = (Stream.ofPlan cap p).toList.drop (count + 1) := by
        rw [s.toList_next, hs, List.tail_drop]
      obtain ⟨o₂, s₂, hafter, h₂⟩ := ih h₁ hs₁
      refine ⟨o₂, s₂, hnext.of₂ hafter fun fuel hnext hafter => ?_, h₂⟩
      rw [Odometer.after, hnext]
      exact hafter
    | restart => exact ih h.restart h.toList_restart

/-- **What an odometer answers:** the texts of the stream, from the first on that has not been asked
for since it has started over. -/
theorem after_nexts (h : ofTree cap tree = .ok o) :
    ∃ s, Stream.ofTree cap tree = .ok s ∧ ∀ calls, ∃ o', Ends (o.after calls) o' ∧
      ∀ count, ∃ o'', Ends (o'.nexts count)
        ((List.range count).map fun i => s.toList[Call.asked 0 calls + i]?, o'') := by
  obtain ⟨p, hplan, rfl⟩ := ofTree_eq_ok_iff.1 h
  have hp := Tree.wellNamed_plan hplan
  refine ⟨.ofPlan cap p, Stream.ofTree_eq_ok_iff.2 ⟨p, hplan, rfl⟩, fun calls => ?_⟩
  obtain ⟨o', s', hafter, hfollows, hs'⟩ :=
    (Follows.ofPlan cap p).after hp List.drop_zero.symm calls
  refine ⟨o', hafter, fun count => ?_⟩
  obtain ⟨o'', hnexts⟩ := hfollows.nexts hp count
  refine ⟨o'', ?_⟩
  simpa only [hs', List.getElem?_drop] using hnexts

/-! ## Exhaustion and starting over -/

/-- **No odometer goes on for ever.** A new one has a number of texts, and after as many calls none
is left until it starts over, whatever it has been asked before. Each call has an answer. -/
theorem exhausts (h : ofTree cap tree = .ok o) :
    ∃ N, (∃ answers o', Ends (o.nexts N) (answers, o') ∧ none ∉ answers) ∧
      ∀ calls, ∃ o', Ends (o.after calls) o' ∧
        ∀ count, ∃ answers o'', Ends (o'.nexts count) (answers, o'') ∧ answers.length = count ∧
          ∀ i, N ≤ i → i < count → answers[i]? = some none := by
  obtain ⟨s, -, hafter⟩ := after_nexts h
  refine ⟨s.toList.length, ?_, fun calls => ?_⟩
  · obtain ⟨o', hnil, hnexts⟩ := hafter []
    obtain rfl : o = o' := (Ends.pure fun _ => rfl).unique hnil
    obtain ⟨o', hanswers⟩ := hnexts s.toList.length
    refine ⟨_, o', hanswers, fun hnone => ?_⟩
    obtain ⟨i, hi, hnone⟩ := List.mem_map.1 hnone
    rw [Call.asked, Nat.zero_add, List.getElem?_eq_none_iff] at hnone
    exact Nat.not_le_of_lt (List.mem_range.1 hi) hnone
  · obtain ⟨o', hcalls, hnexts⟩ := hafter calls
    refine ⟨o', hcalls, fun count => ?_⟩
    obtain ⟨o'', hanswers⟩ := hnexts count
    refine ⟨_, o'', hanswers, by rw [List.length_map, List.length_range], fun i hN hi => ?_⟩
    rw [List.getElem?_map, List.getElem?_range hi, Option.map_some,
      List.getElem?_eq_none (Nat.le_trans hN (Nat.le_add_left i _))]

/-- The tree of `(?:(A*)|B\1)+`. The reference shows what the group was left with. -/
def leftBehind : Tree :=
  ⟨[[.repetition 1 none (.group .plain [[.group (.capture 1) [[.repetition 0 none (.char 'A')]]],
    [.char 'B', .backreference 1]])]], 1⟩

theorem exhausts_leftBehind : ∃ o N, ofTree 1 leftBehind = .ok o ∧
    ∃ o', Ends (o.after [.next, .restart, .next]) o' ∧
      ∃ answers o'', Ends (o'.nexts (N + 1)) (answers, o'') ∧ answers[N]? = some none := by
  obtain ⟨N, -, hN⟩ := exhausts (show ofTree 1 leftBehind = .ok _ from rfl)
  obtain ⟨o', hafter, hnexts⟩ := hN [.next, .restart, .next]
  obtain ⟨answers, o'', hanswers, -, hnone⟩ := hnexts (N + 1)
  exact ⟨_, N, rfl, o', hafter, answers, o'', hanswers, hnone N (Nat.le_refl N) N.lt_succ_self⟩

/-- **An odometer that starts over answers like a new one,** whatever it has been asked before: with
the texts of the stream. -/
theorem restarts (h : ofTree cap tree = .ok o) :
    ∃ s, Stream.ofTree cap tree = .ok s ∧ ∀ calls, ∃ o', Ends (o.after calls) o' ∧
      ∀ count, ∃ answers o₁ o₂, Ends (o'.restart.nexts count) (answers, o₁) ∧
        Ends (o.nexts count) (answers, o₂) ∧
        answers = (List.range count).map fun i => s.toList[i]? := by
  obtain ⟨p, hplan, rfl⟩ := ofTree_eq_ok_iff.1 h
  have hp := Tree.wellNamed_plan hplan
  refine ⟨.ofPlan cap p, Stream.ofTree_eq_ok_iff.2 ⟨p, hplan, rfl⟩, fun calls => ?_⟩
  obtain ⟨o', s', hafter, hfollows, -⟩ := (Follows.ofPlan cap p).after hp List.drop_zero.symm calls
  refine ⟨o', hafter, fun count => ?_⟩
  obtain ⟨o₁, hagain⟩ := hfollows.restart.nexts hp count
  obtain ⟨o₂, hnew⟩ := (Follows.ofPlan cap p).nexts hp count
  rw [hfollows.toList_restart] at hagain
  exact ⟨_, o₁, o₂, hagain, hnew, rfl⟩

theorem toList_leftBehind {s : Stream} (h : Stream.ofTree 1 leftBehind = .ok s) :
    s.toList = ["", "A", "BA", "", "A", "BA", "A", "AA", "ABA", "BA", "BAA", "BABA"].map
      String.toList := by
  cases h
  decide +kernel

theorem restarts_leftBehind : ∃ o, ofTree 1 leftBehind = .ok o ∧
    ∃ o', Ends (o.after [.next, .next, .next, .next]) o' ∧
      ∃ o'', Ends (o'.restart.nexts 4) ([some [], some ['A'], some ['B', 'A'], some []], o'') := by
  obtain ⟨s, hs, hafter⟩ := restarts (show ofTree 1 leftBehind = .ok _ from rfl)
  obtain ⟨o', hcalls, hnexts⟩ := hafter [.next, .next, .next, .next]
  obtain ⟨answers, o'', -, hagain, -, hanswers⟩ := hnexts 4
  rw [toList_leftBehind hs] at hanswers
  subst hanswers
  exact ⟨_, rfl, o', hcalls, o'', hagain⟩

end Odometer

end SequenceConstraint
