import SequenceConstraint.Proofs.Language.Generated
import SequenceConstraint.Proofs.Matching.Reading

/-!
# The texts that are accepted

Of a tree without anchors, lookaheads and backreferences, the matcher accepts just the texts of its
language without a cap.

## Main statements

* `reaches_iff_reads` — what a node takes between two positions is a text of its language
* `Tree.matches?_eq_some_iff` — the verdict on a whole text
-/

namespace SequenceConstraint

open Matching

/-- A node that puts no condition on its surroundings. -/
def Node.Plain : Node → Prop
  | .anchor _ => False
  | .backreference _ => False
  | .group (.lookahead _) _ => False
  | .repetition min none _ => min ≤ 1
  | _ => True

theorem Node.Plain.positional {n : Node} (h : n.Plain) : Positional n := by
  cases n with
  | backreference index => exact h
  | repetition min max body =>
    cases max with
    | none => exact h
    | some m => trivial
  | _ => trivial

theorem Node.Plain.not_isLookahead {n : Node} (h : n.Plain) : n.isLookahead = false := by
  cases n with
  | group kind branches =>
    cases kind with
    | lookahead negative => exact h.elim
    | _ => rfl
  | _ => rfl

/-- A group that is repeated, if nothing in it puts a condition on its surroundings. -/
theorem plain_repeatedGroup {min index : Nat} {branches : List (List Node)} (hmin : min ≤ 1)
    (h : ∀ n ∈ branchesNodes branches, n.Plain) :
    ∀ n ∈ branchNodes [.repetition min none (.group (.capture index) branches)], n.Plain := by
  intro n hn
  simp only [branchNodes, Node.nodes, List.append_nil, List.mem_cons] at hn
  rcases hn with rfl | rfl | hn
  · exact hmin
  · trivial
  · exact h n hn

/-- Whether a node takes just the texts of its language. -/
def Node.Taken (text : Array Char) (n : Node) : Prop :=
  ∀ p q, p ≤ text.size → (Reaches text n p q ↔ ∃ w ∈ n.language ⊤, Reads text p q w)

section Taken

variable {text : Array Char} {p q : Nat}

/-- Without a cap any number of repeats lies within the bounds that a repetition names. -/
theorem within_top_iff {min k : Nat} {max : Option Nat} :
    Within ⊤ min max k ↔ min ≤ k ∧ ∀ m, max = some m → k ≤ m := by
  constructor
  · intro h
    exact ⟨h.enough, h.bounded⟩
  · rintro ⟨hmin, hmax⟩
    exact ⟨hmin, hmax, fun _ => by simp⟩

theorem branchReaches_iff_reads {branch : List Node} (htaken : ∀ n ∈ branch, n.Taken text)
    (hplain : ∀ n ∈ branch, n.Plain) (hp : p ≤ text.size) :
    BranchReaches text branch p q ↔ ∃ w ∈ branchLanguage ⊤ branch, Reads text p q w := by
  induction branch generalizing p with
  | nil => simp [BranchReaches, branchLanguage, Language.mem_one, reads_nil_iff hp]
  | cons n ns ih =>
    obtain ⟨hn, hns⟩ := List.forall_mem_cons.1 htaken
    obtain ⟨hplain, hplains⟩ := List.forall_mem_cons.1 hplain
    rw [branchLanguage, if_neg (by simp [hplain.not_isLookahead])]
    simp only [BranchReaches, Language.mem_mul]
    constructor
    · rintro ⟨r, hr, hq⟩
      obtain ⟨u, hu, hr⟩ := (hn p r hp).1 hr
      obtain ⟨v, hv, hq⟩ := (ih hns hplains hr.inside).1 hq
      exact ⟨u ++ v, ⟨u, hu, v, hv, rfl⟩, reads_append hr hq⟩
    · rintro ⟨_, ⟨u, hu, v, hv, rfl⟩, hq⟩
      obtain ⟨r, hr, hq⟩ := reads_append_iff.1 hq
      exact ⟨r, (hn p r hp).2 ⟨u, hu, hr⟩, (ih hns hplains hr.inside).2 ⟨v, hv, hq⟩⟩

theorem anyReaches_iff_reads {branches : List (List Node)}
    (htaken : ∀ b ∈ branches, ∀ n ∈ b, n.Taken text) (hplain : ∀ b ∈ branches, ∀ n ∈ b, n.Plain)
    (hp : p ≤ text.size) :
    AnyReaches text branches p q ↔ ∃ w ∈ branchesLanguage ⊤ branches, Reads text p q w := by
  induction branches with
  | nil => simp [AnyReaches, branchesLanguage, Language.notMem_zero]
  | cons b bs ih =>
    obtain ⟨hb, hbs⟩ := List.forall_mem_cons.1 htaken
    obtain ⟨hplain, hplains⟩ := List.forall_mem_cons.1 hplain
    simp only [AnyReaches, branchesLanguage, Language.mem_add, or_and_right, exists_or,
      branchReaches_iff_reads hb hplain hp, ih hbs hplains]

/-- Relations that agree on the positions that are come to. -/
theorem times_congr {R Q : Nat → Nat → Prop} {I : Nat → Prop} {k : Nat}
    (h : ∀ p q, I p → (R p q ↔ Q p q)) (hQ : ∀ p q, Q p q → I q) (hp : I p) :
    Times R k p q ↔ Times Q k p q := by
  induction k generalizing p with
  | zero => exact Iff.rfl
  | succ k ih =>
    simp only [Times, h p _ hp]
    constructor
    · rintro ⟨r, hr, hq⟩
      exact ⟨r, hr, (ih (hQ p r hr)).1 hq⟩
    · rintro ⟨r, hr, hq⟩
      exact ⟨r, hr, (ih (hQ p r hr)).2 hq⟩

theorem times_iff_reads {body : Node} {min : Nat} {max : Option Nat} (h : body.Taken text)
    (hp : p ≤ text.size) :
    (∃ k, min ≤ k ∧ (∀ m, max = some m → k ≤ m) ∧ Times (fun p q => Reaches text body p q) k p q) ↔
      ∃ w ∈ repeatedLanguage ⊤ min max (body.language ⊤), Reads text p q w := by
  have htimes : ∀ k, Times (fun p q => Reaches text body p q) k p q ↔
      ∃ w ∈ body.language ⊤ ^ k, Reads text p q w := by
    intro k
    rw [times_congr h (fun p q ⟨w, _, hw⟩ => hw.inside) hp, times_reads_iff hp]
    simp only [Language.mem_pow]
    constructor
    · rintro ⟨ws, hk, hws, hq⟩
      rw [List.flatMap_def, List.map_id'] at hq
      exact ⟨ws.flatten, ⟨ws, rfl, hk, hws⟩, hq⟩
    · rintro ⟨_, ⟨ws, rfl, hk, hws⟩, hq⟩
      refine ⟨ws, hk, hws, ?_⟩
      rwa [List.flatMap_def, List.map_id']
  simp only [mem_repeatedLanguage, htimes, within_top_iff]
  constructor
  · rintro ⟨k, hmin, hmax, w, hw, hq⟩
    exact ⟨w, ⟨k, ⟨hmin, hmax⟩, hw⟩, hq⟩
  · rintro ⟨w, ⟨k, ⟨hmin, hmax⟩, hw⟩, hq⟩
    exact ⟨k, hmin, hmax, w, hw, hq⟩

/-- **What a plain node takes between two positions is a text of its language.** -/
theorem reaches_iff_reads {n : Node} (h : ∀ m ∈ n.nodes, m.Plain) : n.Taken text := by
  have hself := h n n.self_mem_nodes
  intro p q hp
  induction n generalizing p q with
  | char c =>
    show text[p]? = some c ∧ q = p + 1 ↔ ∃ w, w = [c] ∧ Reads text p q w
    rw [exists_eq_left, reads_singleton_iff]
  | charClass k =>
    rw [Reaches, Node.language]
    show _ ↔ ∃ w, (∃ c ∈ k.resolve, w = [c]) ∧ Reads text p q w
    constructor
    · rintro ⟨⟨c, hc, htext⟩, hq⟩
      exact ⟨[c], ⟨c, hc, rfl⟩, reads_singleton_iff.2 ⟨htext, hq⟩⟩
    · rintro ⟨_, ⟨c, hc, rfl⟩, hq⟩
      obtain ⟨htext, hq⟩ := reads_singleton_iff.1 hq
      exact ⟨⟨c, hc, htext⟩, hq⟩
  | anchor a => exact hself.elim
  | backreference index => exact hself.elim
  | group kind branches ih =>
    have hinner : ∀ b ∈ branches, ∀ n ∈ b, ∀ m ∈ n.nodes, m.Plain := fun b hb n hn m hm =>
      h m (List.mem_cons_of_mem _ (mem_branchesNodes_of_mem hb hn hm))
    have hplain : ∀ b ∈ branches, ∀ n ∈ b, n.Plain := fun b hb n hn =>
      hinner b hb n hn n n.self_mem_nodes
    have hbranches : AnyReaches text branches p q ↔
        ∃ w ∈ branchesLanguage ⊤ branches, Reads text p q w :=
      anyReaches_iff_reads
        (fun b hb n hn => ih b hb n hn (hinner b hb n hn) (hplain b hb n hn)) hplain hp
    cases kind with
    | capture index => simpa only [Reaches, Node.language] using hbranches
    | plain => simpa only [Reaches, Node.language] using hbranches
    | lookahead negative => exact hself.elim
  | marked min max body ih =>
    have hbody : ∀ m ∈ body.nodes, m.Plain := fun m hm =>
      h m (List.mem_cons_of_mem _ (List.mem_cons_of_mem _ hm))
    rw [Reaches, Node.language]
    exact times_iff_reads (ih hbody (hbody body body.self_mem_nodes)) hp
  | repetition min max body hm ih =>
    have hbody : ∀ m ∈ body.nodes, m.Plain := fun m hm => h m (List.mem_cons_of_mem _ hm)
    rw [Reaches, Node.language]
    · exact times_iff_reads (ih hbody (hbody body body.self_mem_nodes)) hp
    · exact hm
    · exact hm

end Taken

/-- **A plain tree accepts just the texts of its language.** -/
theorem Tree.matches?_eq_some_iff {tree : Tree} {w : List Char} {b : Bool}
    (h : ∀ n ∈ tree.nodes, n.Plain) (hmatch : tree.matches? w = some b) :
    b = true ↔ w ∈ tree.language ⊤ := by
  have hbranches : ∀ b ∈ tree.branches, ∀ n ∈ b, ∀ m ∈ n.nodes, m.Plain := fun b hb n hn m hm =>
    h m (mem_branchesNodes_of_mem hb hn hm)
  have hpositional : ∀ m ∈ branchesNodes tree.branches, Positional m := fun m hm =>
    (h m hm).positional
  have hreaches : AnyReaches w.toArray tree.branches 0 w.length ↔
      ∃ v ∈ tree.language ⊤, Reads w.toArray 0 w.length v :=
    anyReaches_iff_reads (fun b hb n hn => reaches_iff_reads (hbranches b hb n hn))
      (fun b hb n hn => hbranches b hb n hn n n.self_mem_nodes) (Nat.zero_le _)
  rw [matches?_eq_some hmatch]
  refine (exists_anyLeads_iff hpositional (Nat.zero_le _) w.length).trans (hreaches.trans ?_)
  constructor
  · rintro ⟨v, hv, hreads⟩
    obtain rfl : v = w := hreads.eq_whole
    exact hv
  · intro hw
    exact ⟨w, hw, reads_whole_iff.2 rfl⟩

end SequenceConstraint
