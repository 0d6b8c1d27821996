import SequenceConstraint.Distinct
import SequenceConstraint.Generation.Stream
import SequenceConstraint.Proofs.Generation.Words

/-!
# The order of what a plan shows

The states of a plan come in an order, and for the texts of a stream the order and the number of
the states matter. What a plan shows in its states, one after the other, is a list
(`Plan.listing`), and each kind of plan has an exact law for that list: no state, no digit and no
set of seen texts is left in it.

## Main statements

* `map_runParts` — the rightmost of parts beside each other moves fastest
* `listing_times` — a repetition goes through the words over what its body shows, fewer repeats first
* `listing_choice` — a choice goes through its branches and keeps the first of each text
-/

namespace SequenceConstraint

/-! ## Values that are skipped -/

namespace Run

section Unseen

variable {α β κ : Type} [Ord κ]

/-- The values of a list whose key has not been seen before. -/
def unseen (key : α → κ) (seen : Std.TreeSet κ compare) : List α → List α
  | [] => []
  | a :: as =>
    if seen.contains (key a) then unseen key seen as
    else a :: unseen key (seen.insert (key a)) as

/-- The keys seen after all values of a list. -/
def seenAfter (key : α → κ) (seen : Std.TreeSet κ compare) : List α → Std.TreeSet κ compare
  | [] => seen
  | a :: as =>
    seenAfter key (if seen.contains (key a) then seen else seen.insert (key a)) as

theorem toList_unseenThen (key : α → κ) (f : α → β)
    (next : Std.TreeSet κ compare → α → Run β) (seen : Std.TreeSet κ compare) (r : Run α) :
    (r.unseenThen key f next seen).toList =
      (unseen key seen r.toList).map f ++ (next (seenAfter key seen r.toList) r.last).toList := by
  induction r generalizing seen with
  | done a => rfl
  | yield a rest ih =>
    rw [unseenThen, toList_yield, unseen, seenAfter, last_yield]
    by_cases h : seen.contains (key a) = true
    · rw [if_pos h, if_pos h, if_pos h, ih]
    · rw [if_neg h, if_neg h, if_neg h, toList_yield, ih, List.map_cons, List.cons_append]

variable [Std.TransOrd κ] [Std.LawfulEqOrd κ]

theorem contains_seenAfter {key : α → κ} {seen : Std.TreeSet κ compare} {as : List α} {k : κ} :
    (seenAfter key seen as).contains k = true ↔ seen.contains k = true ∨ ∃ a ∈ as, key a = k := by
  induction as generalizing seen with
  | nil => simp [seenAfter]
  | cons a as ih =>
    rw [seenAfter, ih]
    by_cases h : seen.contains (key a) = true
    · rw [if_pos h]
      -- the key of the first value is not recorded again, but it has been seen
      constructor
      · rintro (hk | ⟨b, hb, rfl⟩)
        · exact .inl hk
        · exact .inr ⟨b, List.mem_cons_of_mem a hb, rfl⟩
      · rintro (hk | ⟨b, hb, rfl⟩)
        · exact .inl hk
        · rcases List.mem_cons.1 hb with rfl | hb
          · exact .inl h
          · exact .inr ⟨b, hb, rfl⟩
    · rw [if_neg h, contains_insert_iff]
      constructor
      · rintro ((rfl | hk) | ⟨b, hb, rfl⟩)
        · exact .inr ⟨a, List.mem_cons_self, rfl⟩
        · exact .inl hk
        · exact .inr ⟨b, List.mem_cons_of_mem a hb, rfl⟩
      · rintro (hk | ⟨b, hb, rfl⟩)
        · exact .inl (.inr hk)
        · rcases List.mem_cons.1 hb with rfl | hb
          · exact .inl (.inl rfl)
          · exact .inr ⟨b, hb, rfl⟩

end Unseen

end Run

/-! ## First occurrences -/

/-- Keeps the first of each text; those in `seen` have come before. -/
def keepFirst (seen : List (List Char)) : List Shown → List Shown
  | [] => []
  | r :: rs =>
    if r.text ∈ seen then keepFirst seen rs else r :: keepFirst (r.text :: seen) rs

section KeepFirst

variable {seen seen' : List (List Char)}

theorem keepFirst_congr (h : ∀ t, t ∈ seen ↔ t ∈ seen') (rs : List Shown) :
    keepFirst seen rs = keepFirst seen' rs := by
  induction rs generalizing seen seen' with
  | nil => rfl
  | cons r rs ih =>
    have hcons : ∀ t, t ∈ r.text :: seen ↔ t ∈ r.text :: seen' := by
      intro t
      rw [List.mem_cons, List.mem_cons, h t]
    simp only [keepFirst, h r.text, ih h, ih hcons]

theorem keepFirst_append (rs rs' : List Shown) :
    keepFirst seen (rs ++ rs') =
      keepFirst seen rs ++ keepFirst (rs.map Shown.text ++ seen) rs' := by
  induction rs generalizing seen with
  | nil => rfl
  | cons r rs ih =>
    rw [List.cons_append, keepFirst, keepFirst, ih, ih]
    split
    · rename_i hr
      congr 1
      refine keepFirst_congr (fun t => ?_) rs'
      simp only [List.map_cons, List.cons_append, List.mem_cons, List.mem_append]
      constructor
      · exact .inr
      · rintro (rfl | h)
        · exact .inr hr
        · exact h
    · rw [List.cons_append]
      congr 2
      refine keepFirst_congr (fun t => ?_) rs'
      simp only [List.map_cons, List.cons_append, List.mem_cons, List.mem_append]
      exact or_left_comm

theorem mem_of_mem_keepFirst {r : Shown} {rs : List Shown} (h : r ∈ keepFirst seen rs) :
    r ∈ rs := by
  induction rs generalizing seen with
  | nil => cases h
  | cons r' rs ih =>
    rw [keepFirst] at h
    split at h
    · exact List.mem_cons_of_mem _ (ih h)
    · rcases List.mem_cons.1 h with rfl | h
      · exact List.mem_cons_self
      · exact List.mem_cons_of_mem _ (ih h)

/-- Every text has a first occurrence. -/
theorem exists_mem_keepFirst {r : Shown} {rs : List Shown} (h : r ∈ rs) :
    r.text ∈ seen ∨ ∃ r' ∈ keepFirst seen rs, r'.text = r.text := by
  induction rs generalizing seen with
  | nil => cases h
  | cons r' rs ih =>
    rw [keepFirst]
    split
    · rename_i hseen
      rcases List.mem_cons.1 h with rfl | h
      · exact .inl hseen
      · exact ih h
    · rcases List.mem_cons.1 h with rfl | h
      · exact .inr ⟨r, List.mem_cons_self, rfl⟩
      · rcases @ih (r'.text :: seen) h with hseen | ⟨r'', hr'', htext⟩
        · rcases List.mem_cons.1 hseen with htext | hseen
          · exact .inr ⟨r', List.mem_cons_self, htext.symm⟩
          · exact .inl hseen
        · exact .inr ⟨r'', List.mem_cons_of_mem _ hr'', htext⟩

/-- What a set of seen texts leaves of some states. -/
theorem map_unseen {env : Bindings} {tree : Std.TreeSet (List Char) compare}
    (h : ∀ t, tree.contains t = true ↔ t ∈ seen) (states : List Snapshot) :
    (Run.unseen (fun s => (s env).text) tree states).map (· env) =
      keepFirst seen (states.map (· env)) := by
  induction states generalizing seen tree with
  | nil => rfl
  | cons s states ih =>
    rw [Run.unseen, List.map_cons, keepFirst]
    by_cases hs : tree.contains (s env).text = true
    · rw [if_pos hs, if_pos ((h _).1 hs), ih h]
    · have hinsert : ∀ t, (tree.insert (s env).text).contains t = true ↔
          t ∈ (s env).text :: seen := by
        intro t
        rw [contains_insert_iff, List.mem_cons, h t, eq_comm]
      rw [if_neg hs, if_neg (mt (h _).2 hs), List.map_cons, ih hinsert]

end KeepFirst

/-! ## What a plan shows -/

/-- Two parts beside each other. -/
def Shown.beside (a b : Shown) : Shown := ⟨a.text ++ b.text, b.groups ++ a.groups⟩

namespace Plan

open Snapshot

/-- What a word shows: the texts of its repeats, and the groups of the last of them. -/
def ofRepeats (rs : List Shown) : Shown :=
  ⟨rs.flatMap Shown.text, (rs.getLast?.map Shown.groups).getD []⟩

/-- What the state with a number shows; nothing if there is no such state. -/
def shownAt (env : Bindings) (states : List Snapshot) (i : Nat) : Shown :=
  (states[i]?.map (· env)).getD ⟨[], []⟩

/-- The repeats of a word are the states that its digits name. -/
theorem word_ofRun {env : Bindings} (run : Run Snapshot) (count i : Nat) :
    (Repeats.ofRun run env).word count i env =
      ofRepeats ((digits run.toList.length count i []).map (shownAt env run.toList)) := by
  have hstates : (Repeats.ofRun run env).states = run.toList.toArray := by
    simp [Repeats.ofRun, Run.collect_eq]
  have htexts : (Repeats.ofRun run env).texts =
      (run.toList.map fun s => (s env).text).toArray := by
    simp [Repeats.ofRun, Run.collect_eq]
  have htext : ∀ d, (Repeats.ofRun run env).text d = (shownAt env run.toList d).text := by
    intro d
    unfold Repeats.text shownAt
    rw [htexts]
    cases h : run.toList[d]? <;> simp [h]
  -- a digit without a state shows nothing, on either side
  have hgroups : ∀ d : Option Nat,
      Repeats.groupsOf (d.bind ((Repeats.ofRun run env).states[·]?)) env =
        ((d.map (shownAt env run.toList)).map Shown.groups).getD [] := by
    intro d
    cases d with
    | none => rfl
    | some d =>
      rw [hstates]
      unfold shownAt
      cases h : run.toList[d]? <;> simp [h, Repeats.groupsOf]
  unfold Repeats.word ofRepeats
  simp only [hgroups, List.getLast?_map, List.flatMap_map]
  rw [htexts, List.size_toArray, List.length_map]
  congr 2
  funext d
  exact htext d

end Plan

/-- The words of `min` to `limit` repeats, fewer repeats first. -/
def repeated (min limit : Nat) (rs : List Shown) : List Shown :=
  (List.range' min (limit + 1 - min)).flatMap fun k => (wordsOf rs k).map Plan.ofRepeats

theorem mem_repeated {min limit : Nat} {rs : List Shown} {r : Shown} :
    r ∈ repeated min limit rs ↔
      ∃ w : List Shown, (∀ a ∈ w, a ∈ rs) ∧ min ≤ w.length ∧ w.length ≤ limit ∧
        r = Plan.ofRepeats w := by
  simp only [repeated, List.mem_flatMap, List.mem_range'_1, List.mem_map, mem_wordsOf]
  constructor
  · rintro ⟨k, ⟨hmin, hlimit⟩, w, ⟨rfl, hw⟩, rfl⟩
    exact ⟨w, hw, hmin, by omega, rfl⟩
  · rintro ⟨w, hw, hmin, hlimit, rfl⟩
    exact ⟨w.length, ⟨hmin, by omega⟩, w, ⟨rfl, hw⟩, rfl⟩

namespace Plan

open Snapshot

/-- What is left of a plan that has gone through its states. -/
def leftover (cap : Nat) (env : Bindings) (p : Plan) : Bindings := ((p.run cap env).last env).groups

/-- What a plan shows in its states, in order. -/
def listing (cap : Nat) (env : Bindings) (p : Plan) : List Shown :=
  (p.run cap env).toList.map (· env)

/-- What parts beside each other show: each is gone through anew under all that the parts before it
show. -/
def partsListing (cap : Nat) : Bindings → List Plan → List Shown
  | _, [] => [⟨[], []⟩]
  | env, p :: ps =>
    (p.listing cap env).flatMap fun a => (partsListing cap (a.groups ++ env) ps).map a.beside

/-- What each of some branches shows. A branch sees what the branches before it have left. -/
def branchListings (cap : Nat) : Bindings → List Plan → List (List Shown)
  | _, [] => []
  | env, p :: ps => p.listing cap env :: branchListings cap (p.leftover cap env ++ env) ps

section Laws

variable {cap : Nat} {env : Bindings}

theorem listing_texts (values : List (List Char)) :
    (texts values).listing cap env = values.map fun v => ⟨v, []⟩ := by
  simp [listing, run, const]

theorem listing_echo (name : Nat) : (echo name).listing cap env = [⟨env.text name, []⟩] := rfl

theorem listing_named (name : Nat) (body : Plan) :
    (named name body).listing cap env =
      (body.listing cap env).map fun b => ⟨b.text, (name, b.text) :: b.groups⟩ := by
  simp [listing, run, Snapshot.named]

theorem map_runParts (parts : List Plan) (env : Bindings) :
    (runParts cap parts env).toList.map (· env) = partsListing cap env parts := by
  induction parts generalizing env with
  | nil => rfl
  | cons p ps ih =>
    simp only [runParts, Run.toList_cross, partsListing, listing, List.map_flatMap, List.map_map,
      List.flatMap_map, ← ih]
    rfl

theorem map_runBranches {branches : List Plan} {scope : Scope}
    {tree : Std.TreeSet (List Char) compare} {seen : List (List Char)} {last : Snapshot}
    (h : ∀ t, tree.contains t = true ↔ t ∈ seen) :
    (runBranches cap branches env scope tree last).toList.map (· env) =
      keepFirst seen (branchListings cap (scope env) branches).flatten := by
  induction branches generalizing scope tree seen last with
  | nil => rfl
  | cons p ps ih =>
    let states := (p.run cap (scope env)).toList
    have hseen : ∀ t,
        (Run.seenAfter (fun s => (s (scope env)).text) tree states).contains t = true ↔
          t ∈ (p.listing cap (scope env)).map Shown.text ++ seen := by
      intro t
      rw [Run.contains_seenAfter, List.mem_append, h t, or_comm, listing, List.map_map,
        List.mem_map]
      rfl
    rw [runBranches, Run.toList_unseenThen, List.map_append, List.map_map, ih hseen,
      branchListings, List.flatten_cons, keepFirst_append]
    congr 1
    exact map_unseen h states

/-- **A choice** goes through its branches in order and keeps the first of each text. -/
theorem listing_choice (branches : List Plan) :
    (choice branches).listing cap env = keepFirst [] (branchListings cap env branches).flatten := by
  have hnone : ∀ t, (∅ : Std.TreeSet (List Char) compare).contains t = true ↔
      t ∈ ([] : List (List Char)) := by simp
  rw [listing, run]
  exact map_runBranches hnone

/-- **A repetition** goes through the words over what its body shows, fewer repeats first. -/
theorem listing_times (min : Nat) (max : Option Nat) (body : Plan) :
    (times min max body).listing cap env =
      repeated min (limit cap min max) (body.listing cap env) := by
  let states := (body.run cap env).toList
  have hsize : (Repeats.ofRun (body.run cap env) env).texts.size = states.length := by
    simp [states, Repeats.ofRun, Run.collect_eq]
  have hshown : (List.range states.length).map (shownAt env states) = body.listing cap env := by
    refine List.ext_getElem (by simp [listing, states]) fun i hi _ => ?_
    have hi : i < states.length := by simpa using hi
    simp [listing, shownAt, states, hi]
  rw [listing, run, Repeats.toList_run, repeated, List.map_flatMap, hsize]
  refine List.flatMap_congr fun k _ => ?_
  calc ((List.range (states.length.pow k)).map
        ((Repeats.ofRun (body.run cap env) env).word k)).map (· env)
      = (List.range (states.length.pow k)).map fun i =>
          ofRepeats ((digits states.length k i []).map (shownAt env states)) := by
        rw [List.map_map]
        exact List.map_congr_left fun i _ => word_ofRun _ k i
    _ = (wordsOf (List.range states.length) k).map fun ds =>
          ofRepeats (ds.map (shownAt env states)) := by
        rw [← map_digits_range, List.map_map]
        rfl
    _ = (wordsOf (body.listing cap env) k).map ofRepeats := by
        rw [← hshown, wordsOf_map, List.map_map]
        rfl

end Laws

end Plan

end SequenceConstraint
