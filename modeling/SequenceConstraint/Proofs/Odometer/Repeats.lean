import SequenceConstraint.Proofs.Generation.Words
import SequenceConstraint.Proofs.Odometer.Choices

/-!
# Moving repetitions

A repetition goes through its child once and keeps the texts. From then on it turns digits, as one
counts, and moves its child to what the last digit stands for, so that echoes see the last repeat.

## Main statements

* `turn_digits` — to turn the digits of a number is to count
* `gathers`, `seeks` — how a child is gone through, and moved to one of its values
* `runs_times` — repetitions
-/

namespace SequenceConstraint

open Snapshot

/-! ## Digits -/

section Digits

theorem turn_concat (size digit : Nat) (digits : List Nat) :
    Machine.turn size (digits ++ [digit]) =
      if digit + 1 < size then (false, digits ++ [digit + 1])
      else ((Machine.turn size digits).1, (Machine.turn size digits).2 ++ [0]) := by
  induction digits with
  | nil => rfl
  | cons d digits ih =>
    rw [List.cons_append, Machine.turn, ih, Machine.turn]
    by_cases hdigit : digit + 1 < size
    · rw [if_pos hdigit, if_pos hdigit]
      rfl
    · rw [if_neg hdigit, if_neg hdigit]
      rcases Machine.turn size digits with ⟨carried, digits'⟩
      cases carried with
      | false => rfl
      | true =>
        show (if d + 1 < size then _ else _) = _
        by_cases hd : d + 1 < size
        · simp [hd]
        · simp [hd]

namespace Plan

theorem digits_zero (b count : Nat) : digits b count 0 [] = List.replicate count 0 := by
  induction count with
  | zero => rfl
  | succ count ih => rw [digits_succ, Nat.zero_div, Nat.zero_mod, ih, List.replicate_succ']

theorem getLast?_digits {b count k d : Nat} (h : (digits b count k []).getLast? = some d) :
    0 < count ∧ d = k % b := by
  cases count with
  | zero => cases h
  | succ count =>
    rw [digits_succ, List.getLast?_concat, Option.some.injEq] at h
    exact ⟨Nat.succ_pos count, h.symm⟩

end Plan

/-- **To turn the digits of a number is to count.** -/
theorem turn_digits {b count k : Nat} (hk : k < b.pow count) :
    Machine.turn b (Plan.digits b count k []) =
      if k + 1 < b.pow count then (false, Plan.digits b count (k + 1) [])
      else (true, List.replicate count 0) := by
  induction count generalizing k with
  | zero =>
    have hzero : k = 0 := Nat.lt_one_iff.1 hk
    subst hzero
    rfl
  | succ count ih =>
    have hb : 0 < b := by
      rcases Nat.eq_zero_or_pos b with rfl | hb
      · exact absurd hk (Nat.not_lt_zero k)
      · exact hb
    have hq : k / b < b.pow count := (Nat.div_lt_iff_lt_mul hb).2 hk
    have hr := Nat.mod_lt k hb
    have hpow : b.pow (count + 1) = b * b.pow count := Nat.mul_comm _ _
    have hsplit := Nat.div_add_mod k b
    rw [Plan.digits_succ, turn_concat, ih hq, Plan.digits_succ, hpow]
    generalize k / b = q at hq hsplit ⊢
    generalize k % b = r at hr hsplit ⊢
    subst hsplit
    by_cases hdigit : r + 1 < b
    · have hlt : b * q + r + 1 < b * b.pow count := by
        have := Nat.mul_le_mul_left b hq
        rw [Nat.mul_succ] at this
        omega
      rw [if_pos hdigit, if_pos hlt, Nat.add_assoc, Nat.mul_add_div hb, Nat.div_eq_of_lt hdigit,
        Nat.mul_add_mod, Nat.mod_eq_of_lt hdigit]
      rfl
    · -- the rightmost digit starts anew
      have hnext : b * q + r + 1 = b * (q + 1) := by
        rw [Nat.mul_succ]
        omega
      rw [if_neg hdigit, hnext, Nat.mul_div_cancel_left _ hb, Nat.mul_mod_right]
      by_cases hcarry : q + 1 < b.pow count
      · rw [if_pos hcarry, if_pos ((Nat.mul_lt_mul_left hb).2 hcarry)]
      · rw [if_neg hcarry, if_neg fun h => hcarry ((Nat.mul_lt_mul_left hb).1 h),
          List.replicate_succ']

end Digits

/-! ## Going through a child -/

section Child

variable {m : Machine} {cap : Nat} {place : Nat → Nat} {known : List Nat} {first : Nat}
  {body : Plan} {env : Bindings} {σ : Marks}

/-- **To gather the texts of a child** is to go through its run. -/
theorem gathers {r : Run Snapshot} (hm : m.Descending)
    (hplaced : body.Placed m cap place known first) (henv : m.Carries place σ known first env)
    (h : (body.mover m cap first).Stands r σ) (values : Array (List Char)) :
    ∃ σ', Ends (m.gather (body.root first) values r.isYield σ)
        (values ++ (r.toList.map fun s => (s env).text).toArray, σ') ∧
      σ.EqOutside first (body.root first + 1) σ' ∧ (body.mover m cap first).Shows σ' r.last := by
  induction r generalizing σ values with
  | done last =>
    refine ⟨σ, .succ (.pure fun fuel => ?_), .refl σ, h⟩
    rw [Machine.gather]
    simp [Run.isYield]
  | yield now rest ih =>
    have htext := (hplaced.displays henv).text
    rw [h.1.1] at htext
    obtain ⟨σ₁, hadvance, hσ₁, hrest⟩ := h.next (.refl σ)
    have henv₁ := henv.congr hm fun i hi => congrArg Mark.dial (hσ₁ i (.inl hi))
    obtain ⟨σ₂, hgather, hσ₂, hlast⟩ := ih () henv₁ hrest (values.push (now env).text)
    refine ⟨σ₂, .succ (htext.of₃ hadvance hgather fun fuel htext hadvance hgather => ?_),
      hσ₁.trans hσ₂, hlast⟩
    rw [Machine.gather]
    show (m.render σ _ fuel >>= _) = _
    rw [htext]
    show (m.advance _ σ fuel >>= _) = _
    rw [hadvance]
    show m.gather _ _ _ σ₁ fuel = _
    rw [hgather]
    simp

theorem spins {r : Run Snapshot} {count : Nat} {s : Snapshot}
    (h : (body.mover m cap first).Stands r σ) (hs : r.toList[count]? = some s) :
    ∃ σ', Ends (m.spin (body.root first) count σ) σ' ∧
      σ.EqOutside first (body.root first + 1) σ' ∧ (body.mover m cap first).Shows σ' s := by
  induction count generalizing r σ with
  | zero =>
    cases r with
    | done last => cases hs
    | yield now rest =>
      cases hs
      exact ⟨σ, .succ (.pure fun fuel => by rw [Machine.spin]), .refl σ, h.1⟩
  | succ count ih =>
    cases r with
    | done last => cases hs
    | yield now rest =>
      obtain ⟨σ₁, hadvance, hσ₁, hrest⟩ := h.next (.refl σ)
      obtain ⟨σ₂, hspin, hσ₂, hshows⟩ := ih hrest hs
      refine ⟨σ₂, .succ (hadvance.of₂ hspin fun fuel hadvance hspin => ?_), hσ₁.trans hσ₂, hshows⟩
      rw [Machine.spin]
      show (m.advance _ σ fuel >>= _) = _
      rw [hadvance]
      exact hspin

/-- **To seek** leaves a child where the last digit says, and where it is if there are no digits. -/
theorem seeks {digits : List Nat} (hruns : body.Runs m cap place known first)
    (henv : m.Carries place σ known first env) (hidle : body.Idle cap σ first)
    (hdigits : ∀ d, digits.getLast? = some d → d < (body.run cap env).toList.length) :
    ∃ σ', Ends (m.seek (body.root first) digits σ) σ' ∧
      σ.EqOutside first (body.root first + 1) σ' ∧ body.Idle cap σ' first ∧
      ∀ d, digits.getLast? = some d →
        (body.run cap env).toList[d]? = some (body.shown σ' first) := by
  cases hlast : digits.getLast? with
  | none =>
    refine ⟨σ, .succ (.pure fun fuel => ?_), .refl σ, hidle, fun d hd => by cases hd⟩
    rw [Machine.seek, hlast]
  | some d =>
    have hget := List.getElem?_eq_getElem (hdigits d hlast)
    obtain ⟨σ₁, hreset, hσ₁, hstands⟩ := hruns σ env henv hidle
    obtain ⟨σ₂, hspin, hσ₂, hshows⟩ := spins hstands hget
    refine ⟨σ₂, .succ (hreset.of₂ hspin fun fuel hreset hspin => ?_), hσ₁.trans hσ₂, hshows.2,
      fun d' hd' => ?_⟩
    · rw [Machine.seek, hlast]
      show (m.reset _ σ fuel >>= _) = _
      rw [hreset]
      exact hspin
    · cases hd'
      rw [hget, hshows.1]

end Child

/-! ## Repeats -/

namespace Plan.Repeats

variable (run : Run Snapshot) (env : Bindings)

theorem states_ofRun : (ofRun run env).states = run.toList.toArray := by
  simp [ofRun, Run.collect_eq]

theorem texts_ofRun :
    (ofRun run env).texts = (run.toList.map fun s => (s env).text).toArray := by
  simp [ofRun, Run.collect_eq]

theorem last_ofRun : (ofRun run env).last = run.last := by
  simp [ofRun, Run.collect_eq]

theorem size_texts_ofRun : (ofRun run env).texts.size = run.toList.length := by
  simp [texts_ofRun]

theorem isEmpty_texts_ofRun :
    (ofRun run env).texts.isEmpty = true ↔ run.toList.length = 0 := by
  rw [Array.isEmpty_iff_size_eq_zero, size_texts_ofRun]

end Plan.Repeats

section Gear

variable {m : Machine} {i min max child : Nat} {σ σ' : Marks} {digits : List Nat}

theorem resetGear_stalled {found : Bool} {values : Array (List Char)} {σ₁ σ₂ : Marks}
    (hreset : Ends (m.reset child σ) (found, σ₁))
    (hgather : Ends (m.gather child #[] found σ₁) (values, σ₂))
    (hstalled : max < min ∨ (values.isEmpty = true ∧ 0 < min)) :
    Ends (m.resetGear i (.times min max child) σ) (false, σ₂.setDial i
      { (σ₂.mark i).dial with values, digits := List.replicate min 0 }) := by
  refine .succ (hreset.of₂ hgather fun fuel hreset hgather => ?_)
  rw [Machine.resetGear, hreset]
  show (m.gather child #[] found σ₁ fuel >>= _) = _
  rw [hgather]
  exact if_pos hstalled

theorem resetGear_word {found : Bool} {values : Array (List Char)} {σ₁ σ₂ : Marks}
    (hreset : Ends (m.reset child σ) (found, σ₁))
    (hgather : Ends (m.gather child #[] found σ₁) (values, σ₂))
    (hstalled : ¬(max < min ∨ (values.isEmpty = true ∧ 0 < min)))
    (hseek : Ends (m.seek child (List.replicate min 0) (σ₂.setDial i
      { (σ₂.mark i).dial with values, digits := List.replicate min 0 })) σ') :
    Ends (m.resetGear i (.times min max child) σ) (true, σ') := by
  refine .succ (hreset.of₃ hgather hseek fun fuel hreset hgather hseek => ?_)
  rw [Machine.resetGear, hreset]
  show (m.gather child #[] found σ₁ fuel >>= _) = _
  rw [hgather]
  refine (if_neg hstalled).trans ?_
  show (m.seek _ _ _ fuel >>= _) = _
  rw [hseek]
  rfl

theorem advanceGear_turned
    (hturn : Machine.turn (σ.mark i).dial.values.size (σ.mark i).dial.digits = (false, digits))
    (hseek : Ends (m.seek child digits (σ.setDial i { (σ.mark i).dial with digits })) σ') :
    Ends (m.advanceGear i (.times min max child) σ) (true, σ') := by
  refine .succ (hseek.of fun fuel hseek => ?_)
  rw [Machine.advanceGear]
  simp only [hturn, Bool.false_eq_true, if_false]
  rw [hseek]
  rfl

theorem advanceGear_more
    (hturn : Machine.turn (σ.mark i).dial.values.size (σ.mark i).dial.digits = (true, digits))
    (hmax : ¬(max < digits.length + 1 ∨ (σ.mark i).dial.values.isEmpty = true))
    (hseek : Ends (m.seek child (List.replicate (digits.length + 1) 0)
      ((σ.setDial i { (σ.mark i).dial with digits }).setDial i
        { (σ.mark i).dial with digits := List.replicate (digits.length + 1) 0 })) σ') :
    Ends (m.advanceGear i (.times min max child) σ) (true, σ') := by
  refine .succ (hseek.of fun fuel hseek => ?_)
  rw [Machine.advanceGear]
  simp only [hturn, if_true, if_neg hmax]
  rw [hseek]
  rfl

theorem advanceGear_exhausted
    (hturn : Machine.turn (σ.mark i).dial.values.size (σ.mark i).dial.digits = (true, digits))
    (hmax : max < digits.length + 1 ∨ (σ.mark i).dial.values.isEmpty = true) :
    Ends (m.advanceGear i (.times min max child) σ)
      (false, σ.setDial i { (σ.mark i).dial with digits }) := by
  refine .succ (.pure fun fuel => ?_)
  rw [Machine.advanceGear]
  simp only [hturn, if_true, if_pos hmax]
  rfl

end Gear

section Times

variable {m : Machine} {cap : Nat} {place : Nat → Nat} {known : List Nat} {first min : Nat}
  {max : Option Nat} {body : Plan} {env : Bindings} {σ σ₁ : Marks} {count k : Nat}

/-- Where a repetition shows the word with a number, of some repeats. -/
structure AtWord (m : Machine) (cap : Nat) (place : Nat → Nat) (known : List Nat) (first : Nat)
    (body : Plan) (env : Bindings) (count k : Nat) (σ : Marks) : Prop where
  sees : m.Carries place σ known first env
  values : (σ.mark (body.root first + 1)).dial.values =
    (Plan.Repeats.ofRun (body.run cap env) env).texts
  digits : (σ.mark (body.root first + 1)).dial.digits =
    Plan.digits (body.run cap env).toList.length count k []
  idle : body.Idle cap σ first
  child : 0 < count → (body.run cap env).toList[k % (body.run cap env).toList.length]? =
    some (body.shown σ first)

namespace AtWord

theorem shown (h : AtWord m cap place known first body env count k σ) :
    (Plan.times min max body).shown σ first =
      (Plan.Repeats.ofRun (body.run cap env) env).word count k := by
  unfold Plan.shown Plan.Repeats.word
  simp only [h.values, h.digits, Plan.Repeats.size_texts_ofRun, Plan.Repeats.states_ofRun]
  cases count with
  | zero => rfl
  | succ count =>
    have hchild := h.child (Nat.succ_pos count)
    rw [Plan.digits_succ, List.getLast?_concat, List.isEmpty_eq_false_iff.2 (by simp)]
    simp only [Option.bind_some, List.getElem?_toArray, hchild]
    rfl

theorem congr (hm : m.Descending) (h : AtWord m cap place known first body env count k σ)
    (hσ₁ : σ.EqDials 0 (body.root first + 2) σ₁) :
    AtWord m cap place known first body env count k σ₁ := by
  have hroot := body.le_root first
  have hdial := hσ₁ (body.root first + 1) (Nat.zero_le _) (Nat.lt_succ_self _)
  have hbody : σ.EqDials first (body.root first + 1) σ₁ := hσ₁.mono (Nat.zero_le _) (Nat.le_succ _)
  refine ⟨h.sees.congr hm fun i hi => hσ₁ i (Nat.zero_le i) (by omega), by rw [hdial, h.values],
    by rw [hdial, h.digits], h.idle.congr hbody, ?_⟩
  rw [Plan.shown_congr hbody]
  exact h.child

/-- The digits are turned to a number, and the child is moved to the last of them. -/
theorem of_seek (dial : Dial) (hm : m.Descending) (hruns : body.Runs m cap place known first)
    (henv : m.Carries place σ known first env) (hidle : body.Idle cap σ first)
    (hvalues : dial.values = (Plan.Repeats.ofRun (body.run cap env) env).texts)
    (hdigits : dial.digits = Plan.digits (body.run cap env).toList.length count k [])
    (hk : k < (body.run cap env).toList.length.pow count) :
    ∃ σ', Ends (m.seek (body.root first) dial.digits (σ.setDial (body.root first + 1) dial)) σ' ∧
      σ.EqOutside first (body.root first + 2) (σ'.setLive (body.root first + 1) true) ∧
      AtWord m cap place known first body env count k
        (σ'.setLive (body.root first + 1) true) := by
  have hroot := body.le_root first
  have hσ₀ : σ.EqOutside (body.root first + 1) (body.root first + 2)
      (σ.setDial (body.root first + 1) dial) :=
    Marks.eqOutside_setDial _ (Nat.le_refl _) (Nat.lt_succ_self _)
  have henv₀ := henv.congr hm fun i hi => congrArg Mark.dial (hσ₀ i (.inl (by omega)))
  have hlast : ∀ d, dial.digits.getLast? = some d → d < (body.run cap env).toList.length := by
    intro d hd
    rw [hdigits] at hd
    obtain ⟨hcount, rfl⟩ := Plan.getLast?_digits hd
    refine Nat.mod_lt k (Nat.pos_of_ne_zero fun hzero => ?_)
    have hpow : Nat.pow 0 count = 0 := Nat.zero_pow hcount
    rw [hzero, hpow] at hk
    exact Nat.not_lt_zero k hk
  obtain ⟨σ', hseek, hσ', hidle', hchild⟩ :=
    seeks hruns henv₀ (hidle.congr (hσ₀.dialsBelow (Nat.le_refl _))) hlast
  have hmark := hσ' (body.root first + 1) (.inr (Nat.le_refl _))
  rw [Marks.mark_setDial_self] at hmark
  have hturned : AtWord m cap place known first body env count k σ' := by
    refine ⟨henv₀.congr hm fun i hi => congrArg Mark.dial (hσ' i (.inl hi)),
      by rw [hmark, hvalues], by rw [hmark, hdigits], hidle', fun hcount => hchild _ ?_⟩
    obtain ⟨count, rfl⟩ := Nat.exists_eq_succ_of_ne_zero (Nat.ne_of_gt hcount)
    rw [hdigits, Plan.digits_succ, List.getLast?_concat]
  refine ⟨σ', hseek, ?_, hturned.congr hm (Marks.eqDials_setLive true)⟩
  exact ((hσ₀.mono (Nat.le_succ_of_le hroot) (Nat.le_refl _)).trans
    (hσ'.mono (Nat.le_refl _) (Nat.le_succ _))).trans
      (Marks.eqOutside_setLive _ (Nat.le_succ_of_le hroot) (Nat.lt_succ_self _))

variable {limit : Nat}

/-- The next word of as many repeats. -/
theorem advance_next (hm : m.Descending) (hruns : body.Runs m cap place known first)
    (hw : m[body.root first + 1]? = some ⟨.times min limit (body.root first), first⟩)
    (h : AtWord m cap place known first body env count k σ)
    (hlive : (σ.mark (body.root first + 1)).live = true)
    (hk : k + 1 < (body.run cap env).toList.length.pow count) :
    ∃ σ', Ends (m.advance (body.root first + 1) σ) (true, σ') ∧
      σ.EqOutside first (body.root first + 2) σ' ∧
      AtWord m cap place known first body env count (k + 1) σ' ∧
      (σ'.mark (body.root first + 1)).live = true := by
  have hturn : Machine.turn (σ.mark (body.root first + 1)).dial.values.size
      (σ.mark (body.root first + 1)).dial.digits =
      (false, Plan.digits (body.run cap env).toList.length count (k + 1) []) := by
    rw [h.values, Plan.Repeats.size_texts_ofRun, h.digits, turn_digits (Nat.lt_of_succ_lt hk),
      if_pos hk]
  obtain ⟨σ', hseek, hσ', hword⟩ := of_seek { (σ.mark (body.root first + 1)).dial with
    digits := Plan.digits (body.run cap env).toList.length count (k + 1) [] } hm hruns h.sees h.idle
    h.values rfl hk
  exact ⟨_, Machine.ends_advance hw hlive (advanceGear_turned hturn hseek), hσ', hword, by simp⟩

/-- After the last word of as many repeats all digits start anew. -/
theorem turn_last (h : AtWord m cap place known first body env count k σ)
    (hk : k + 1 = (body.run cap env).toList.length.pow count) :
    Machine.turn (σ.mark (body.root first + 1)).dial.values.size
      (σ.mark (body.root first + 1)).dial.digits = (true, List.replicate count 0) := by
  rw [h.values, Plan.Repeats.size_texts_ofRun, h.digits, turn_digits (Nat.lt_of_succ_le
    (Nat.le_of_eq hk)), if_neg (Nat.not_lt_of_le (Nat.le_of_eq hk.symm))]

/-- The first word of one more repeat. -/
theorem advance_more (hm : m.Descending) (hruns : body.Runs m cap place known first)
    (hw : m[body.root first + 1]? = some ⟨.times min limit (body.root first), first⟩)
    (h : AtWord m cap place known first body env count k σ)
    (hlive : (σ.mark (body.root first + 1)).live = true)
    (hk : k + 1 = (body.run cap env).toList.length.pow count) (hlimit : count < limit)
    (hsize : 0 < (body.run cap env).toList.length) :
    ∃ σ', Ends (m.advance (body.root first + 1) σ) (true, σ') ∧
      σ.EqOutside first (body.root first + 2) σ' ∧
      AtWord m cap place known first body env (count + 1) 0 σ' ∧
      (σ'.mark (body.root first + 1)).live = true := by
  have hroot := body.le_root first
  have hturn := h.turn_last hk
  have hmax : ¬(limit < (List.replicate count 0).length + 1 ∨
      (σ.mark (body.root first + 1)).dial.values.isEmpty = true) := by
    rw [List.length_replicate, h.values, Plan.Repeats.isEmpty_texts_ofRun]
    omega
  -- the digits that have started anew are written before those of one more repeat
  let σ₁ := σ.setDial (body.root first + 1)
    { (σ.mark (body.root first + 1)).dial with digits := List.replicate count 0 }
  have hσ₁ : σ.EqOutside (body.root first + 1) (body.root first + 2) σ₁ :=
    Marks.eqOutside_setDial _ (Nat.le_refl _) (Nat.lt_succ_self _)
  have henv₁ := h.sees.congr hm fun i hi => congrArg Mark.dial (hσ₁ i (.inl (by omega)))
  have hdigits : List.replicate ((List.replicate count 0).length + 1) 0 =
      Plan.digits (body.run cap env).toList.length (count + 1) 0 [] := by
    rw [Plan.digits_zero, List.length_replicate]
  obtain ⟨σ', hseek, hσ', hword⟩ := of_seek { (σ.mark (body.root first + 1)).dial with
    digits := List.replicate ((List.replicate count 0).length + 1) 0 } hm hruns henv₁
    (h.idle.congr (hσ₁.dialsBelow (Nat.le_refl _))) h.values hdigits (Nat.pow_pos hsize)
  exact ⟨_, Machine.ends_advance hw hlive (advanceGear_more hturn hmax hseek),
    (hσ₁.mono (Nat.le_succ_of_le hroot) (Nat.le_refl _)).trans hσ', hword, by simp⟩

/-- There is no next word: the digits start anew, and the child stays where it is. -/
theorem advance_exhausted
    (hw : m[body.root first + 1]? = some ⟨.times min limit (body.root first), first⟩)
    (h : AtWord m cap place known first body env count k σ)
    (hlive : (σ.mark (body.root first + 1)).live = true)
    (hk : k + 1 = (body.run cap env).toList.length.pow count)
    (hlimit : limit < count + 1 ∨ (body.run cap env).toList.length = 0) :
    ∃ σ', Ends (m.advance (body.root first + 1) σ) (false, σ') ∧
      σ.EqOutside first (body.root first + 2) σ' ∧ body.Idle cap σ' first ∧
      (Plan.times min max body).shown σ' first = fun env' =>
        ⟨(List.replicate count ((Plan.Repeats.ofRun (body.run cap env) env).text 0)).flatten,
          if count = 0 then [] else (body.shown σ first env').groups⟩ := by
  have hroot := body.le_root first
  have hturn := h.turn_last hk
  have hmax : limit < (List.replicate count 0).length + 1 ∨
      (σ.mark (body.root first + 1)).dial.values.isEmpty = true := by
    rwa [List.length_replicate, h.values, Plan.Repeats.isEmpty_texts_ofRun]
  have hset : σ.EqOutside (body.root first + 1) (body.root first + 2)
      ((σ.setDial (body.root first + 1) { (σ.mark (body.root first + 1)).dial with
        digits := List.replicate count 0 }).setLive (body.root first + 1) false) :=
    (Marks.eqOutside_setDial _ (Nat.le_refl _) (Nat.lt_succ_self _)).trans
      (Marks.eqOutside_setLive _ (Nat.le_refl _) (Nat.lt_succ_self _))
  have hbody : σ.EqDials first (body.root first + 1) _ := hset.dialsBelow (Nat.le_refl _)
  refine ⟨_, Machine.ends_advance hw hlive (advanceGear_exhausted hturn hmax),
    hset.mono (Nat.le_succ_of_le hroot) (Nat.le_refl _), h.idle.congr hbody, ?_⟩
  rw [Plan.shown, Plan.shown_congr hbody]
  simp only [Marks.mark_setLive_self, Marks.mark_setDial_self, h.values]
  cases count with
  | zero => rfl
  | succ count => simp [List.replicate_succ, Plan.Repeats.text, List.flatMap_def]

end AtWord

/-! ## Words -/

section Words

variable {limit : Nat}

/-- Whether a repetition is left at a run when it is advanced from a word. -/
def LeadsTo (m : Machine) (cap first min : Nat) (max : Option Nat) (body : Plan) (σ : Marks)
    (r : Run Snapshot) : Prop :=
  ∃ σ', Ends (m.advance (body.root first + 1) σ) (r.isYield, σ') ∧
    σ.EqOutside first (body.root first + 2) σ' ∧
    ((Plan.times min max body).mover m cap first).Stands r σ'

theorem stands_counting {next : Unit → Run Snapshot} {n : Nat} (hm : m.Descending)
    (hruns : body.Runs m cap place known first)
    (hw : m[body.root first + 1]? = some ⟨.times min limit (body.root first), first⟩)
    (hnext : ∀ σ k, AtWord m cap place known first body env count k σ →
      (σ.mark (body.root first + 1)).live = true →
      k + 1 = (body.run cap env).toList.length.pow count →
      LeadsTo m cap first min max body σ (next ()))
    (h : AtWord m cap place known first body env count k σ)
    (hlive : (σ.mark (body.root first + 1)).live = true)
    (hn : k + (n + 1) = (body.run cap env).toList.length.pow count) :
    ((Plan.times min max body).mover m cap first).Stands
      (.counting ((Plan.Repeats.ofRun (body.run cap env) env).word count) next (n + 1) k) σ := by
  induction n generalizing k σ with
  | zero =>
    refine ⟨⟨h.shown, h.idle⟩, fun σ₁ hσ₁ => ?_⟩
    have hmark := hσ₁ (body.root first + 1) (Nat.lt_succ_self _)
    exact hnext σ₁ k (h.congr hm hσ₁.dials) (by rw [hmark, hlive]) hn
  | succ n ih =>
    refine ⟨⟨h.shown, h.idle⟩, fun σ₁ hσ₁ => ?_⟩
    have hmark := hσ₁ (body.root first + 1) (Nat.lt_succ_self _)
    obtain ⟨σ₂, hadvance, hσ₂, hword, hlive₂⟩ :=
      (h.congr hm hσ₁.dials).advance_next hm hruns hw (by rw [hmark, hlive]) (by omega)
    exact ⟨σ₂, hadvance, hσ₂, ih hword hlive₂ (by omega)⟩

theorem Plan.Repeats.isYield_words {r : Plan.Repeats} {more : Nat}
    (h : 0 < r.texts.size.pow count) : (r.words limit more count).isYield = true := by
  obtain ⟨n, hn⟩ := Nat.exists_eq_succ_of_ne_zero (Nat.ne_of_gt h)
  cases more with
  | zero =>
    rw [words, hn]
    rfl
  | succ more =>
    rw [words, hn]
    rfl

/-- The last digit of the last word. -/
theorem mod_of_succ_eq_pow {b : Nat} (hk : k + 1 = b.pow count) (hcount : 0 < count) :
    k % b = b - 1 := by
  obtain ⟨count, rfl⟩ := Nat.exists_eq_succ_of_ne_zero (Nat.ne_of_gt hcount)
  have hpow : b.pow (count + 1) = b * b.pow count := Nat.mul_comm _ _
  rw [hpow] at hk
  have hpos : 0 < b * b.pow count := by omega
  obtain ⟨p, hp⟩ := Nat.exists_eq_succ_of_ne_zero (Nat.ne_of_gt (Nat.pos_of_mul_pos_left hpos))
  have hb := Nat.pos_of_mul_pos_right hpos
  have hsplit : k = b * p + (b - 1) := by
    rw [hp, Nat.mul_succ] at hk
    omega
  rw [hsplit, Nat.mul_add_mod, Nat.mod_eq_of_lt (Nat.sub_lt hb Nat.one_pos)]

/-- After the last word of the most repeats nothing follows. -/
theorem leadsTo_exhausted
    (hw : m[body.root first + 1]? = some ⟨.times min limit (body.root first), first⟩)
    (h : AtWord m cap place known first body env limit k σ)
    (hlive : (σ.mark (body.root first + 1)).live = true)
    (hk : k + 1 = (body.run cap env).toList.length.pow limit) :
    LeadsTo m cap first min max body σ
      (.done ((Plan.Repeats.ofRun (body.run cap env) env).exhausted limit)) := by
  obtain ⟨σ', hadvance, hσ', hidle, hshown⟩ :=
    h.advance_exhausted hw hlive hk (.inl (Nat.lt_succ_self limit))
  refine ⟨σ', hadvance, hσ', hshown.trans ?_, hidle⟩
  rw [Plan.Repeats.exhausted]
  by_cases hlimit : limit = 0
  · subst hlimit
    rfl
  · have hback : (Plan.Repeats.ofRun (body.run cap env) env).states.back? =
        some (body.shown σ first) := by
      rw [← h.child (Nat.pos_of_ne_zero hlimit), mod_of_succ_eq_pow hk (Nat.pos_of_ne_zero hlimit),
        Plan.Repeats.states_ofRun, Array.back?_eq_getElem?, List.getElem?_toArray,
        List.size_toArray]
    simp only [if_neg hlimit, hback]
    rfl

/-- A child without texts has only the word of no repeats. -/
theorem leadsTo_empty
    (hw : m[body.root first + 1]? = some ⟨.times min limit (body.root first), first⟩)
    (h : AtWord m cap place known first body env count k σ)
    (hlive : (σ.mark (body.root first + 1)).live = true)
    (hk : k + 1 = (body.run cap env).toList.length.pow count)
    (hsize : (body.run cap env).toList.length = 0) :
    LeadsTo m cap first min max body σ (.done empty) := by
  have hcount : count = 0 := by
    rcases Nat.eq_zero_or_pos count with hcount | hcount
    · exact hcount
    · rw [hsize, show Nat.pow 0 count = 0 from Nat.zero_pow hcount] at hk
      cases hk
  subst hcount
  obtain ⟨σ', hadvance, hσ', hidle, hshown⟩ := h.advance_exhausted hw hlive hk (.inr hsize)
  exact ⟨σ', hadvance, hσ', hshown, hidle⟩

/-- **All words of some repeats,** one after the other. -/
theorem stands_repeats {next : Unit → Run Snapshot} (hm : m.Descending)
    (hruns : body.Runs m cap place known first)
    (hw : m[body.root first + 1]? = some ⟨.times min limit (body.root first), first⟩)
    (hnext : ∀ σ k, AtWord m cap place known first body env count k σ →
      (σ.mark (body.root first + 1)).live = true →
      k + 1 = (body.run cap env).toList.length.pow count →
      LeadsTo m cap first min max body σ (next ()))
    (h : AtWord m cap place known first body env count 0 σ)
    (hlive : (σ.mark (body.root first + 1)).live = true)
    (hsize : 0 < (body.run cap env).toList.length.pow count) :
    ((Plan.times min max body).mover m cap first).Stands
      (.counting ((Plan.Repeats.ofRun (body.run cap env) env).word count) next
        ((body.run cap env).toList.length.pow count) 0) σ := by
  obtain ⟨n, hn⟩ := Nat.exists_eq_succ_of_ne_zero (Nat.ne_of_gt hsize)
  rw [hn]
  exact stands_counting hm hruns hw hnext h hlive ((Nat.zero_add _).trans hn.symm)

/-- **All words** from some repeats on. -/
theorem stands_words {more : Nat} (hm : m.Descending) (hruns : body.Runs m cap place known first)
    (hw : m[body.root first + 1]? = some ⟨.times min limit (body.root first), first⟩)
    (hlimit : count + more = limit)
    (h : AtWord m cap place known first body env count 0 σ)
    (hlive : (σ.mark (body.root first + 1)).live = true)
    (hsize : 0 < (body.run cap env).toList.length.pow count) :
    ((Plan.times min max body).mover m cap first).Stands
      ((Plan.Repeats.ofRun (body.run cap env) env).words limit more count) σ := by
  induction more generalizing count σ with
  | zero =>
    subst hlimit
    rw [Plan.Repeats.words, Plan.Repeats.size_texts_ofRun]
    exact stands_repeats hm hruns hw (fun σ k h hlive hk => leadsTo_exhausted hw h hlive hk) h hlive
      hsize
  | succ more ih =>
    rw [Plan.Repeats.words, Plan.Repeats.size_texts_ofRun]
    refine stands_repeats hm hruns hw (fun σ k h hlive hk => ?_) h hlive hsize
    have hempty := Plan.Repeats.isEmpty_texts_ofRun (body.run cap env) env
    by_cases hzero : (body.run cap env).toList.length = 0
    · rw [if_pos (hempty.2 hzero)]
      exact leadsTo_empty hw h hlive hk hzero
    · rw [if_neg fun h => hzero (hempty.1 h)]
      obtain ⟨σ', hadvance, hσ', hword, hlive'⟩ :=
        h.advance_more hm hruns hw hlive hk (by omega) (Nat.pos_of_ne_zero hzero)
      have hpow : 0 < (body.run cap env).toList.length.pow (count + 1) :=
        Nat.pow_pos (Nat.pos_of_ne_zero hzero)
      refine ⟨σ', ?_, hσ', ih (by omega) hword hlive' hpow⟩
      rw [Plan.Repeats.isYield_words (by rw [Plan.Repeats.size_texts_ofRun]; exact hpow)]
      exact hadvance

end Words

/-- What is shown if there are no words. -/
theorem shows_stalled (dial : Dial) (hmin : 0 < min)
    (hlast : (body.mover m cap first).Shows σ (body.run cap env).last)
    (hvalues : dial.values = (Plan.Repeats.ofRun (body.run cap env) env).texts)
    (hdigits : dial.digits = List.replicate min 0) :
    ((Plan.times min max body).mover m cap first).Shows
      ((σ.setDial (body.root first + 1) dial).setLive (body.root first + 1) false)
      ((Plan.Repeats.ofRun (body.run cap env) env).stalled min) := by
  have hset : σ.EqOutside (body.root first + 1) (body.root first + 2)
      ((σ.setDial (body.root first + 1) dial).setLive (body.root first + 1) false) :=
    (Marks.eqOutside_setDial _ (Nat.le_refl _) (Nat.lt_succ_self _)).trans
      (Marks.eqOutside_setLive _ (Nat.le_refl _) (Nat.lt_succ_self _))
  have hbody : σ.EqDials first (body.root first + 1) _ := hset.dialsBelow (Nat.le_refl _)
  obtain ⟨min, rfl⟩ := Nat.exists_eq_succ_of_ne_zero (Nat.ne_of_gt hmin)
  refine ⟨?_, hlast.2.congr hbody⟩
  rw [Plan.shown, Plan.shown_congr hbody, hlast.1, ← Plan.Repeats.last_ofRun _ env]
  simp only [Marks.mark_setLive_self, Marks.mark_setDial_self, hvalues, hdigits,
    List.flatMap_replicate, List.isEmpty_replicate, Nat.succ_ne_zero, decide_false,
    Bool.false_eq_true, if_false]
  rfl

theorem runs_times (hm : m.Descending) (hbody : body.Runs m cap place known first)
    (hplaced : (Plan.times min max body).Placed m cap place known first) :
    (Plan.times min max body).Runs m cap place known first := by
  intro σ env henv hidle
  have hroot := body.le_root first
  obtain ⟨σ₁, hreset, hσ₁, hstands⟩ := hbody σ env henv hidle
  have henv₁ := henv.congr hm fun i hi => congrArg Mark.dial (hσ₁ i (.inl hi))
  obtain ⟨σ₂, hgather, hσ₂, hlast⟩ := gathers hm hplaced.1 henv₁ hstands #[]
  rw [← Plan.Repeats.texts_ofRun, Array.empty_append] at hgather
  have henv₂ := henv₁.congr hm fun i hi => congrArg Mark.dial (hσ₂ i (.inl hi))
  have hσ := (hσ₁.trans hσ₂).mono (Nat.le_refl first) (Nat.le_succ (body.root first + 1))
  rw [Plan.run, Plan.Repeats.run]
  by_cases hstalled : Plan.limit cap min max < min ∨
      ((Plan.Repeats.ofRun (body.run cap env) env).texts.isEmpty = true ∧ 0 < min)
  · have hmove := Machine.ends_reset hplaced.2 (resetGear_stalled hreset hgather hstalled)
    rw [if_pos hstalled]
    refine ⟨_, hmove, hσ.trans ?_, shows_stalled _ (by omega) hlast rfl rfl⟩
    exact (Marks.eqOutside_setDial _ (Nat.le_succ_of_le hroot) (Nat.lt_succ_self _)).trans
      (Marks.eqOutside_setLive _ (Nat.le_succ_of_le hroot) (Nat.lt_succ_self _))
  · have hle := Nat.not_lt.1 fun hlt => hstalled (.inl hlt)
    have hsize : 0 < (body.run cap env).toList.length.pow min := by
      rcases Nat.eq_zero_or_pos min with rfl | hmin
      · exact Nat.one_pos
      · exact Nat.pow_pos (Nat.pos_of_ne_zero fun hzero =>
          hstalled (.inr ⟨(Plan.Repeats.isEmpty_texts_ofRun _ env).2 hzero, hmin⟩))
    obtain ⟨σ₃, hseek, hσ₃, hword⟩ := AtWord.of_seek
      { (σ₂.mark (body.root first + 1)).dial with
        values := (Plan.Repeats.ofRun (body.run cap env) env).texts
        digits := List.replicate min 0 }
      hm hbody henv₂ hlast.2 rfl (Plan.digits_zero _ min).symm hsize
    have hmove := Machine.ends_reset hplaced.2 (resetGear_word hreset hgather hstalled hseek)
    rw [if_neg hstalled, Plan.Repeats.isYield_words (by rwa [Plan.Repeats.size_texts_ofRun])]
    exact ⟨_, hmove, hσ.trans hσ₃, stands_words hm hbody hplaced.2 (Nat.add_sub_cancel' hle) hword
      (by simp) hsize⟩

end Times

end SequenceConstraint
