import SequenceConstraint.Proofs.Language.Generated
import SequenceConstraint.Proofs.Pattern.Symbols

/-!
# Expressions

The patterns that describe sequences of interactions: symbols, sequences with a dot, choices and
repeats in parentheses. Their language is one of symbols, each symbol being a letter.

Generating goes up to a cap on the repeats of each repetition, but sequences are asked for by their
number of symbols. A repeat that adds no symbols can be left out, so a cap of `n` is enough for the
sequences that have at most `n` symbols more than the shortest.

## Main statements

* `isLeast_shortest` — the length of the shortest member
* `mem_capped` — a cap of `n` is enough for `n` symbols more
-/

namespace SequenceConstraint

open scoped Computability

/-- A capital with small letters after it. -/
abbrev Symbol := {s : List Char // Dotted.IsSymbol s}

inductive Expression where
  | symbol (s : Symbol)
  /-- `E.E` -/
  | sequence (e f : Expression)
  /-- `(E|E)` -/
  | choice (e f : Expression)
  /-- `(E)+` -/
  | plus (e : Expression)
  /-- `(E)*` -/
  | star (e : Expression)

namespace Expression

/-- The text of an expression. -/
def render : Expression → List Char
  | symbol s => s.1
  | sequence e f => e.render ++ '.' :: f.render
  | choice e f => '(' :: e.render ++ '|' :: f.render ++ [')']
  | plus e => '(' :: e.render ++ [')', '+']
  | star e => '(' :: e.render ++ [')', '*']

/-- How deep groups are nested. -/
def depth : Expression → Nat
  | symbol _ => 0
  | sequence e f => max e.depth f.depth
  | choice e f => max e.depth f.depth + 1
  | plus e => e.depth + 1
  | star e => e.depth + 1

/-- The sequences of symbols that an expression stands for. -/
def language : Expression → Language Symbol
  | symbol s => {[s]}
  | sequence e f => e.language * f.language
  | choice e f => e.language + f.language
  | plus e => e.language * e.language∗
  | star e => e.language∗

/-- The language with a cap on the repeats of each repetition. -/
def capped (cap : ℕ∞) : Expression → Language Symbol
  | symbol s => {[s]}
  | sequence e f => e.capped cap * f.capped cap
  | choice e f => e.capped cap + f.capped cap
  | plus e => repeatedLanguage cap 1 none (e.capped cap)
  | star e => repeatedLanguage cap 0 none (e.capped cap)

/-- The length of the shortest member of the language. -/
def shortest : Expression → Nat
  | symbol _ => 1
  | sequence e f => e.shortest + f.shortest
  | choice e f => min e.shortest f.shortest
  | plus e => e.shortest
  | star _ => 0

/-! ## The shortest member -/

theorem shortest_le {e : Expression} {ws : List Symbol} (h : ws ∈ e.language) :
    e.shortest ≤ ws.length := by
  induction e generalizing ws with
  | symbol s =>
    obtain rfl : ws = [s] := h
    exact Nat.le_refl 1
  | sequence e f ihe ihf =>
    obtain ⟨u, hu, v, hv, rfl⟩ := Language.mem_mul.1 h
    rw [List.length_append]
    exact Nat.add_le_add (ihe hu) (ihf hv)
  | choice e f ihe ihf =>
    rcases (Language.mem_add _ _ _).1 h with h | h
    · exact Nat.le_trans (Nat.min_le_left _ _) (ihe h)
    · exact Nat.le_trans (Nat.min_le_right _ _) (ihf h)
  | plus e ih =>
    obtain ⟨u, hu, v, -, rfl⟩ := Language.mem_mul.1 h
    rw [List.length_append]
    exact Nat.le_trans (ih hu) (Nat.le_add_right _ _)
  | star e ih => exact Nat.zero_le _

theorem exists_shortest (e : Expression) : ∃ ws ∈ e.language, ws.length = e.shortest := by
  induction e with
  | symbol s => exact ⟨[s], rfl, rfl⟩
  | sequence e f ihe ihf =>
    obtain ⟨u, hu, hulen⟩ := ihe
    obtain ⟨v, hv, hvlen⟩ := ihf
    refine ⟨u ++ v, Language.append_mem_mul hu hv, ?_⟩
    rw [List.length_append, hulen, hvlen, shortest]
  | choice e f ihe ihf =>
    obtain ⟨u, hu, hulen⟩ := ihe
    obtain ⟨v, hv, hvlen⟩ := ihf
    by_cases hle : e.shortest ≤ f.shortest
    · refine ⟨u, (Language.mem_add _ _ _).2 (.inl hu), ?_⟩
      rw [hulen, shortest, Nat.min_eq_left hle]
    · refine ⟨v, (Language.mem_add _ _ _).2 (.inr hv), ?_⟩
      rw [hvlen, shortest, Nat.min_eq_right (by omega)]
  | plus e ih =>
    obtain ⟨u, hu, hulen⟩ := ih
    refine ⟨u ++ [], Language.append_mem_mul hu (Language.nil_mem_kstar _), ?_⟩
    rw [List.append_nil, hulen, shortest]
  | star e ih => exact ⟨[], Language.nil_mem_kstar _, rfl⟩

theorem isLeast_shortest (e : Expression) :
    IsLeast {k | ∃ ws ∈ e.language, ws.length = k} e.shortest := by
  refine ⟨e.exists_shortest, ?_⟩
  rintro _ ⟨ws, hws, rfl⟩
  exact shortest_le hws

/-! ## Caps -/

theorem append_flatten_mem {l : Language Symbol} {w : List Symbol} {ws : List (List Symbol)}
    (hw : w ∈ l) (hws : ∀ v ∈ ws, v ∈ l) : w ++ ws.flatten ∈ l * l∗ :=
  Language.append_mem_mul hw (Language.join_mem_kstar hws)

/-- A cap leaves out sequences only. -/
theorem mem_language_of_mem_capped {e : Expression} {cap : ℕ∞} {ws : List Symbol}
    (h : ws ∈ e.capped cap) : ws ∈ e.language := by
  induction e generalizing ws with
  | symbol s => exact h
  | sequence e f ihe ihf =>
    obtain ⟨u, hu, v, hv, rfl⟩ := Language.mem_mul.1 h
    exact Language.append_mem_mul (ihe hu) (ihf hv)
  | choice e f ihe ihf =>
    rcases (Language.mem_add _ _ _).1 h with h | h
    · exact (Language.mem_add _ _ _).2 (.inl (ihe h))
    · exact (Language.mem_add _ _ _).2 (.inr (ihf h))
  | plus e ih =>
    obtain ⟨k, hk, hpow⟩ := mem_repeatedLanguage.1 h
    obtain ⟨rounds, rfl, rfl, hrounds⟩ := Language.mem_pow.1 hpow
    cases rounds with
    | nil => exact absurd hk.enough (by decide)
    | cons w rounds =>
      obtain ⟨hw, hrounds⟩ := List.forall_mem_cons.1 hrounds
      exact append_flatten_mem (ih hw) fun v hv => ih (hrounds v hv)
  | star e ih =>
    obtain ⟨k, -, hpow⟩ := mem_repeatedLanguage.1 h
    obtain ⟨rounds, rfl, -, hrounds⟩ := Language.mem_pow.1 hpow
    exact Language.join_mem_kstar fun v hv => ih (hrounds v hv)

theorem within_of_le {cap : ℕ∞} {min n k : Nat} (hcap : (n : ℕ∞) ≤ cap) (hmin : min ≤ k)
    (hk : k ≤ min + n) : Within cap min none k where
  enough := hmin
  bounded m h := by cases h
  capped _ := by
    calc (k : ℕ∞) ≤ (min + n : Nat) := Nat.cast_le.2 hk
      _ = min + n := Nat.cast_add min n
      _ ≤ min + cap := by gcongr

theorem length_le_length_flatten {ws : List (List Symbol)} (h : ∀ w ∈ ws, w ≠ []) :
    ws.length ≤ ws.flatten.length := by
  induction ws with
  | nil => exact Nat.le_refl 0
  | cons w ws ih =>
    obtain ⟨hw, hws⟩ := List.forall_mem_cons.1 h
    have hpos := List.length_pos_iff.2 hw
    have hrest := ih hws
    rw [List.flatten_cons, List.length_append, List.length_cons]
    omega

/-- **A cap of `n` is enough** for the sequences with at most `n` symbols more than the shortest:
repeats without symbols are left out, and each of the others takes one at least. -/
theorem mem_capped {e : Expression} {ws : List Symbol} {n : Nat} {cap : ℕ∞} (h : ws ∈ e.language)
    (hcap : (n : ℕ∞) ≤ cap) (hlen : ws.length ≤ e.shortest + n) : ws ∈ e.capped cap := by
  induction e generalizing ws with
  | symbol s => exact h
  | sequence e f ihe ihf =>
    obtain ⟨u, hu, v, hv, rfl⟩ := Language.mem_mul.1 h
    have hule := shortest_le hu
    have hvle := shortest_le hv
    rw [List.length_append, shortest] at hlen
    exact Language.append_mem_mul (ihe hu (by omega)) (ihf hv (by omega))
  | choice e f ihe ihf =>
    rw [shortest] at hlen
    rcases (Language.mem_add _ _ _).1 h with h | h
    · exact (Language.mem_add _ _ _).2 (.inl (ihe h (by omega)))
    · exact (Language.mem_add _ _ _).2 (.inr (ihf h (by omega)))
  | plus e ih =>
    obtain ⟨u, hu, v, hv, rfl⟩ := Language.mem_mul.1 h
    obtain ⟨rounds, rfl, hrounds⟩ := Language.mem_kstar_iff_exists_nonempty.1 hv
    have hule := shortest_le hu
    have hcount := length_le_length_flatten fun w hw => (hrounds w hw).2
    rw [List.length_append, shortest] at hlen
    -- the first repeat may be without symbols, the others are not
    refine mem_repeatedLanguage.2 ⟨rounds.length + 1, within_of_le hcap (by omega) (by omega), ?_⟩
    refine Language.mem_pow.2 ⟨u :: rounds, rfl, rfl, List.forall_mem_cons.2 ⟨?_, ?_⟩⟩
    · exact ih hu (by omega)
    · intro w hw
      have hle := (List.sublist_flatten_of_mem hw).length_le
      exact ih (hrounds w hw).1 (by omega)
  | star e ih =>
    obtain ⟨rounds, rfl, hrounds⟩ := Language.mem_kstar_iff_exists_nonempty.1 h
    have hcount := length_le_length_flatten fun w hw => (hrounds w hw).2
    rw [shortest] at hlen
    refine mem_repeatedLanguage.2 ⟨rounds.length, within_of_le hcap (by omega) (by omega), ?_⟩
    refine Language.mem_pow.2 ⟨rounds, rfl, rfl, fun w hw => ?_⟩
    have hle := (List.sublist_flatten_of_mem hw).length_le
    exact ih (hrounds w hw).1 (by omega)

/-- Without a cap nothing is left out. -/
theorem capped_top (e : Expression) : e.capped ⊤ = e.language := by
  ext ws
  constructor
  · exact mem_language_of_mem_capped
  · intro h
    exact mem_capped (n := ws.length) h le_top (Nat.le_add_left _ _)

end Expression

end SequenceConstraint
