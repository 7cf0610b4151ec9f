/-
  What using a rule does, said in full.

  A rule is used where its pattern is found: at the given position, or without one at the least
  path in the lexicographic order (`Formula.FoundAt`). Whatever is found there can be replaced, so
  using a rule fails only where a side is no formula or nothing is found (`apply_eq_none_iff`).
  Else the result is known at each path (`Formula.ReplacedAt`), and so there is no other result
  that has what is said of it (`apply_eq_some_iff`).
-/
import PropCalc.Proofs.Rule.Soundness

namespace PropCalc

/-! ## The two sides of a rule -/

namespace Rule

/-- The side that is looked for, as the rule has it. -/
def patternText (r : Rule) : Direction → String
  | .leftToRight => r.left
  | .rightToLeft => r.right

/-- The side that takes its place, as the rule has it. -/
def replacementText (r : Rule) : Direction → String
  | .leftToRight => r.right
  | .rightToLeft => r.left

variable {r : Rule} {d : Direction} {o : Oriented} {position : Option Path}
  {given : Substitution} {e result : Formula}

theorem oriented_eq_ok_iff_texts :
    r.oriented d = .ok o ↔ Formula.parse (r.patternText d) = .ok o.pattern ∧
      Formula.parse (r.replacementText d) = .ok o.replacement := by
  rw [oriented_eq_ok_iff]
  cases d with
  | leftToRight =>
    constructor
    · rintro ⟨left, right, hl, hr, rfl⟩
      exact ⟨hl, hr⟩
    · rintro ⟨hl, hr⟩
      exact ⟨_, _, hl, hr, rfl⟩
  | rightToLeft =>
    constructor
    · rintro ⟨left, right, hl, hr, rfl⟩
      exact ⟨hr, hl⟩
    · rintro ⟨hr, hl⟩
      exact ⟨_, _, hl, hr, rfl⟩

/-- A rule cannot be oriented exactly if one of its sides is no formula. -/
theorem exists_oriented_eq_error_iff :
    (∃ reason, r.oriented d = .error reason) ↔
      (∃ reason, Formula.parse r.left = .error reason) ∨
        ∃ reason, Formula.parse r.right = .error reason := by
  unfold oriented
  cases hl : Formula.parse r.left with
  | error reason => simp [bind, Except.bind]
  | ok left =>
    cases hr : Formula.parse r.right with
    | error reason => simp [bind, Except.bind]
    | ok right => cases d <;> simp [bind, Except.bind, pure, Except.pure]

/-! ## What using a rule does -/

/-- A rule with two sides can be used unless its pattern is missing. -/
theorem apply_eq_none_iff_of_oriented (ho : r.oriented d = .ok o) :
    r.apply d position given e = none ↔ Formula.Missing e o.pattern position := by
  rw [apply_of_oriented ho, ← Formula.search_eq_none_iff]
  cases hm : e.search o.pattern position with
  | none => simp
  | some m =>
    have hput := o.isSome_putAt (Formula.search_eq_some_iff.mp hm).holds
      (m.substitution.merge given)
    rw [Option.bind_some]
    simp [Option.isSome_iff_ne_none.mp hput]

theorem apply_eq_none_iff :
    r.apply d position given e = none ↔
      (∃ reason, Formula.parse r.left = .error reason) ∨
      (∃ reason, Formula.parse r.right = .error reason) ∨
      ∃ pattern, Formula.parse (r.patternText d) = .ok pattern ∧
        Formula.Missing e pattern position := by
  rw [← or_assoc, ← exists_oriented_eq_error_iff (d := d)]
  cases ho : r.oriented d with
  | error reason =>
    rw [apply_of_error ho]
    simp
  | ok o =>
    obtain ⟨hpattern, -⟩ := oriented_eq_ok_iff_texts.mp ho
    rw [apply_eq_none_iff_of_oriented ho, hpattern]
    simp

/-- The result has the replacement at the place where the pattern is found, with the given bindings
    before those of the match, and is as before at the other places. -/
theorem apply_eq_some_iff :
    r.apply d position given e = some result ↔
      ∃ pattern replacement p σ,
        Formula.parse (r.patternText d) = .ok pattern ∧
        Formula.parse (r.replacementText d) = .ok replacement ∧
        Formula.FoundAt e pattern position ⟨p, σ⟩ ∧
        Formula.ReplacedAt e p (replacement.replaceNames fun x =>
          ((given.get? x).or (σ.get? x)).getD (.var x)) result := by
  constructor
  · intro h
    cases ho : r.oriented d with
    | error reason =>
      rw [apply_of_error ho] at h
      cases h
    | ok o =>
      rw [apply_of_oriented ho] at h
      obtain ⟨m, hm, hput⟩ := Option.bind_eq_some_iff.mp h
      obtain ⟨hpattern, hreplacement⟩ := oriented_eq_ok_iff_texts.mp ho
      refine ⟨o.pattern, o.replacement, m.position, m.substitution, hpattern, hreplacement,
        Formula.search_eq_some_iff.mp hm, ?_⟩
      rw [← Substitution.image_merge, ← Formula.instantiate_eq_replaceNames]
      exact Formula.replaceAt_eq_some_iff.mp hput
  · rintro ⟨pattern, replacement, p, σ, hpattern, hreplacement, hfound, hresult⟩
    have ho : r.oriented d = .ok ⟨pattern, replacement⟩ :=
      oriented_eq_ok_iff_texts.mpr ⟨hpattern, hreplacement⟩
    rw [apply_of_oriented ho, Formula.search_eq_some_iff.mpr hfound, Option.bind_some,
      Oriented.putAt, Formula.replaceAt_eq_some_iff, Formula.instantiate_eq_replaceNames,
      Substitution.image_merge]
    exact hresult

/-- Using a rule, in full. It fails exactly if a side of the rule is no formula, or the given
    position leaves the formula or the pattern does not match there, or without a position the
    pattern matches nowhere. Else it is used at the given position or at the least path where the
    pattern matches. There the replacement is put, in which a name goes to its given binding, or
    else to that of the match, or stays; beside that place all is as before, and above it every
    node is the same. -/
theorem apply_exact (r : Rule) (d : Direction) (position : Option Path) (given : Substitution)
    (e : Formula) :
    (r.apply d position given e = none ↔
      (∃ reason, Formula.parse r.left = .error reason) ∨
      (∃ reason, Formula.parse r.right = .error reason) ∨
      ∃ pattern, Formula.parse (r.patternText d) = .ok pattern ∧
        Formula.Missing e pattern position) ∧
    ∀ result, r.apply d position given e = some result ↔
      ∃ pattern replacement p σ,
        Formula.parse (r.patternText d) = .ok pattern ∧
        Formula.parse (r.replacementText d) = .ok replacement ∧
        Formula.FoundAt e pattern position ⟨p, σ⟩ ∧
        Formula.ReplacedAt e p (replacement.replaceNames fun x =>
          ((given.get? x).or (σ.get? x)).getD (.var x)) result :=
  ⟨apply_eq_none_iff, fun _ => apply_eq_some_iff⟩

/-- A given binding wins over that of the match. -/
example :
    (⟨"swap", "", "", .commutativity, "A ∧ B", "B ∧ A", []⟩ : Rule).apply .leftToRight none
        (.ofList [("A", .var "z")]) (.neg (.bin .and (.var "p") (.var "q"))) =
      some (.neg (.bin .and (.var "q") (.var "z"))) := by
  decide +kernel

end Rule

end PropCalc
