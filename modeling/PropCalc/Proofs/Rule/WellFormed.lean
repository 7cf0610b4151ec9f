/-
  Rules whose two sides are formulas.

  Such a rule passes the check and can be oriented in both directions; any other rule fails in both
  directions alike, whichever of its sides is at fault (`exists_oriented_iff`,
  `not_wellFormed_iff`). The check reports the left side first (`check_eq_error_iff`).
-/
import PropCalc.Proofs.Rule.Postcondition

namespace PropCalc.Rule

variable {r : Rule} {d : Direction}

/-- Both sides are formulas. -/
def WellFormed (r : Rule) : Prop :=
  (∃ left, Formula.parse r.left = .ok left) ∧ ∃ right, Formula.parse r.right = .ok right

/-- The direction has no bearing on whether a rule can be oriented. -/
theorem exists_oriented_iff : (∃ o, r.oriented d = .ok o) ↔ r.WellFormed := by
  constructor
  · rintro ⟨o, ho⟩
    obtain ⟨left, right, hl, hr, -⟩ := oriented_eq_ok_iff.mp ho
    exact ⟨⟨left, hl⟩, right, hr⟩
  · rintro ⟨⟨left, hl⟩, right, hr⟩
    exact ⟨_, oriented_eq_ok_iff.mpr ⟨left, right, hl, hr, rfl⟩⟩

theorem not_wellFormed_iff : ¬ r.WellFormed ↔ ∃ reason, r.oriented d = .error reason := by
  rw [← exists_oriented_iff (d := d)]
  cases r.oriented d <;> simp

theorem check_eq_ok_iff : r.check = .ok () ↔ r.WellFormed := by
  rw [← exists_oriented_iff (d := .leftToRight)]
  unfold check
  cases r.oriented .leftToRight <;> simp [Except.map]

instance (r : Rule) : Decidable r.WellFormed := decidable_of_iff _ check_eq_ok_iff

/-- What the check reports of the right side it reports only where the left one is a formula. -/
theorem check_eq_error_iff {reason : ParseError} :
    r.check = .error reason ↔ Formula.parse r.left = .error reason ∨
      ∃ left, Formula.parse r.left = .ok left ∧ Formula.parse r.right = .error reason := by
  unfold check oriented
  cases hl : Formula.parse r.left with
  | error reason' => simp [bind, Except.bind, Except.map]
  | ok left =>
    cases hr : Formula.parse r.right with
    | error reason' => simp [bind, Except.bind, Except.map]
    | ok right => simp [bind, Except.bind, Except.map, pure, Except.pure]

end PropCalc.Rule
