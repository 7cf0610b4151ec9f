/-
  Malformed rules are inert.

  A rule that is not well formed matches nowhere, cannot be used and introduces nothing, in both
  directions, also where only the side that a direction does not look for is at fault
  (`Rule.apply_of_malformed`, `Rule.allMatches_of_malformed`, `Rule.introduced_of_malformed`). So it
  adds nothing to what a catalog lists, and it hides nothing either: a repeat is dropped for an
  earlier application, not for an earlier rule with the same id. What a catalog lists depends on its
  well-formed rules alone (`malformed_inert`).
-/
import PropCalc.Proofs.Catalog.Applicable
import PropCalc.Proofs.Rule.WellFormed

namespace PropCalc

/-! ## One rule -/

namespace Rule

variable {r : Rule}

theorem apply_of_malformed (hr : ¬ r.WellFormed) (d : Direction) (position : Option Path)
    (given : Substitution) (e : Formula) : r.apply d position given e = none := by
  obtain ⟨reason, ho⟩ := not_wellFormed_iff.mp hr
  exact apply_of_error ho position given e

theorem allMatches_of_malformed (hr : ¬ r.WellFormed) (d : Direction) (e : Formula) :
    r.allMatches d e = [] := by
  obtain ⟨reason, ho⟩ := not_wellFormed_iff.mp hr
  exact allMatches_of_error ho e

theorem introduced_of_malformed (hr : ¬ r.WellFormed) (d : Direction) : r.introduced d = ∅ := by
  obtain ⟨reason, ho⟩ := not_wellFormed_iff (d := d).mp hr
  unfold introduced
  rw [ho]

theorem applications_of_malformed (hr : ¬ r.WellFormed) (d : Direction) (e : Formula) :
    r.applications d e = [] := by
  by_contra h
  exact applications_ne_nil_iff.mp h (allMatches_of_malformed hr d e)

end Rule

/-! ## Catalogs -/

theorem flatMap_filter_of_nil {α β : Type} {p : α → Bool} {f : α → List β} {l : List α}
    (h : ∀ a ∈ l, p a = false → f a = []) : (l.filter p).flatMap f = l.flatMap f := by
  induction l with
  | nil => rfl
  | cons a l ih =>
    obtain ⟨ha, hl⟩ := List.forall_mem_cons.mp h
    cases hp : p a with
    | true => rw [List.filter_cons_of_pos hp, List.flatMap_cons, List.flatMap_cons, ih hl]
    | false =>
      rw [List.filter_cons_of_neg (by simp [hp]), List.flatMap_cons, ha hp, List.nil_append,
        ih hl]

namespace Catalog

/-- The catalog without its malformed rules. -/
def wellFormedPart (c : Catalog) : Catalog := ⟨c.rules.filter fun r => r.WellFormed⟩

theorem applications_wellFormedPart (c : Catalog) (e : Formula) :
    c.wellFormedPart.applications e = c.applications e := by
  show Application.distinct _ = Application.distinct _
  refine congrArg Application.distinct (flatMap_filter_of_nil ?_)
  intro r _ hr
  rw [List.flatMap_eq_nil_iff]
  intro d _
  exact Rule.applications_of_malformed (of_decide_eq_false hr) d e

theorem applicable_wellFormedPart (c : Catalog) (e : Formula) :
    c.wellFormedPart.applicable e = c.applicable e := by
  rw [applicable_eq_filter, applicable_eq_filter, wellFormedPart, List.filter_filter]
  apply List.filter_congr
  intro r _
  rw [Bool.eq_iff_iff, Bool.and_eq_true_iff, decide_eq_true_eq, decide_eq_true_eq,
    and_iff_left_iff_imp]
  rintro ⟨d, hd⟩
  by_contra hr
  exact hd (Rule.allMatches_of_malformed hr d e)

/-- Malformed rules are inert. A rule with a side that is no formula, whichever side it is, cannot
    be used in any direction, at any position, whatever is given; it has no matches and introduces
    no names. Without its malformed rules a catalog lists the same applications and the same
    applicable rules, for every formula, also where a malformed rule has the id of another. So two
    catalogs with the same well-formed rules list the same. -/
theorem malformed_inert :
    (∀ r : Rule, ((∃ reason, Formula.parse r.left = .error reason) ∨
        ∃ reason, Formula.parse r.right = .error reason) → ∀ d,
      (∀ position given e, r.apply d position given e = none) ∧
      (∀ e, r.allMatches d e = []) ∧ r.introduced d = ∅) ∧
    (∀ c : Catalog, ∀ e, c.wellFormedPart.applications e = c.applications e ∧
      c.wellFormedPart.applicable e = c.applicable e) ∧
    ∀ c c' : Catalog, c.wellFormedPart = c'.wellFormedPart → ∀ e,
      c.applications e = c'.applications e ∧ c.applicable e = c'.applicable e := by
  refine ⟨?_, fun c e => ⟨c.applications_wellFormedPart e, c.applicable_wellFormedPart e⟩, ?_⟩
  · intro r hsides d
    have hr : ¬ r.WellFormed :=
      Rule.not_wellFormed_iff.mpr (Rule.exists_oriented_eq_error_iff (d := d).mpr hsides)
    exact ⟨Rule.apply_of_malformed hr d, Rule.allMatches_of_malformed hr d,
      Rule.introduced_of_malformed hr d⟩
  · intro c c' hsame e
    rw [← c.applications_wellFormedPart, ← c.applicable_wellFormedPart, hsame,
      c'.applications_wellFormedPart, c'.applicable_wellFormedPart]
    exact ⟨rfl, rfl⟩

/-- A malformed rule in front of a good one with its id does not hide it. -/
example :
    (⟨[⟨"dn", "", "", .doubleNegation, "!!A", "(", []⟩,
      ⟨"dn", "", "", .doubleNegation, "!!A", "A", []⟩]⟩ : Catalog).applicable
        (.neg (.neg (.var "p"))) = [⟨"dn", "", "", .doubleNegation, "!!A", "A", []⟩] := by
  decide +kernel

end Catalog

end PropCalc
