/-
  Which rules of a catalog are applicable, and that all searches agree on it.

  A rule matches somewhere in a direction if the search for all its matches finds one. That is
  where the search for the first match succeeds, where using the rule without a position does
  (`isSome_apply_first_iff`), and where the rule has an application (`applications_ne_nil_iff`);
  a rule with a side that is no formula fails all of them alike. The applicable rules are those
  that match somewhere in some direction (`searches_agree`).
-/
import PropCalc.Proofs.Application.Enumeration

namespace PropCalc

theorem Direction.any_both_iff {test : Direction → Bool} : both.any test ↔ ∃ d, test d := by
  rw [List.any_eq_true]
  constructor
  · intro ⟨d, _, htest⟩
    exact ⟨d, htest⟩
  · intro ⟨d, htest⟩
    exact ⟨d, d.mem_both, htest⟩

instance {P : Direction → Prop} [DecidablePred P] : Decidable (∃ d, P d) :=
  decidable_of_iff (Direction.both.any fun d => P d) <| by
    rw [Direction.any_both_iff]
    simp

/-! ## One rule in one direction -/

namespace Formula

variable {e pattern : Formula}

/-- There is a first match exactly if there is one at all. -/
theorem isSome_firstMatch_iff : (e.firstMatch pattern).isSome ↔ e.allMatches pattern ≠ [] := by
  rw [← head?_allMatches, List.isSome_head?]

theorem firstMatch_eq_none_iff_allMatches :
    e.firstMatch pattern = none ↔ e.allMatches pattern = [] := by
  rw [← head?_allMatches, List.head?_eq_none_iff]

theorem nodup_positions_allMatches (e pattern : Formula) :
    ((e.allMatches pattern).map Match.position).Nodup := by
  rw [List.nodup_iff_pairwise_ne, List.pairwise_map]
  exact (e.pairwise_allMatches pattern).imp Path.Before.ne

end Formula

namespace Rule

variable {r : Rule} {d : Direction} {o : Oriented} {e : Formula}

theorem allMatches_of_error {reason : ParseError} (ho : r.oriented d = .error reason)
    (e : Formula) : r.allMatches d e = [] := by
  unfold allMatches
  rw [ho]

theorem allMatches_of_oriented (ho : r.oriented d = .ok o) (e : Formula) :
    r.allMatches d e = e.allMatches o.pattern := by
  unfold allMatches
  rw [ho]

/-- Without a position a rule can be used exactly where it matches somewhere. -/
theorem isSome_apply_first_iff (given : Substitution) :
    (r.apply d none given e).isSome ↔ r.allMatches d e ≠ [] := by
  cases ho : r.oriented d with
  | error reason =>
    rw [apply_of_error ho, allMatches_of_error ho]
    simp
  | ok o =>
    rw [apply_of_oriented ho, allMatches_of_oriented ho, ← Formula.isSome_firstMatch_iff]
    show ((e.firstMatch o.pattern).bind _).isSome ↔ _
    cases hm : e.firstMatch o.pattern with
    | none => simp
    | some m =>
      have hholds := (Formula.firstMatch_eq_some_iff.mp hm).1
      simp [o.isSome_putAt hholds]

/-- A rule has an application exactly where it matches somewhere. -/
theorem applications_ne_nil_iff : r.applications d e ≠ [] ↔ r.allMatches d e ≠ [] := by
  rw [not_iff_not]
  cases ho : r.oriented d with
  | error reason =>
    unfold applications
    simp [ho, allMatches_of_error ho]
  | ok o =>
    unfold applications
    rw [ho, allMatches_of_oriented ho]
    show (e.allMatches o.pattern).filterMap _ = [] ↔ _
    rw [List.filterMap_eq_nil_iff, List.eq_nil_iff_forall_not_mem]
    -- no match is passed over, since something can be put wherever the pattern matches
    apply forall_congr'
    intro m
    constructor
    · intro hnone hm
      have hholds := (Formula.matchAt_eq_some_iff.mp (Formula.mem_allMatches_iff.mp hm)).2
      have hput := o.isSome_putAt hholds m.substitution
      have hno := hnone hm
      rw [Application.ofMatch?, Option.map_eq_none_iff] at hno
      rw [hno] at hput
      cases hput
    · intro hno hm
      exact absurd hm hno

end Rule

/-! ## The rules of a catalog -/

namespace Catalog

variable {c : Catalog} {e : Formula}

/-- The applicable rules are those that match somewhere in some direction. -/
theorem applicable_eq_filter (c : Catalog) (e : Formula) :
    c.applicable e = c.rules.filter fun r => ∃ d, r.allMatches d e ≠ [] := by
  unfold applicable
  apply List.filter_congr
  intro r _
  rw [Bool.eq_iff_iff, Direction.any_both_iff, decide_eq_true_eq]
  apply exists_congr
  intro d
  cases ho : r.oriented d with
  | error reason => simp [Rule.allMatches_of_error ho]
  | ok o => rw [Rule.allMatches_of_oriented ho, Formula.isSome_firstMatch_iff]

/-- All searches agree. The search for all matches finds at each position what looking there
    finds, in the order of the positions and so each once, and the search for the first one finds
    the first of them. So the applicable rules of a catalog are, in its order, those that match
    somewhere in some direction, those that can be used without a position in some direction,
    whatever is given, and those that have an application in some direction. -/
theorem searches_agree (e : Formula) :
    (∀ pattern,
      (∀ q σ, ⟨q, σ⟩ ∈ e.allMatches pattern ↔ e.matchAt pattern q = some ⟨q, σ⟩) ∧
      ((e.allMatches pattern).map Match.position).Pairwise Path.Before ∧
      ((e.allMatches pattern).map Match.position).Nodup ∧
      e.firstMatch pattern = (e.allMatches pattern).head? ∧
      (e.firstMatch pattern = none ↔ e.allMatches pattern = [])) ∧
    ∀ c : Catalog,
      (c.applicable e = c.rules.filter fun r => ∃ d, r.allMatches d e ≠ []) ∧
      (∀ given, c.applicable e =
        c.rules.filter fun r => ∃ d, (r.apply d none given e).isSome) ∧
      (c.applicable e = c.rules.filter fun r => ∃ d, r.applications d e ≠ []) := by
  refine ⟨fun pattern => ⟨fun q σ => Formula.mem_allMatches_iff, ?_, ?_, ?_, ?_⟩,
    fun c => ⟨c.applicable_eq_filter e, fun given => ?_, ?_⟩⟩
  · exact List.pairwise_map.mpr (e.pairwise_allMatches pattern)
  · exact e.nodup_positions_allMatches pattern
  · exact (e.head?_allMatches pattern).symm
  · exact Formula.firstMatch_eq_none_iff_allMatches
  · simp only [applicable_eq_filter, Rule.isSome_apply_first_iff]
  · simp only [applicable_eq_filter, Rule.applications_ne_nil_iff]

end Catalog

end PropCalc
