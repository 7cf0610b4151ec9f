/-
  Every use of a rule can be taken back by the same rule.

  What a rule has put in a place matches the side that it took it from, whatever was bound
  besides (`holds_of_replaceAt`). So the rule can be used there in the opposite direction, and it
  gives the formula back if the names of the side to be put in go where the first match sent them
  (`apply_opposite`): with that match's bindings they do, and without any if the side that was put
  in has all of those names (`apply_opposite_restores`).
-/
import PropCalc.Formula.Canonical
import PropCalc.Proofs.Rule.Soundness

namespace PropCalc

open Substitution (Follows)

/-- What has been put in a place matches the side it comes from, with bindings that follow those
    it was instantiated with. -/
theorem Formula.holds_of_replaceAt {e e' side : Formula} {p : Path} {κ : Substitution}
    (h : e.replaceAt p (side.instantiate κ) = some e') :
    ∃ τ, (⟨p, τ⟩ : Match).Holds e' side ∧ Follows κ.image τ := by
  obtain ⟨τ, hτ, hfollows⟩ := Formula.unify_complete (rfl : side.instantiate κ = _)
  exact ⟨τ, ⟨_, Formula.subformula_of_replaceAt h, hτ⟩, hfollows⟩

namespace Rule

theorem oriented_opposite {r : Rule} {d : Direction} {o : Oriented} (h : r.oriented d = .ok o) :
    r.oriented d.opposite = .ok ⟨o.replacement, o.pattern⟩ := by
  obtain ⟨left, right, hl, hr, rfl⟩ := oriented_eq_ok_iff.mp h
  refine oriented_eq_ok_iff.mpr ⟨left, right, hl, hr, ?_⟩
  cases d <;> rfl

/-- Used backwards where it has just been used, a rule leads back if the names of its pattern go
    where the first match sent them. -/
theorem apply_opposite {r : Rule} {d : Direction} {o : Oriented} (ho : r.oriented d = .ok o)
    {e e' : Formula} {m : Match} (hm : m.Holds e o.pattern) {κ τ given : Substitution}
    (hput : e.replaceAt m.position (o.replacement.instantiate κ) = some e')
    (hback : (⟨m.position, τ⟩ : Match).Holds e' o.replacement)
    (himage : ∀ x ∈ o.pattern.names,
      Substitution.image (τ.merge given) x = m.substitution.image x) :
    r.apply d.opposite (some m.position) given e' = some e := by
  have hsame : o.pattern.instantiate (τ.merge given) = o.pattern.instantiate m.substitution :=
    Formula.instantiate_congr himage
  have happly := apply_of_holds (oriented_opposite ho) hback given
  rw [happly, Oriented.putAt, hsame, Formula.replaceAt_of_replaceAt hput,
    Formula.replaceAt_subformula hm.subformula]

/-- However a rule has been used at a position, it leads back when used there in the opposite
    direction with the bindings of the first match. It needs none if the side put in has all names
    of the side that was matched and the bindings given the first time left those alone. -/
theorem apply_opposite_restores {r : Rule} {d : Direction} {o : Oriented}
    (ho : r.oriented d = .ok o) {e e' : Formula} {p : Path} {m : Match}
    (hm : e.matchAt o.pattern p = some m) {given : Substitution}
    (h : r.apply d (some p) given e = some e') :
    r.apply d.opposite (some p) m.substitution e' = some e ∧
    ((∀ x ∈ o.pattern.names, x ∈ o.replacement.names) →
      (∀ x ∈ o.pattern.names, given.get? x = none) →
      r.apply d.opposite (some p) ∅ e' = some e) := by
  obtain ⟨rfl, hholds⟩ := Formula.matchAt_eq_some_iff.mp hm
  rw [apply_of_holds ho hholds] at h
  obtain ⟨τ, hback, hfollows⟩ := Formula.holds_of_replaceAt h
  -- the second match may bind the names of the pattern anew: the given bindings win, and
  -- without any it can only have found the same
  constructor
  · refine apply_opposite ho hholds h hback fun x hx => ?_
    exact Substitution.image_merge_of_bound ((hholds.isSome_get?_iff x).mpr hx)
  · intro hnames hgiven
    refine apply_opposite ho hholds h hback fun x hx => ?_
    have hbound : (τ.get? x).isSome := (hback.isSome_get?_iff x).mpr (hnames x hx)
    rw [NameMap.merge_empty, hfollows.image_eq hbound,
      Substitution.image_merge_of_unbound (hgiven x hx)]

/-- An implication, to be matched by a name alone. -/
def implied : Formula := .bin .implies (.var "p") (.var "q")

/-- Under a negation the implication is taken for `A`, becomes `A ∧ (A ∨ B)` with `¬p` for the
    new `B`, and comes back with the bindings of the match and without any. -/
theorem apply_opposite_restores_implied :
    standard[17].oriented .rightToLeft =
      .ok ⟨.var "A", .bin .and (.var "A") (.bin .or (.var "A") (.var "B"))⟩ ∧
    implied.neg.matchAt (.var "A") [0] = some ⟨[0], .ofList [("A", implied)]⟩ ∧
    ∃ e', e'.text = "¬((p → q) ∧ ((p → q) ∨ ¬p))" ∧
      standard[17].apply .rightToLeft (some [0]) (.ofList [("B", .neg (.var "p"))]) implied.neg =
        some e' ∧
      standard[17].apply .leftToRight (some [0]) (.ofList [("A", implied)]) e' =
        some implied.neg ∧
      standard[17].apply .leftToRight (some [0]) ∅ e' = some implied.neg := by
  have ho : standard[17].oriented .rightToLeft =
      .ok ⟨.var "A", .bin .and (.var "A") (.bin .or (.var "A") (.var "B"))⟩ := by decide +kernel
  have hm : implied.neg.matchAt (.var "A") [0] = some ⟨[0], .ofList [("A", implied)]⟩ := by
    decide +kernel
  have happly : standard[17].apply .rightToLeft (some [0]) (.ofList [("B", .neg (.var "p"))])
      implied.neg = some (.neg (.bin .and implied (.bin .or implied (.neg (.var "p"))))) := by
    decide +kernel
  obtain ⟨hback, hnone⟩ := apply_opposite_restores ho hm happly
  refine ⟨ho, hm, _, by decide +kernel, happly, hback, hnone ?_ ?_⟩
  · decide +kernel
  · decide +kernel

end Rule

end PropCalc
