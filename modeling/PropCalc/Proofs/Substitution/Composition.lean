/-
  Instantiating is putting in all bindings at once.

  A substitution does not look into the formulas that it puts in. A second one does, so
  instantiating twice is more than using the bindings of both: `andThen` is the one substitution
  that does it, and with it instantiating twice is instantiating once (`instantiate_instantiate`).
  Where the first one binds every name, it is enough to instantiate its bindings
  (`instantiate_mapValues`). `instantiate_simultaneous` adds where the parts and the names of an
  instance come from and which bindings it depends on.
-/
import PropCalc.Proofs.Formula.Families
import PropCalc.Proofs.Formula.Instances

namespace PropCalc

namespace Substitution

/-- The bindings of `σ`, instantiated by `τ`, and those of `τ` for the names that `σ` leaves. -/
def andThen (σ τ : Substitution) : Substitution := τ.merge (σ.mapValues (Formula.instantiate τ))

theorem get?_andThen (σ τ : Substitution) (x : String) :
    (σ.andThen τ).get? x = ((σ.get? x).map (Formula.instantiate τ)).or (τ.get? x) := by
  rw [andThen, NameMap.get?_merge, NameMap.get?_mapValues]

/-- What `σ` puts in for a name is instantiated by `τ`, and so is a name that `σ` leaves. -/
theorem image_andThen (σ τ : Substitution) (x : String) :
    (σ.andThen τ).image x = (σ.image x).instantiate τ := by
  cases hx : σ.get? x with
  | none =>
    have hleft : (σ.mapValues (Formula.instantiate τ)).get? x = none := by
      rw [NameMap.get?_mapValues, hx, Option.map_none]
    rw [image_of_unbound hx, Formula.instantiate_var]
    exact image_merge_of_unbound hleft
  | some f =>
    have hthen : (σ.andThen τ).get? x = some (f.instantiate τ) := by
      rw [get?_andThen, hx, Option.map_some, Option.some_or]
    rw [image_of_bound hx, image_of_bound hthen]

end Substitution

namespace Formula

theorem instantiate_instantiate (e : Formula) (σ τ : Substitution) :
    (e.instantiate σ).instantiate τ = e.instantiate (σ.andThen τ) := by
  rw [e.instantiate_eq_replaceNames σ, instantiate_replaceNames, instantiate_eq_replaceNames,
    funext (Substitution.image_andThen σ τ)]

/-- If the first substitution binds every name that occurs, those of the second one get hold only of
    what has been put in. -/
theorem instantiate_mapValues {e : Formula} {σ : Substitution}
    (h : ∀ x ∈ e.names, (σ.get? x).isSome) (τ : Substitution) :
    e.instantiate (σ.mapValues (instantiate τ)) = (e.instantiate σ).instantiate τ := by
  rw [instantiate_instantiate]
  refine instantiate_congr fun x hx => ?_
  have hbound : ((σ.mapValues (instantiate τ)).get? x).isSome := by
    rw [NameMap.get?_mapValues, Option.isSome_map]
    exact h x hx
  exact (Substitution.image_merge_of_bound hbound).symm

/-- Instantiating twice is instantiating once, with the bindings of the first substitution
    instantiated by the second one, and with those of the second one for all other names. What
    stands in an instance is a part of the formula, instantiated, or else a part of what has been
    put in for a variable on the way, as it is. Two instances of a formula are equal exactly if
    every variable that occurs in it, and so stands at some path, has the same formula put in for
    it, where one without a binding has itself. The variables of an instance are those of the
    formula that have no binding, and those of the bindings of the others. -/
theorem instantiate_simultaneous (e : Formula) (σ τ : Substitution) :
    (∀ x, (σ.andThen τ).get? x = ((σ.get? x).map (instantiate τ)).or (τ.get? x)) ∧
    (e.instantiate σ).instantiate τ = e.instantiate (σ.andThen τ) ∧
    (∀ q g, (e.instantiate σ).subformula q = some g ↔
      (∃ f, e.subformula q = some f ∧ f.instantiate σ = g) ∨
        ∃ u w x f, u ++ w = q ∧ e.subformula u = some (var x) ∧ σ.get? x = some f ∧
          f.subformula w = some g) ∧
    (e.instantiate σ = e.instantiate τ ↔
      ∀ x ∈ e.varNames, (σ.get? x).getD (var x) = (τ.get? x).getD (var x)) ∧
    (∀ x, x ∈ e.varNames ↔ ∃ q, e.subformula q = some (var x)) ∧
    ∀ y, y ∈ (e.instantiate σ).varNames ↔
      (y ∈ e.varNames ∧ σ.get? y = none) ∨
        ∃ x ∈ e.varNames, ∃ f, σ.get? x = some f ∧ y ∈ f.varNames := by
  refine ⟨σ.get?_andThen τ, e.instantiate_instantiate σ τ,
    fun q g => subformula_instantiate_eq_some_iff, ?_, fun x => ?_, fun y => ?_⟩
  · simp only [mem_varNames_iff]
    exact e.instantiate_eq_instantiate_iff
  · rw [mem_varNames_iff, mem_names_iff_subformula]
  · simp only [mem_varNames_iff, mem_names_instantiate_iff]

/-- Names that are bound to each other change places, and are not replaced once more. -/
example : (bin .implies (var "A") (var "B")).instantiate
    (.ofList [("A", var "B"), ("B", var "A")]) = bin .implies (var "B") (var "A") := by
  decide

end Formula

end PropCalc
