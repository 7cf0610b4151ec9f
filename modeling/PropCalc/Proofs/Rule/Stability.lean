/-
  Matching and using a rule go along with an instantiation of the subject.

  If a pattern matches a formula, it matches every instance of it, and its names are bound to the
  instantiated formulas (`unify_instantiate`). A rule that puts in no new names leads from an
  instance of a formula to the instance of what it leads to, at the same position
  (`apply_instantiate`). A new name would stay as it is in the one and be instantiated in the other.
-/
import PropCalc.Proofs.Rule.Locality
import PropCalc.Proofs.Substitution.Composition

namespace PropCalc

namespace Formula

variable {e pattern : Formula} {σ : Substitution}

/-- A pattern that matches a formula matches its instances, with the bindings instantiated. -/
theorem unify_instantiate (h : e.unify pattern = some σ) (t : Substitution) :
    (e.instantiate t).unify pattern = some (σ.mapValues (instantiate t)) := by
  obtain ⟨hbound, rfl⟩ := (unify_eq_some_iff e pattern σ).mp h
  refine (unify_eq_some_iff _ pattern _).mpr ⟨fun x => ?_, ?_⟩
  · rw [NameMap.get?_mapValues, Option.isSome_map, hbound]
  · exact instantiate_mapValues (fun x hx => (hbound x).mpr hx) t

end Formula

namespace Rule

/-- Instantiating what a rule without new names is used on is instantiating what it leads to. -/
theorem apply_instantiate {r : Rule} {d : Direction} {o : Oriented} (ho : r.oriented d = .ok o)
    (hnew : o.replacement.names ⊆ o.pattern.names) {q : Path} {e e' : Formula}
    (h : r.apply d (some q) ∅ e = some e') (t : Substitution) :
    r.apply d (some q) ∅ (e.instantiate t) = some (e'.instantiate t) := by
  obtain ⟨f, _, hf, hroot, hput⟩ := apply_at_eq_some_iff.mp h
  obtain ⟨σ, hσ, rfl⟩ := (apply_root_eq_some_iff ho).mp hroot
  have hbound : ∀ x ∈ o.replacement.names, (σ.get? x).isSome := fun x hx =>
    ((Formula.unify_sound hσ).1 x).mpr (hnew hx)
  have hroot' : r.apply d (some []) ∅ (f.instantiate t) =
      some ((o.replacement.instantiate σ).instantiate t) :=
    (apply_root_eq_some_iff ho).mpr
      ⟨_, Formula.unify_instantiate hσ t, Formula.instantiate_mapValues hbound t⟩
  exact apply_at_eq_some_iff.mpr ⟨_, _, Formula.subformula_instantiate hf t, hroot',
    Formula.replaceAt_instantiate hput t⟩

/-- After an instantiation of the subject a pattern still matches, with each of its names bound to
    the instantiated formula, and a rule without new names leads to the instantiated result. -/
theorem stable_under_instantiation (t : Substitution) :
    (∀ (e pattern : Formula) (σ : Substitution), e.unify pattern = some σ →
      ∃ τ : Substitution, (e.instantiate t).unify pattern = some τ ∧
        ∀ x, τ.get? x = (σ.get? x).map (Formula.instantiate t)) ∧
    ∀ (r : Rule) d o, r.oriented d = .ok o → o.replacement.names ⊆ o.pattern.names →
      ∀ q e e', r.apply d (some q) ∅ e = some e' →
        r.apply d (some q) ∅ (e.instantiate t) = some (e'.instantiate t) := by
  constructor
  · intro e pattern σ hσ
    exact ⟨_, Formula.unify_instantiate hσ t, NameMap.get?_mapValues _ σ⟩
  · intro r d o ho hnew q e e' h
    exact apply_instantiate ho hnew h t

/-- A formula to be factored out, with `a` on both sides. -/
def factorableTwice : Formula :=
  .bin .or (.bin .and (.var "a") (.var "b")) (.bin .and (.var "a") (.var "C"))

/-- Both occurrences of `a` become the same formula, so that it can still be factored out. What is
    put in has names of the rule, and `a` itself. -/
theorem stable_under_instantiation_factorableTwice :
    let t : Substitution := .ofList
      [("a", .bin .implies (.var "a") (.var "B")), ("C", .neg (.var "A"))]
    let pattern : Formula :=
      .bin .or (.bin .and (.var "A") (.var "B")) (.bin .and (.var "A") (.var "C"))
    factorableTwice.unify pattern =
      some (.ofList [("A", .var "a"), ("B", .var "b"), ("C", .var "C")]) ∧
    (factorableTwice.instantiate t).text = "((a → B) ∧ b) ∨ ((a → B) ∧ ¬A)" ∧
    (∃ τ, (factorableTwice.instantiate t).unify pattern = some τ ∧
      τ.get? "A" = some (.bin .implies (.var "a") (.var "B"))) ∧
    standard[4].apply .rightToLeft (some [0]) ∅ (.neg factorableTwice) =
      some (.neg (.bin .and (.var "a") (.bin .or (.var "b") (.var "C")))) ∧
    standard[4].apply .rightToLeft (some [0]) ∅ ((Formula.neg factorableTwice).instantiate t) =
      some (.neg (.bin .and (.bin .implies (.var "a") (.var "B"))
        (.bin .or (.var "b") (.neg (.var "A"))))) := by
  intro t pattern
  obtain ⟨hunify, happly⟩ := stable_under_instantiation t
  have hσ : factorableTwice.unify pattern =
      some (.ofList [("A", .var "a"), ("B", .var "b"), ("C", .var "C")]) := by
    decide +kernel
  have ho : standard[4].oriented .rightToLeft =
      .ok ⟨pattern, .bin .and (.var "A") (.bin .or (.var "B") (.var "C"))⟩ := by
    decide +kernel
  have h : standard[4].apply .rightToLeft (some [0]) ∅ (.neg factorableTwice) =
      some (.neg (.bin .and (.var "a") (.bin .or (.var "b") (.var "C")))) := by
    decide +kernel
  obtain ⟨τ, hτ, hget⟩ := hunify _ _ _ hσ
  refine ⟨hσ, by decide +kernel, ⟨τ, hτ, ?_⟩, h, ?_⟩
  · rw [hget "A"]
    decide +kernel
  · rw [happly _ _ _ ho (by decide) _ _ _ h]
    decide +kernel

end Rule

end PropCalc
