/-
  Where the names of a result come from.

  A name of what using a rule leads to comes from the formula, from what is given, or it is left in
  its place: the replacement has it, the pattern does not, and nothing is given for it
  (`mem_names_of_apply`). All names that are left are really in the result (`mem_names_of_left`).
-/
import PropCalc.Proofs.Formula.Names
import PropCalc.Proofs.Rule.Soundness

namespace PropCalc

/-- The name occurs in a formula that some name is bound to. -/
def Substitution.Mentions (σ : Substitution) (y : String) : Prop :=
  ∃ x f, σ.get? x = some f ∧ y ∈ f.names

/-- The name stays as it is: only the side that is put in has it, and nothing is given for it. -/
def Oriented.Leaves (o : Oriented) (given : Substitution) (y : String) : Prop :=
  y ∈ o.replacement.names ∧ y ∉ o.pattern.names ∧ given.get? y = none

/-! ## The names of what is put in -/

namespace Match.Holds

variable {m : Match} {e : Formula} {o : Oriented} {given : Substitution} {y : String}

theorem mem_names_instantiate_merge (hm : m.Holds e o.pattern)
    (hy : y ∈ (o.replacement.instantiate (m.substitution.merge given)).names) :
    y ∈ e.names ∨ given.Mentions y ∨ o.Leaves given y := by
  rcases Formula.mem_names_instantiate_iff.mp hy with
    ⟨hreplacement, hbound⟩ | ⟨x, -, f, hbound, hy⟩
  · -- neither binds the name, so it stands for itself, and the pattern does not have it
    rw [NameMap.get?_merge, Option.or_eq_none_iff] at hbound
    obtain ⟨hgiven, hmatched⟩ := hbound
    have hnew : y ∉ o.pattern.names := by
      rw [← hm.isSome_get?_iff, hmatched]
      simp
    exact .inr (.inr ⟨hreplacement, hnew, hgiven⟩)
  · rw [NameMap.get?_merge, Option.or_eq_some_iff] at hbound
    rcases hbound with hgiven | ⟨-, hmatched⟩
    · exact .inr (.inl ⟨x, f, hgiven, hy⟩)
    · exact .inl (hm.mem_names_of_bound hmatched hy)

theorem mem_names_instantiate_merge_of_left (hm : m.Holds e o.pattern)
    (hy : o.Leaves given y) :
    y ∈ (o.replacement.instantiate (m.substitution.merge given)).names := by
  obtain ⟨hreplacement, hnew, hgiven⟩ := hy
  have hmatched : m.substitution.get? y = none := by
    rw [← hm.isSome_get?_iff] at hnew
    exact Option.not_isSome_iff_eq_none.mp hnew
  refine Formula.mem_names_instantiate_iff.mpr (.inl ⟨hreplacement, ?_⟩)
  rw [NameMap.get?_merge, hgiven, hmatched, Option.none_or]

end Match.Holds

/-! ## The names of the result -/

namespace Rule

variable {r : Rule} {d : Direction} {o : Oriented} {position : Option Path}
  {given : Substitution} {e result : Formula} {y : String}

theorem mem_names_of_apply (ho : r.oriented d = .ok o)
    (h : r.apply d position given e = some result) (hy : y ∈ result.names) :
    y ∈ e.names ∨ given.Mentions y ∨ o.Leaves given y := by
  obtain ⟨o', m, ho', hm, -, hput⟩ := apply_eq_some h
  obtain rfl : o' = o := Except.ok.inj (ho'.symm.trans ho)
  rcases Formula.mem_names_of_replaceAt hput hy with hy | hy
  · exact .inl hy
  · exact hm.mem_names_instantiate_merge hy

theorem mem_names_of_left (ho : r.oriented d = .ok o)
    (h : r.apply d position given e = some result) (hy : o.Leaves given y) :
    y ∈ result.names := by
  obtain ⟨o', m, ho', hm, -, hput⟩ := apply_eq_some h
  obtain rfl : o' = o := Except.ok.inj (ho'.symm.trans ho)
  exact Formula.mem_names_of_subformula (Formula.subformula_of_replaceAt hput)
    (hm.mem_names_instantiate_merge_of_left hy)

end Rule

end PropCalc
