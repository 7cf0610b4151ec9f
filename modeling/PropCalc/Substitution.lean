/-
  Substitutions: formulas for variables, put in all at once.
-/
import PropCalc.Formula.Basic
import PropCalc.NameMap

namespace PropCalc

/-- Bindings of variable names to formulas. -/
abbrev Substitution := NameMap Formula

/-- The formula with every bound variable replaced by its binding. Variables without a
    binding stay, and what is put in is not looked into again. -/
def Formula.instantiate (σ : Substitution) : Formula → Formula
  | .var x => (σ.get? x).getD (.var x)
  | .const b => .const b
  | .neg e => .neg (e.instantiate σ)
  | .bin op l r => .bin op (l.instantiate σ) (r.instantiate σ)

end PropCalc
