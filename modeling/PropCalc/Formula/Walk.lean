/-
  The subformulas of a formula in pre-order, each with its path: a node comes before its
  operands, the left operand with all its parts before the right one.
-/
import PropCalc.Formula.Path

namespace PropCalc.Formula

/-- The operands of the formula at `p`, each with its path. -/
def childrenAt (p : Path) (e : Formula) : List (Path × Formula) :=
  e.children.mapIdx fun i child => (p ++ [i], child)

/-- Visits at most `n` nodes: the first pending one, then its operands, then the others. -/
def visit : Nat → List (Path × Formula) → List (Path × Formula)
  | 0, _ => []
  | _, [] => []
  | n + 1, (p, e) :: pending => (p, e) :: visit n (e.childrenAt p ++ pending)

/-- All subformulas with their paths, in pre-order. -/
def walk (e : Formula) : List (Path × Formula) := visit e.size [([], e)]

end PropCalc.Formula
