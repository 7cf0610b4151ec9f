/-
  Places in a formula: paths of child indices, what stands at a path, and putting another
  formula there.
-/
import PropCalc.Formula.Basic

namespace PropCalc

/-- Child indices from the root down. A negation has the child 0, a binary formula 0 and 1. -/
abbrev Path := List Nat

namespace Formula

/-- What stands at a path, or `none` where the path leaves the tree. -/
def subformula (e : Formula) : Path → Option Formula
  | [] => some e
  | i :: p => e.children[i]?.bind fun child => child.subformula p

/-- The formula with `new` in place of what stands at the path, or `none` where the path
    leaves the tree. -/
def replaceAt : Formula → Path → Formula → Option Formula
  | _, [], new => some new
  | neg e, 0 :: p, new => (e.replaceAt p new).map neg
  | bin op l r, 0 :: p, new => (l.replaceAt p new).map (bin op · r)
  | bin op l r, 1 :: p, new => (r.replaceAt p new).map (bin op l)
  | _, _ :: _, _ => none

end Formula

end PropCalc
