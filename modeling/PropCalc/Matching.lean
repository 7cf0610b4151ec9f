/-
  Matching a pattern against a formula and its subformulas.

  The variables of the pattern stand for any formula, each for the same one wherever it
  occurs; the variables of the subject are atoms. Operands are never exchanged.
-/
import PropCalc.Formula.Walk
import PropCalc.Substitution

namespace PropCalc

namespace Formula

/-- Adds to `σ` the bindings under which the pattern becomes `subject`, or gives `none` if
    there are none that agree with `σ`. -/
def extendMatch : (pattern subject : Formula) → Substitution → Option Substitution
  | .var x, e, σ =>
    match σ.get? x with
    | none => some (σ.insert x e)
    | some bound => if bound = e then some σ else none
  | .const a, .const b, σ => if a = b then some σ else none
  | .neg p, .neg e, σ => extendMatch p e σ
  | .bin op p q, .bin op' l r, σ =>
    if op = op' then (extendMatch p l σ).bind (extendMatch q r) else none
  | _, _, _ => none

/-- The bindings under which `pattern` becomes `subject`. -/
def unify (subject pattern : Formula) : Option Substitution := extendMatch pattern subject ∅

end Formula

/-- A place where a pattern matches, with its bindings there. -/
structure Match where
  position : Path
  substitution : Substitution
  deriving DecidableEq

namespace Formula

/-- Every match of `pattern` in `subject`, in pre-order of the positions. -/
def allMatches (subject pattern : Formula) : List Match :=
  subject.walk.filterMap fun (p, e) => (e.unify pattern).map (⟨p, ·⟩)

/-- The first match in pre-order. -/
def firstMatch (subject pattern : Formula) : Option Match :=
  subject.walk.findSome? fun (p, e) => (e.unify pattern).map (⟨p, ·⟩)

/-- The match at one position. -/
def matchAt (subject pattern : Formula) (position : Path) : Option Match :=
  (subject.subformula position).bind fun e => (e.unify pattern).map (⟨position, ·⟩)

end Formula

end PropCalc
