/-
  The variables of a formula, each once and in increasing order, and those whose name
  tells their family.
-/
import PropCalc.Formula.Basic
import PropCalc.Name.Kind
import PropCalc.NameMap

namespace PropCalc.Formula

/-- The names of the variables, each once, in increasing order. -/
def varNames (e : Formula) : List String :=
  (NameMap.ofList (e.names.map fun x => (x, ()))).keys

/-- The variables whose name has a family, with it. -/
def classified (e : Formula) : NameMap NameKind :=
  .ofList (e.varNames.filterMap fun x => (NameKind.ofName? x).map fun kind => (x, kind))

/-- The variables of `replacement` that have a family and do not occur in `pattern`. No
    match of `pattern` binds them. -/
def introduced (pattern replacement : Formula) : NameMap NameKind :=
  replacement.classified.filter fun x _ => !pattern.names.contains x

end PropCalc.Formula
