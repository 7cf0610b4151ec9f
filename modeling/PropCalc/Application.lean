/-
  Applications: each single way of using a rule of a catalog on a formula.
-/
import PropCalc.Formula.Canonical
import PropCalc.Formula.PathText
import PropCalc.Rule.Catalog

namespace PropCalc

/-- A rule, used in a direction at a position. -/
structure Application where
  rule : Rule
  direction : Direction
  position : Path
  /-- the matched subformula, an arrow, and what takes its place -/
  description : String
  /-- the text of the whole formula afterwards -/
  preview : String
  deriving DecidableEq, Repr

namespace Application

/-- Two applications are listed as one if they agree in this. -/
def key (a : Application) : String × Direction × Path × String :=
  (a.rule.id, a.direction, a.position, a.preview)

/-- The list without those that agree with an earlier one. -/
def distinct : List Application → List Application
  | [] => []
  | a :: rest => a :: (distinct rest).filter fun b => b.key ≠ a.key

/-- The application of an oriented rule at a match. -/
def ofMatch? (r : Rule) (d : Direction) (o : Oriented) (e : Formula) (m : Match) :
    Option Application :=
  (o.putAt e m.position m.substitution).map fun result =>
    { rule := r
      direction := d
      position := m.position
      description := (o.pattern.instantiate m.substitution).text ++ " → " ++
        (o.replacement.instantiate m.substitution).text
      preview := result.text }

/-- Does the application: uses its rule at its position. -/
def perform (a : Application) (given : Substitution) (e : Formula) : Option Formula :=
  a.rule.apply a.direction (some a.position) given e

end Application

/-- The applications of a rule in one direction, in pre-order of the positions. -/
def Rule.applications (r : Rule) (d : Direction) (e : Formula) : List Application :=
  match r.oriented d with
  | .ok o => (e.allMatches o.pattern).filterMap (Application.ofMatch? r d o e)
  | .error _ => []

/-- The applications of all rules in order, each from left to right and then from right to
    left, without repeats. -/
def Catalog.applications (c : Catalog) (e : Formula) : List Application :=
  Application.distinct <|
    c.rules.flatMap fun r => Direction.both.flatMap fun d => r.applications d e

end PropCalc
