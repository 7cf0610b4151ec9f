/-
  Chains: several rules used in turn, each on what the one before it has reached.
-/
import PropCalc.Chain.StepSpec
import PropCalc.Derivation
import PropCalc.Rule.Catalog

namespace PropCalc.Chain

/-- Why a chain stops. Steps are counted from 1. -/
inductive Failure
  | unknownRule (step : Nat) (id : String)
  /-- The rule does not apply to the formula that `reached` has come to. -/
  | notApplicable (step : Nat) (rule : Rule) (direction : Direction) (reached : Derivation)
  deriving DecidableEq, Repr

/-- Where a step is taken: at the given position, else at the first match, else at the root. -/
def positionOf (spec : StepSpec) (r : Rule) (e : Formula) : Path :=
  match spec.position with
  | some p => p
  | none => (((r.allMatches spec.direction e).head?).map (·.position)).getD []

/-- Takes the steps in turn, the first of which has the number `n`. -/
def runFrom (c : Catalog) (time : Nat) (n : Nat) (d : Derivation) :
    List StepSpec → Except Failure Derivation
  | [] => .ok d
  | spec :: specs =>
    match c.get? spec.rule with
    | none => .error (.unknownRule n spec.rule)
    | some r =>
      let position := positionOf spec r d.current
      match r.apply spec.direction (some position) ∅ d.current with
      | none => .error (.notApplicable n r spec.direction d)
      | some next =>
        runFrom c time (n + 1) (d.record next r spec.direction position time) specs

/-- Takes the steps in turn from a formula. -/
def run (c : Catalog) (time : Nat) (start : Formula) (specs : List StepSpec) :
    Except Failure Derivation :=
  runFrom c time 1 (.begin start) specs

end PropCalc.Chain
