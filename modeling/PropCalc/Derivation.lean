/-
  Derivations: a formula and the steps taken from it.
-/
import PropCalc.Formula.Canonical
import PropCalc.Formula.PathText
import PropCalc.Rule.Basic

namespace PropCalc

/-- One use of a rule that led from a formula to another. -/
structure Step where
  source : Formula
  target : Formula
  rule : Rule
  direction : Direction
  position : Path
  /-- milliseconds since the start of 1970 -/
  time : Nat
  deriving DecidableEq, Repr

/-- A step does not start at the formula that the derivation has reached. -/
structure Disconnected where
  expected : Formula
  found : Formula
  deriving DecidableEq, Repr

def Disconnected.message (d : Disconnected) : String :=
  "step starts from `" ++ d.found.text ++ "` but the derivation is at `" ++ d.expected.text ++ "`"

/-- A formula and the steps taken from it, the first step first. -/
structure Derivation where
  start : Formula
  steps : List Step
  deriving DecidableEq, Repr

namespace Derivation

/-- No step has been taken. -/
def begin (start : Formula) : Derivation := ⟨start, []⟩

/-- The formula that has been reached. -/
def current (d : Derivation) : Formula := (d.steps.getLast?.map (·.target)).getD d.start

/-- Adds a step that starts where the derivation stands. -/
def push (d : Derivation) (s : Step) : Except Disconnected Derivation :=
  if s.source = d.current then .ok ⟨d.start, d.steps ++ [s]⟩
  else .error ⟨d.current, s.source⟩

/-- Adds the step from the reached formula to `target`. -/
def record (d : Derivation) (target : Formula) (r : Rule) (direction : Direction)
    (position : Path) (time : Nat) : Derivation :=
  ⟨d.start, d.steps ++ [⟨d.current, target, r, direction, position, time⟩]⟩

/-- Takes the last step back. Gives that step and the derivation before it. -/
def undo (d : Derivation) : Option (Step × Derivation) :=
  d.steps.getLast?.map fun s => (s, ⟨d.start, d.steps.dropLast⟩)

/-- A step's line: the formula reached, the rule, its direction and position. -/
def stepLine (s : Step) : String :=
  "≡ " ++ s.target.text ++ "    [" ++ s.rule.id ++ ", " ++ s.direction.label ++ " at " ++
    s.position.text ++ "]"

/-- The start and a line for each step. -/
def text (d : Derivation) : String :=
  "\n".intercalate (("  " ++ d.start.text) :: d.steps.map stepLine)

end Derivation

end PropCalc
