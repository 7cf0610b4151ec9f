/-
  Steps as a user writes them: a rule id, then `:ltr` or `:rtl` if wanted, then `@` and a
  path if the position matters.
-/
import PropCalc.Formula.PathText
import PropCalc.Rule.Basic
import PropCalc.Text.Cut

namespace PropCalc

/-- A rule by its id, the direction to use it in, and where. -/
structure StepSpec where
  rule : String
  direction : Direction
  position : Option Path
  deriving DecidableEq, Repr

/-- Why a text specifies no step. -/
inductive StepSpecError
  | badPosition (position : String) (reason : Text.IndexError)
  | unknownDirection (direction : String)
  | missingRule
  deriving DecidableEq, Repr

def StepSpecError.message : StepSpecError → String
  | .badPosition position reason => s!"invalid position `{position}`: " ++ reason.message
  | .unknownDirection direction => s!"unknown direction `{direction}`, use `ltr` or `rtl`"
  | .missingRule => "missing rule id"

namespace StepSpec

/-- Reads the position, which follows the first `@`, and gives what stands before it. -/
def readPosition (cs : List Char) : Except StepSpecError (List Char × Option Path) :=
  match Text.cutAt '@' cs with
  | none => .ok (cs, none)
  | some (head, position) =>
    match Path.readChars position with
    | .ok p => .ok (head, some p)
    | .error reason => .error (.badPosition (String.ofList position) reason)

/-- Reads the direction, which follows the first `:`, and gives the rule id before it. -/
def readDirection (cs : List Char) : Except StepSpecError (List Char × Direction) :=
  match Text.cutAt ':' cs with
  | none => .ok (cs, .leftToRight)
  | some (rule, direction) =>
    if direction = ['l', 't', 'r'] then .ok (rule, .leftToRight)
    else if direction = ['r', 't', 'l'] then .ok (rule, .rightToLeft)
    else .error (.unknownDirection (String.ofList direction))

/-- Reads the characters of a step. A bad position is reported first, then an unknown
    direction, then a missing id. -/
def readChars (cs : List Char) : Except StepSpecError StepSpec := do
  let (head, position) ← readPosition cs
  let (rule, direction) ← readDirection head
  if rule.isEmpty then .error .missingRule
  else .ok ⟨String.ofList rule, direction, position⟩

/-- Reads a step. -/
def read (text : String) : Except StepSpecError StepSpec := readChars text.toList

end StepSpec

end PropCalc
