/-
  Bindings as a user writes them: `NAME=FORMULA`.
-/
import PropCalc.Parsing.Parser
import PropCalc.Text.Cut

namespace PropCalc

/-- Why a text is no binding. -/
inductive InstantiationError
  | noEqualsSign (text : String)
  | badFormula (formula : String) (reason : ParseError)
  deriving DecidableEq, Repr

def InstantiationError.message : InstantiationError → String
  | .noEqualsSign text => s!"expected `NAME=FORMULA`, got `{text}`"
  | .badFormula formula reason => s!"invalid formula `{formula}`: " ++ reason.message

namespace Instantiation

/-- Reads the characters of a binding. The name ends at the first `=`; blanks around it do
    not count. -/
def readChars (cs : List Char) : Except InstantiationError (String × Formula) :=
  match Text.cutAt '=' cs with
  | none => .error (.noEqualsSign (String.ofList cs))
  | some (name, formula) =>
    match Formula.ofChars formula with
    | .ok e => .ok (String.ofList (Text.trim name), e)
    | .error reason => .error (.badFormula (String.ofList formula) reason)

/-- Reads a binding. -/
def read (text : String) : Except InstantiationError (String × Formula) := readChars text.toList

end Instantiation

end PropCalc
