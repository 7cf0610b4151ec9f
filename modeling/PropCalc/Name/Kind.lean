/-
  The families of variable names that can be told from the name alone.
-/
import PropCalc.Name.Letters

namespace PropCalc

/-- Family of a variable name. -/
inductive NameKind
  /-- starts with a Greek letter -/
  | greek
  /-- a question mark and one small ASCII letter -/
  | ascii
  /-- one capital ASCII letter, the custom in rule patterns -/
  | pattern
  deriving DecidableEq, Repr

namespace NameKind

def label : NameKind → String
  | greek => "greek"
  | ascii => "ascii"
  | pattern => "pattern"

/-- The family that a sequence of characters belongs to, if any. -/
def ofChars : List Char → Option NameKind
  | [] => none
  | c :: cs =>
    if Name.isGreek c then some greek
    else match cs with
      | [] => if c.isUpper then some pattern else none
      | [d] => if c = '?' && d.isLower then some ascii else none
      | _ => none

/-- The family of a name, if it has one. -/
def ofName? (name : String) : Option NameKind := ofChars name.toList

end NameKind

end PropCalc
