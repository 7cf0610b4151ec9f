/-
  The canonical text of a formula.

  Every operand that is a binary formula stands in parentheses, whatever the precedences
  say; leaves and negations never do. One blank stands on each side of a connective.
-/
import PropCalc.Formula.Basic

namespace PropCalc.Formula

/-- The canonical text in front of other characters. -/
def write : Formula → List Char → List Char
  | var x, rest => x.toList ++ rest
  | const true, rest => '⊤' :: rest
  | const false, rest => '⊥' :: rest
  | neg e, rest => '¬' :: if e.isBinary then '(' :: e.write (')' :: rest) else e.write rest
  | bin op l r, rest =>
    let right := ' ' :: op.sign :: ' ' ::
      if r.isBinary then '(' :: r.write (')' :: rest) else r.write rest
    if l.isBinary then '(' :: l.write (')' :: right) else l.write right

/-- The canonical text. -/
def text (e : Formula) : String := String.ofList (e.write [])

end PropCalc.Formula
