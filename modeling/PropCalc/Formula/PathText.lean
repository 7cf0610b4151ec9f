/-
  Paths as text: `[1,0]`, and `[]` for the root. Reading also takes `1,0`, blanks around
  each index, and the empty text for the root.
-/
import PropCalc.Formula.Path
import PropCalc.Text.Blank
import PropCalc.Text.Decimal

namespace PropCalc.Path

/-- The characters of a path's text. -/
def chars (p : Path) : List Char :=
  '[' :: (List.intercalate [','] (p.map Text.decimal) ++ [']'])

/-- The text of a path. -/
def text (p : Path) : String := String.ofList (chars p)

/-- The text between an opening bracket and a closing one, if it has both; else all of it. -/
def unbracketed (cs : List Char) : List Char :=
  match cs with
  | '[' :: inner => if inner.getLast? = some ']' then inner.dropLast else cs
  | _ => cs

/-- Reads the characters of a path. The leftmost bad index gives the error. -/
def readChars (cs : List Char) : Except Text.IndexError Path :=
  let inner := unbracketed (Text.trim cs)
  if Text.allBlank inner then .ok []
  else (inner.splitOn ',').mapM fun item => Text.readIndex (Text.trim item)

/-- Reads a path. -/
def read (text : String) : Except Text.IndexError Path := readChars text.toList

end PropCalc.Path
