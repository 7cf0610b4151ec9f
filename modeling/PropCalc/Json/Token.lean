/-
  The tokens of JSON texts.
-/
import PropCalc.Json.Text
import PropCalc.Json.Value

namespace PropCalc.Json

inductive Token
  | openObj
  | closeObj
  | openArr
  | closeArr
  | comma
  | colon
  | null
  | bool (value : Bool)
  | num (value : Option Nat)
  | str (text : Option String)
  deriving DecidableEq, Repr

/-- Blanks between tokens. -/
def isSpace (c : Char) : Bool := c = ' ' || c = '\n' || c = '\t' || c = '\r'

/-- How many characters the fraction takes that the text starts with; 0 if none starts,
    `none` if its digits are missing. -/
def fractionLength? : List Char → Option Nat
  | '.' :: cs =>
    let digits := cs.takeWhile Char.isDigit
    if digits.isEmpty then none else some (digits.length + 1)
  | _ => some 0

/-- The same for an exponent. -/
def exponentLength? : List Char → Option Nat
  | [] => some 0
  | e :: cs =>
    if e = 'e' ∨ e = 'E' then
      let sign := match cs with
        | '+' :: _ | '-' :: _ => 1
        | _ => 0
      let digits := (cs.drop sign).takeWhile Char.isDigit
      if digits.isEmpty then none else some (digits.length + sign + 1)
    else some 0

/-- Reads a number, and how many characters it takes. It has no superfluous zero in front. -/
def readNumber (cs : List Char) : Option (Option Nat × Nat) := do
  let sign := if cs.head? = some '-' then 1 else 0
  let digits := (cs.drop sign).takeWhile Char.isDigit
  if digits.isEmpty ∨ (digits.head? = some '0' ∧ digits.length ≠ 1) then none
  else
    let whole := sign + digits.length
    let fraction ← fractionLength? (cs.drop whole)
    let exponent ← exponentLength? (cs.drop (whole + fraction))
    let length := whole + fraction + exponent
    return (if length = digits.length then some (Nat.ofDigitChars 10 digits 0) else none, length)

/-- The punctuation token that a character is. -/
def Token.ofSign? (c : Char) : Option Token :=
  if c = '\x7b' then some openObj
  else if c = '\x7d' then some closeObj
  else if c = '[' then some openArr
  else if c = ']' then some closeArr
  else if c = ',' then some comma
  else if c = ':' then some colon
  else none

/-- The token that starts the text, and how many characters it takes. -/
def Token.read? : List Char → Option (Token × Nat)
  | [] => none
  | c :: cs =>
    match Token.ofSign? c with
    | some t => some (t, 1)
    | none =>
      if c = '"' then (readString cs).map fun (text, length) => (.str text, length + 1)
      else if ['n', 'u', 'l', 'l'].isPrefixOf (c :: cs) then some (.null, 4)
      else if ['t', 'r', 'u', 'e'].isPrefixOf (c :: cs) then some (.bool true, 4)
      else if ['f', 'a', 'l', 's', 'e'].isPrefixOf (c :: cs) then some (.bool false, 5)
      else (readNumber (c :: cs)).map fun (value, length) => (.num value, length)

/-- The tokens of a text whose first `skip` characters belong to one that has been read. -/
def scan (skip : Nat) : List Char → Option (List Token)
  | [] => some []
  | c :: cs =>
    match skip with
    | skip + 1 => scan skip cs
    | 0 =>
      if isSpace c then scan 0 cs
      else (Token.read? (c :: cs)).bind fun (t, length) => (scan (length - 1) cs).map (t :: ·)

end PropCalc.Json
