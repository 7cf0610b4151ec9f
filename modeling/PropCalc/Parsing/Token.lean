/-
  The tokens of formula texts. Each connective has a sign of its own and an ASCII spelling,
  the constants can be written as words, and of two tokens that start at one place the
  longer one is taken.
-/
import PropCalc.Formula.Basic
import PropCalc.Name.Letters

namespace PropCalc

inductive Token
  | neg
  | op (op : Connective)
  | lparen
  | rparen
  | const (value : Bool)
  | var (name : String)
  deriving DecidableEq, Repr

namespace Token

/-- The token that a single sign stands for. -/
def ofSign? (c : Char) : Option Token :=
  if c = '∧' then some (op .and)
  else if c = '∨' then some (op .or)
  else if c = '→' then some (op .implies)
  else if c = '¬' ∨ c = '!' then some neg
  else if c = '(' then some lparen
  else if c = ')' then some rparen
  else if c = '⊤' then some (const true)
  else if c = '⊥' then some (const false)
  else none

/-- The token that two characters spell together. -/
def ofPair? (c d : Char) : Option Token :=
  if c = '/' ∧ d = '\\' then some (op .and)
  else if c = '\\' ∧ d = '/' then some (op .or)
  else if c = '-' ∧ d = '>' then some (op .implies)
  else if c = '?' ∧ d.isLower then some (var (String.ofList [c, d]))
  else none

/-- A word is a constant or the name of a variable. -/
def ofWord (word : List Char) : Token :=
  if word = ['t', 'r', 'u', 'e'] then const true
  else if word = ['f', 'a', 'l', 's', 'e'] then const false
  else var (String.ofList word)

/-- The token that starts the text, and how many characters it takes. -/
def read? : List Char → Option (Token × Nat)
  | [] => none
  | c :: cs =>
    if Name.starts c then
      let word := c :: cs.takeWhile Name.continues
      some (ofWord word, word.length)
    else match ofSign? c with
      | some t => some (t, 1)
      | none => cs.head?.bind fun d => (ofPair? c d).map (·, 2)

/-- No operand follows at once: the token ends one itself. -/
def endsOperand : Token → Bool
  | const _ | var _ | rparen => true
  | _ => false

end Token

end PropCalc
