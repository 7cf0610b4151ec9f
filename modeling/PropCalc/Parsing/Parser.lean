/-
  Reading formulas.

    implication := term (→ term)*
    term        := factor (∨ factor)*
    factor      := primary (∧ primary)*
    primary     := ¬ primary | ( implication ) | constant | variable

  All three chains fold to the left. The reader takes one token at a time. Between two tokens
  it knows, for each parenthesis that is open, what stands to the left of the next operand,
  and whether an operand or a connective must come. It stops at the first token that no
  formula can have at that place, and the stop alone decides the error.
-/
import PropCalc.Parsing.Lexer

namespace PropCalc

namespace Formula

/-- The formula under `n` negations. -/
def negated : Nat → Formula → Formula
  | 0, e => e
  | n + 1, e => neg (negated n e)

/-- `e` as right operand of `op` if there is a left one, else `e` alone. -/
def joined (op : Connective) : Option Formula → Formula → Formula
  | none, e => e
  | some left, e => bin op left e

end Formula

namespace Parser

/-- What stands to the left of the next operand since the last open parenthesis: the left
    operands of the `→`, `∨` and `∧` that wait for it, and the negations in front of it. -/
structure Level where
  implying : Option Formula
  disjunct : Option Formula
  conjunct : Option Formula
  negations : Nat
  deriving DecidableEq, Repr

namespace Level

/-- Nothing has been read. -/
def fresh : Level := ⟨none, none, none, 0⟩

/-- The factor that ends with the operand `e`. -/
def factor (l : Level) (e : Formula) : Formula :=
  Formula.joined .and l.conjunct (Formula.negated l.negations e)

/-- The term that ends with the factor `e`. -/
def term (l : Level) (e : Formula) : Formula := Formula.joined .or l.disjunct e

/-- The implication that ends with the factor `e`. -/
def whole (l : Level) (e : Formula) : Formula := Formula.joined .implies l.implying (l.term e)

/-- The level after the factor `e` and a connective. -/
def continued (l : Level) (e : Formula) : Connective → Level
  | .and => ⟨l.implying, l.disjunct, some e, 0⟩
  | .or => ⟨l.implying, some (l.term e), none, 0⟩
  | .implies => ⟨some (l.whole e), none, none, 0⟩

end Level

/-- The reader between two tokens. `outer` holds a level for each open parenthesis, the
    innermost first. -/
inductive State
  /-- An operand must come. -/
  | awaiting (level : Level) (outer : List Level)
  /-- The factor `e` has just been read. -/
  | complete (level : Level) (e : Formula) (outer : List Level)
  deriving DecidableEq, Repr

/-- The state before the first token. -/
def start : State := .awaiting .fresh []

/-- The state after a token, or `none` if no formula goes on with it. -/
def step : State → Token → Option State
  | .awaiting l outer, .neg => some (.awaiting { l with negations := l.negations + 1 } outer)
  | .awaiting l outer, .lparen => some (.awaiting .fresh (l :: outer))
  | .awaiting l outer, .const b => some (.complete l (l.factor (.const b)) outer)
  | .awaiting l outer, .var x => some (.complete l (l.factor (.var x)) outer)
  | .complete l e outer, .op op => some (.awaiting (l.continued e op) outer)
  | .complete l e (m :: outer), .rparen => some (.complete m (m.factor (l.whole e)) outer)
  | _, _ => none

/-- Takes tokens as long as one fits. Gives the last state and the lexemes that are left. -/
def run : State → List Lexeme → State × List Lexeme
  | s, [] => (s, [])
  | s, l :: ls =>
    match step s l.token with
    | some s' => run s' ls
    | none => (s, l :: ls)

/-- What the last state and the lexemes left over say about the text. -/
def outcome : State × List Lexeme → Except ParseError Formula
  | (.awaiting .., []) => .error .unexpectedEnd
  | (.awaiting .., l :: _) => .error (.unexpectedToken l.text)
  | (.complete _ _ (_ :: _), _) => .error .missingClosingParenthesis
  | (.complete l e [], []) => .ok (l.whole e)
  | (.complete _ _ [], left) => .error (.trailingTokens (left.map Lexeme.text))

end Parser

namespace Formula

/-- Reads the formula that lexemes spell. -/
def ofLexemes (ls : List Lexeme) : Except ParseError Formula :=
  Parser.outcome (Parser.run Parser.start ls)

/-- Reads the formula that characters spell. An unknown character is reported before any
    other error. -/
def ofChars (cs : List Char) : Except ParseError Formula :=
  (Lexeme.ofChars cs).bind ofLexemes

/-- Reads a formula. -/
def parse (text : String) : Except ParseError Formula := ofChars text.toList

end Formula

end PropCalc
