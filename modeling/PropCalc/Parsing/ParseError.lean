/-
  Why a text is no formula.
-/

namespace PropCalc

inductive ParseError
  /-- No token starts here. The offset counts UTF-8 bytes. -/
  | unknownCharacter (character : Char) (offset : Nat)
  /-- The text ends where an operand must come. -/
  | unexpectedEnd
  /-- A parenthesis is open, and neither its end nor a connective follows. -/
  | missingClosingParenthesis
  /-- An operand must come, and this token cannot start one. -/
  | unexpectedToken (lexeme : String)
  /-- A whole formula has been read, and these tokens are left. -/
  | trailingTokens (lexemes : List String)
  deriving DecidableEq, Repr

def ParseError.message : ParseError → String
  | .unknownCharacter c offset => s!"unknown character '{c}' at offset {offset}"
  | .unexpectedEnd => "unexpected end of input"
  | .missingClosingParenthesis => "expected closing parenthesis"
  | .unexpectedToken lexeme => s!"unexpected token: {lexeme}"
  | .trailingTokens lexemes =>
    "unexpected tokens after expression: " ++ " ".intercalate lexemes

end PropCalc
