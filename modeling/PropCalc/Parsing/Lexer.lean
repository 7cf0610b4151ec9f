/-
  Formula texts as sequences of lexemes: tokens together with their spelling and their place.
  Blanks separate lexemes and are dropped; any other character must belong to a token.
-/
import PropCalc.Parsing.ParseError
import PropCalc.Parsing.Token
import PropCalc.Text.Blank

namespace PropCalc

/-- A token as it stands in a text, `offset` UTF-8 bytes from the start. -/
structure Lexeme where
  token : Token
  chars : List Char
  offset : Nat
  deriving DecidableEq, Repr

namespace Lexeme

/-- The spelling. -/
def text (l : Lexeme) : String := String.ofList l.chars

/-- The lexemes of a text that starts at `offset`. The first `skip` characters belong to a
    token that has been read already. -/
def scan (offset skip : Nat) : List Char → Except ParseError (List Lexeme)
  | [] => .ok []
  | c :: cs =>
    let next := offset + c.utf8Size
    match skip with
    | skip + 1 => scan next skip cs
    | 0 =>
      if Text.isBlank c then scan next 0 cs
      else match Token.read? (c :: cs) with
        | none => .error (.unknownCharacter c offset)
        | some (token, length) =>
          (scan next (length - 1) cs).map (⟨token, (c :: cs).take length, offset⟩ :: ·)

/-- All lexemes of a text, or its first unknown character. -/
def ofChars (cs : List Char) : Except ParseError (List Lexeme) := scan 0 0 cs

end Lexeme

end PropCalc
