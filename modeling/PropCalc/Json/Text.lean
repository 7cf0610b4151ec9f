/-
  Strings in JSON: how a text is quoted, and what a quoted string denotes.

  Quoting escapes the quote, the backslash and the control characters below U+0020, by a
  letter where JSON has one and else by four hexadecimal digits. Reading takes every escape of
  JSON; two escapes in a row that form a surrogate pair denote one character.
-/

namespace PropCalc.Json

/-- A digit of an escape, in lower case. -/
def hexDigit (n : Nat) : Char := Nat.digitChar n

/-- A character inside quotes. -/
def escape (c : Char) : List Char :=
  if c = '"' then ['\\', '"']
  else if c = '\\' then ['\\', '\\']
  else if c = '\x08' then ['\\', 'b']
  else if c = '\x0c' then ['\\', 'f']
  else if c = '\n' then ['\\', 'n']
  else if c = '\r' then ['\\', 'r']
  else if c = '\t' then ['\\', 't']
  else if c.toNat < 0x20 then
    ['\\', 'u', '0', '0', hexDigit (c.toNat / 16), hexDigit (c.toNat % 16)]
  else [c]

/-- A text in quotes. -/
def quote (cs : List Char) : List Char := '"' :: (cs.flatMap escape ++ ['"'])

/-- What one item of a quoted string denotes: a character, or a 16-bit unit by its number. -/
inductive Piece
  | char (c : Char)
  | unit (n : Nat)
  deriving DecidableEq, Repr

/-- The value of a hexadecimal digit. -/
def hexValue? (c : Char) : Option Nat :=
  if c.isDigit then some (c.toNat - '0'.toNat)
  else if 'a' ≤ c ∧ c ≤ 'f' then some (c.toNat - 'a'.toNat + 10)
  else if 'A' ≤ c ∧ c ≤ 'F' then some (c.toNat - 'A'.toNat + 10)
  else none

/-- The number that four hexadecimal digits write. -/
def hexNumber? (a b c d : Char) : Option Nat := do
  return ((((← hexValue? a) * 16 + (← hexValue? b)) * 16 + (← hexValue? c)) * 16 + (← hexValue? d))

/-- The character that a backslash and this letter stand for. -/
def escaped? (c : Char) : Option Char :=
  if c = '"' ∨ c = '\\' ∨ c = '/' then some c
  else if c = 'b' then some '\x08'
  else if c = 'f' then some '\x0c'
  else if c = 'n' then some '\n'
  else if c = 'r' then some '\r'
  else if c = 't' then some '\t'
  else none

/-- The items of a string whose opening quote has been read, and how many characters they and
    the closing quote take. -/
def readPieces : List Char → Option (List Piece × Nat)
  | [] => none
  | c :: cs =>
    if c = '"' then some ([], 1)
    else if c = '\\' then
      match cs with
      | 'u' :: h₁ :: h₂ :: h₃ :: h₄ :: rest => do
        let n ← hexNumber? h₁ h₂ h₃ h₄
        let (pieces, length) ← readPieces rest
        return (.unit n :: pieces, length + 6)
      | d :: rest => do
        let e ← escaped? d
        let (pieces, length) ← readPieces rest
        return (.char e :: pieces, length + 2)
      | [] => none
    else if c.toNat < 0x20 then none
    else (readPieces cs).map fun (pieces, length) => (.char c :: pieces, length + 1)

/-- The text that the items denote. A unit is a character, or the first half of a pair whose
    second half follows at once; otherwise there is no text. -/
def joinPieces : List Piece → Option (List Char)
  | [] => some []
  | .char c :: rest => (joinPieces rest).map (c :: ·)
  | .unit u :: rest =>
    if u < 0xD800 ∨ 0xE000 ≤ u then (joinPieces rest).map (Char.ofNat u :: ·)
    else match rest with
      | .unit v :: rest =>
        if u < 0xDC00 ∧ 0xDC00 ≤ v ∧ v < 0xE000 then
          (joinPieces rest).map (Char.ofNat (0x10000 + (u - 0xD800) * 0x400 + (v - 0xDC00)) :: ·)
        else none
      | _ => none

/-- Reads a string whose opening quote has been read: the text it denotes, if any, and how
    many characters it takes from there. -/
def readString (cs : List Char) : Option (Option String × Nat) :=
  (readPieces cs).map fun (pieces, length) => ((joinPieces pieces).map String.ofList, length)

end PropCalc.Json
