/-
  Natural numbers in decimal, and the 64-bit indices read from text.
-/

namespace PropCalc.Text

/-- Decimal digits without leading zeros. -/
def decimal (n : Nat) : List Char := Nat.toDigits 10 n

/-- One more than the largest index or time stamp that a text may name. -/
def wordBound : Nat := 18446744073709551616

/-- Why a text is no index. -/
inductive IndexError
  | empty
  | invalidDigit
  | tooLarge
  deriving DecidableEq, Repr

def IndexError.message : IndexError → String
  | .empty => "cannot parse integer from empty string"
  | .invalidDigit => "invalid digit found in string"
  | .tooLarge => "number too large to fit in target type"

/-- Reads digits after a number `acc`. The first digit that is wrong or leads past the bound
    decides the error. -/
def readDigits (acc : Nat) : List Char → Except IndexError Nat
  | [] => .ok acc
  | c :: cs =>
    if c.isDigit then
      let next := 10 * acc + (c.toNat - '0'.toNat)
      if next < wordBound then readDigits next cs else .error .tooLarge
    else .error .invalidDigit

/-- Reads an index: decimal digits, with a `+` in front if digits follow. -/
def readIndex : List Char → Except IndexError Nat
  | [] => .error .empty
  | '+' :: c :: cs => readDigits 0 (c :: cs)
  | cs => readDigits 0 cs

end PropCalc.Text
