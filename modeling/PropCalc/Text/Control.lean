/-
  Texts without the control sequences of terminals.

  A sequence starts with the escape character and ends as a terminal takes it to end. What is
  shown of a text is what stands outside of sequences, less its control characters; those that
  only lay the text out are shown.
-/

namespace PropCalc.Text

def isControl (c : Char) : Bool := c.toNat < 0x20 || c = '\x7f'

/-- The control characters that lay a text out: tabs, line feeds, form feeds and returns. -/
def isLayout (c : Char) : Bool := c = '\t' || c = '\n' || c = '\x0c' || c = '\r'

/-- What the next character of a text belongs to. -/
inductive ControlState
  | outside
  /-- A sequence of which only the escape character has come. -/
  | started
  /-- A sequence that ends with a character from `0` on. -/
  | designation
  /-- A sequence that ends with a character from `@` on. -/
  | function
  /-- A string for the system, which a bell ends. -/
  | systemString
  /-- A string for a device of which nothing but its start has come. -/
  | device
  /-- A string for a device of which parameters have come. -/
  | deviceParameters
  /-- A string for a device of which characters in front of its name have come. -/
  | deviceIntermediate
  /-- The rest of a string for a device, or a string for anything else. -/
  | string
  deriving DecidableEq, Repr

namespace ControlState

/-- What the character after `c` belongs to. The escape character starts a sequence wherever
    it stands, and there are two characters that cancel any sequence. The byte 9C ends a
    string, also as part of a character. -/
def next (s : ControlState) (c : Char) : ControlState :=
  if c = '\x1b' then started
  else if c = '\x18' ∨ c = '\x1a' then outside
  else match s with
    | outside => outside
    | started =>
      if c = '[' then function
      else if c = ']' then systemString
      else if c = 'P' then device
      else if c ∈ ['X', '^', '_'] then string
      else if ' ' ≤ c ∧ c ≤ '/' then designation
      else if '0' ≤ c ∧ c ≤ '~' then outside
      else started
    | designation => if '0' ≤ c ∧ c ≤ '~' then outside else designation
    | function => if '@' ≤ c ∧ c ≤ '~' then outside else function
    | systemString => if c = '\x07' then outside else systemString
    | device =>
      if ' ' ≤ c ∧ c ≤ '/' then deviceIntermediate
      else if '0' ≤ c ∧ c ≤ '?' then deviceParameters
      else if '@' ≤ c ∧ c ≤ '~' then string
      else device
    | deviceParameters =>
      if ' ' ≤ c ∧ c ≤ '/' then deviceIntermediate
      else if '<' ≤ c ∧ c ≤ '~' then string
      else deviceParameters
    | deviceIntermediate => if '0' ≤ c ∧ c ≤ '~' then string else deviceIntermediate
    | string => if (String.utf8EncodeChar c).contains 0x9c then outside else string

/-- A character is shown. -/
def shows (s : ControlState) (c : Char) : Bool :=
  match s with
  | outside => isLayout c || !isControl c
  | started | designation | function => isLayout c
  | systemString | device | deviceParameters | deviceIntermediate | string => false

end ControlState

/-- What is shown of a text whose first character belongs to `s`. A sequence with a shown
    character in it is suspended from there to the next control character. -/
def shownFrom (s : ControlState) (suspended : Bool) : List Char → List Char
  | [] => []
  | c :: cs =>
    if suspended && ControlState.outside.shows c then
      c :: shownFrom (if c.toNat < 0x80 then s else .outside) true cs
    else if s.shows c then c :: shownFrom (s.next c) true cs
    else shownFrom (s.next c) false cs

/-- What is shown of a text. -/
def shown (cs : List Char) : List Char := shownFrom .outside false cs

end PropCalc.Text
