/-
  Emphasis in terminal output.
-/

namespace PropCalc

inductive Style
  | bold
  | boldGreen
  | boldRed
  | cyan
  | yellow
  deriving DecidableEq, Repr

namespace Style

/-- The control sequence that turns the style on. -/
def start : Style → List Char
  | bold => "\x1b[1m".toList
  | boldGreen => "\x1b[1;32m".toList
  | boldRed => "\x1b[1m\x1b[31m".toList
  | cyan => "\x1b[36m".toList
  | yellow => "\x1b[33m".toList

/-- The control sequence that turns all styles off. -/
def reset : List Char := "\x1b[0m".toList

/-- The text between turning the style on and turning all styles off. -/
def enclose (s : Style) (text : List Char) : List Char := s.start ++ text ++ reset

/-- The text with the style turned on again wherever the text itself turns it off. -/
def resumed (s : Style) : List Char → List Char
  | '\x1b' :: '[' :: '0' :: 'm' :: cs => reset ++ s.start ++ s.resumed cs
  | c :: cs => c :: s.resumed cs
  | [] => []

/-- The text in a style, or as it is if styles are not wanted. -/
def paint (styled : Bool) (s : Style) (text : String) : String :=
  if styled then String.ofList (s.enclose (s.resumed text.toList)) else text

end Style

end PropCalc
