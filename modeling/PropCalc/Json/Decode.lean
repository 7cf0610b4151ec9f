/-
  Decoding JSON values into what they stand for.

  A decoder is given how many more brackets may be open at once where its value stands. What
  it skips does not count. All ways to fail are one.
-/
import PropCalc.Json.Reader
import PropCalc.Text.Decimal

namespace PropCalc.Json

variable {α : Type}

/-- Decodes a value inside which at most so many brackets may be open at once. -/
abbrev Decoder (α : Type) := Nat → Json → Option α

/-- How many brackets may be open at once in a text. -/
def nestingLimit : Nat := 127

/-- Reads and decodes a text. -/
def decodeText (d : Decoder α) (text : String) : Option α := (parse text).bind (d nestingLimit)

def text? : Json → Option String
  | .str s => s
  | _ => none

def bool? : Json → Option Bool
  | .bool b => some b
  | _ => none

/-- A natural number below the bound of indices and times. -/
def word? : Json → Option Nat
  | .num (some n) => if n < Text.wordBound then some n else none
  | _ => none

/-- A list of what `item` decodes. -/
def listOf (item : Decoder α) : Decoder (List α)
  | room + 1, .arr items => items.mapM (item room)
  | _, _ => none

/-- An object from names to what `value` decodes, as it stands. -/
def entriesOf (value : Decoder α) : Decoder (List (String × α))
  | room + 1, .obj entries => entries.mapM fun (name, v) => do return (← name, ← value room v)
  | _, _ => none

/-- One of several labels: the label as a string, or an object with the label as its only
    name and nothing as value. -/
def oneOf (options : List (String × α)) : Decoder α
  | _, .str (some s) => options.lookup s
  | _ + 1, .obj [(some s, .null)] => options.lookup s
  | _, _ => none

/-- The name and the value of an object that has one entry. -/
def tagged? : Json → Option (String × Json)
  | .obj [(some tag, content)] => some (tag, content)
  | _ => none

/-- The only value that an object has for a name. -/
def only? (entries : List (Option String × Json)) (name : String) : Option Json :=
  match entries.filter fun e => e.1 = some name with
  | [(_, v)] => some v
  | _ => none

/-- The values of a record's fields in the given order: from an object that has each name
    once, among any others, or from a list of just the fields. -/
def fields (names : List String) : Decoder (List Json)
  | _ + 1, .obj entries =>
    if entries.all fun e => e.1.isSome then names.mapM (only? entries) else none
  | _ + 1, .arr items => if items.length = names.length then some items else none
  | _, _ => none

end PropCalc.Json
