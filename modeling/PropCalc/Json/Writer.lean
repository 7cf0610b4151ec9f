/-
  Writing JSON, either without blanks or with each part on a line of its own.
-/
import PropCalc.Json.Text
import PropCalc.Json.Value
import PropCalc.Text.Decimal

namespace PropCalc.Json

/-- Where blanks are put. -/
structure Layout where
  /-- before a part and before the closing bracket, at a depth of nesting -/
  newline : Nat → List Char
  /-- after the colon of an entry -/
  afterColon : List Char

namespace Layout

/-- No blanks. -/
def compact : Layout := ⟨fun _ => [], []⟩

/-- A line for each part, indented by two blanks for each bracket around it. -/
def pretty : Layout := ⟨fun depth => '\n' :: List.replicate (2 * depth) ' ', [' ']⟩

end Layout

/-- What stands in front of a part of a container that stands inside `depth` brackets. -/
def separator (l : Layout) (depth : Nat) (first : Bool) : List Char :=
  (if first then [] else [',']) ++ l.newline (depth + 1)

/-- A string in quotes. One that denotes no text is written as half of a surrogate pair. -/
def quoteText : Option String → List Char
  | some s => quote s.toList
  | none => ['"', '\\', 'u', 'd', '8', '0', '0', '"']

mutual

/-- The characters of a value inside `depth` brackets, in front of others. -/
def write (l : Layout) (depth : Nat) : Json → List Char → List Char
  | .null, rest => 'n' :: 'u' :: 'l' :: 'l' :: rest
  | .bool true, rest => 't' :: 'r' :: 'u' :: 'e' :: rest
  | .bool false, rest => 'f' :: 'a' :: 'l' :: 's' :: 'e' :: rest
  | .num (some n), rest => Text.decimal n ++ rest
  | .num none, rest => '-' :: '1' :: rest
  | .str s, rest => quoteText s ++ rest
  | .arr items, rest => '[' :: writeItems l depth true items rest
  | .obj entries, rest => '\x7b' :: writeEntries l depth true entries rest

/-- The characters of the items that are left, and of the closing bracket, in front of others.
    If these are all items and there are none, the brackets stand together. -/
def writeItems (l : Layout) (depth : Nat) (first : Bool) : List Json → List Char → List Char
  | [], rest => (if first then [] else l.newline depth) ++ ']' :: rest
  | v :: vs, rest =>
    separator l depth first ++ write l (depth + 1) v (writeItems l depth false vs rest)

/-- The same for entries. -/
def writeEntries (l : Layout) (depth : Nat) (first : Bool) :
    List (Option String × Json) → List Char → List Char
  | [], rest => (if first then [] else l.newline depth) ++ '\x7d' :: rest
  | (name, v) :: es, rest =>
    separator l depth first ++ quoteText name ++ ':' :: l.afterColon ++
      write l (depth + 1) v (writeEntries l depth false es rest)

end

/-- The text of a value without blanks. -/
def compact (v : Json) : String := String.ofList (write .compact 0 v [])

/-- The text of a value with a line for each part. -/
def pretty (v : Json) : String := String.ofList (write .pretty 0 v [])

end PropCalc.Json
