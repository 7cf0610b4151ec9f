/-
  JSON values, as far as this library tells them apart.

  Of numbers only the natural ones are kept apart from each other, and of strings only those
  that denote text: an escape may name half of a surrogate pair, and then there is no text.
  An object keeps its entries in order, repeated names included.
-/

namespace PropCalc

inductive Json
  | null
  | bool (value : Bool)
  /-- `none` is any number that is not written as a natural number. -/
  | num (value : Option Nat)
  /-- `none` is any string that denotes no text. -/
  | str (text : Option String)
  | arr (items : List Json)
  | obj (entries : List (Option String × Json))
  deriving Repr, Inhabited

namespace Json

def ofText (s : String) : Json := .str (some s)

def ofNat (n : Nat) : Json := .num (some n)

/-- An object with the given names in order. -/
def record (fields : List (String × Json)) : Json :=
  .obj (fields.map fun (name, value) => (some name, value))

end Json

end PropCalc
