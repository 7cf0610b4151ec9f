/-
  Catalogs: rules in a fixed order, found by id.
-/
import PropCalc.Rule.Standard

namespace PropCalc

/-- Why a list of rules is no valid catalog. -/
inductive CatalogFault
  /-- An earlier rule has this id. -/
  | duplicateId (id : String)
  /-- A side of the rule with this id is no formula. -/
  | malformedPattern (id : String) (reason : ParseError)
  deriving DecidableEq, Repr

def CatalogFault.message : CatalogFault → String
  | .duplicateId id => s!"duplicate rule id `{id}`"
  | .malformedPattern id reason =>
    s!"rule `{id}` has a malformed pattern: " ++ reason.message

/-- An ordered collection of rules. -/
structure Catalog where
  rules : List Rule
  deriving DecidableEq, Repr

namespace Catalog

/-- The catalog of the standard equivalences. -/
def standard : Catalog := ⟨Rule.standard⟩

/-- Checks rules in order, after rules with the ids `seen`: the id first, then the left side,
    then the right one. -/
def checkRules (seen : List String) : List Rule → Except CatalogFault Unit
  | [] => .ok ()
  | r :: rs =>
    if r.id ∈ seen then .error (.duplicateId r.id)
    else match r.check with
      | .error reason => .error (.malformedPattern r.id reason)
      | .ok () => checkRules (r.id :: seen) rs

/-- Checks that the ids are distinct and all sides are formulas. -/
def validate (c : Catalog) : Except CatalogFault Unit := checkRules [] c.rules

/-- The catalog of the given rules, if it is valid. -/
def ofRules (rules : List Rule) : Except CatalogFault Catalog :=
  (validate ⟨rules⟩).map fun _ => ⟨rules⟩

/-- The first rule with an id. -/
def get? (c : Catalog) (id : String) : Option Rule := c.rules.find? fun r => r.id = id

/-- The rules of a category. -/
def inCategory (c : Catalog) (category : Category) : List Rule :=
  c.rules.filter fun r => r.category = category

/-- The rules that match somewhere in the formula in some direction. -/
def applicable (c : Catalog) (e : Formula) : List Rule :=
  c.rules.filter fun r => Direction.both.any fun d =>
    match r.oriented d with
    | .ok o => (e.firstMatch o.pattern).isSome
    | .error _ => false

end Catalog

end PropCalc
