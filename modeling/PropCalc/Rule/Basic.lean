/-
  Rules: named equivalences of two patterns that can be used in either direction.
-/
import PropCalc.Formula.Variables
import PropCalc.Matching
import PropCalc.Parsing.Parser

namespace PropCalc

/-- The family that a rule belongs to. -/
inductive Category
  | commutativity
  | associativity
  | distributivity
  | idempotence
  | identity
  | complement
  | deMorgan
  | implication
  | absorption
  | domination
  | definability
  | contraposition
  | doubleNegation
  deriving DecidableEq, Repr

namespace Category

def all : List Category :=
  [commutativity, associativity, distributivity, idempotence, identity, complement, deMorgan,
    implication, absorption, domination, definability, contraposition, doubleNegation]

def label : Category → String
  | commutativity => "commutativity"
  | associativity => "associativity"
  | distributivity => "distributivity"
  | idempotence => "idempotence"
  | identity => "identity"
  | complement => "complement"
  | deMorgan => "deMorgan"
  | implication => "implication"
  | absorption => "absorption"
  | domination => "domination"
  | definability => "definability"
  | contraposition => "contraposition"
  | doubleNegation => "doubleNegation"

/-- The category with this label, whatever the case of its ASCII letters. -/
def ofLabel? (text : String) : Option Category :=
  all.find? fun c => c.label.toList.map Char.toLower = text.toList.map Char.toLower

/-- What is said of a text that is no label. -/
def unknownMessage (text : String) : String := s!"unknown rule category `{text}`"

end Category

/-- Which side of a rule is matched and which one is put in its place. -/
inductive Direction
  | leftToRight
  | rightToLeft
  deriving DecidableEq, Repr, Inhabited

namespace Direction

def both : List Direction := [leftToRight, rightToLeft]

def label : Direction → String
  | leftToRight => "left-to-right"
  | rightToLeft => "right-to-left"

def opposite : Direction → Direction
  | leftToRight => rightToLeft
  | rightToLeft => leftToRight

end Direction

/-- An equivalence. The two patterns are kept as text and read when the rule is used. -/
structure Rule where
  id : String
  name : String
  description : String
  category : Category
  left : String
  right : String
  /-- the variables that the rule says it has; using the rule does not ask for them -/
  declared : List String
  deriving DecidableEq, Repr

/-- The two sides of a rule that is used in some direction. -/
structure Oriented where
  /-- the side that is looked for -/
  pattern : Formula
  /-- the side that takes its place -/
  replacement : Formula
  deriving DecidableEq, Repr

/-- Puts the instantiated replacement at `position`. -/
def Oriented.putAt (o : Oriented) (e : Formula) (position : Path) (σ : Substitution) :
    Option Formula :=
  e.replaceAt position (o.replacement.instantiate σ)

namespace Rule

/-- Reads the two sides, the left one first, and orients them. -/
def oriented (r : Rule) (d : Direction) : Except ParseError Oriented := do
  let left ← Formula.parse r.left
  let right ← Formula.parse r.right
  match d with
  | .leftToRight => return ⟨left, right⟩
  | .rightToLeft => return ⟨right, left⟩

/-- Checks that both sides are formulas. -/
def check (r : Rule) : Except ParseError Unit := (r.oriented .leftToRight).map fun _ => ()

/-- Every match of the side that the direction looks for; none if a side is no formula. -/
def allMatches (r : Rule) (d : Direction) (e : Formula) : List Match :=
  match r.oriented d with
  | .ok o => e.allMatches o.pattern
  | .error _ => []

/-- The variables with a family that only the side put in has; none if a side is no formula. -/
def introduced (r : Rule) (d : Direction) : NameMap NameKind :=
  match r.oriented d with
  | .ok o => Formula.introduced o.pattern o.replacement
  | .error _ => ∅

/-- Uses a rule once. With a position the rule must match exactly there; without one it is
    used at its first match in pre-order. The bindings in `given` win over those of the match. -/
def apply (r : Rule) (d : Direction) (position : Option Path) (given : Substitution)
    (e : Formula) : Option Formula :=
  match r.oriented d with
  | .error _ => none
  | .ok o => do
    let found ← match position with
      | some p => e.matchAt o.pattern p
      | none => e.firstMatch o.pattern
    o.putAt e found.position (found.substitution.merge given)

end Rule

end PropCalc
