/-
  Propositional formulas as trees.
-/

namespace PropCalc

/-- The binary connectives. -/
inductive Connective
  | and
  | or
  | implies
  deriving DecidableEq, Repr

/-- The sign that stands for a connective. -/
def Connective.sign : Connective → Char
  | and => '∧'
  | or => '∨'
  | implies => '→'

/-- A propositional formula. In the side of a rule a variable stands for any formula. -/
inductive Formula
  | var (name : String)
  | const (value : Bool)
  | neg (operand : Formula)
  | bin (op : Connective) (left right : Formula)
  deriving DecidableEq, Repr, Inhabited

namespace Formula

def isBinary : Formula → Bool
  | bin .. => true
  | _ => false

/-- The operands in order: the one of a negation, the left and the right one of a connective. -/
def children : Formula → List Formula
  | var _ => []
  | const _ => []
  | neg e => [e]
  | bin _ l r => [l, r]

/-- Number of nodes. -/
def size : Formula → Nat
  | var _ => 1
  | const _ => 1
  | neg e => e.size + 1
  | bin _ l r => l.size + r.size + 1

/-- Variable names from left to right, with repeats. -/
def names : Formula → List String
  | var x => [x]
  | const _ => []
  | neg e => e.names
  | bin _ l r => l.names ++ r.names

end Formula

end PropCalc
