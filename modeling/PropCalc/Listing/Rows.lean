/-
  Rules and applications as rows, to be shown in a table or as comma-separated values.
-/
import PropCalc.Application
import PropCalc.Listing.Csv
import PropCalc.Listing.Table

namespace PropCalc

/-- Rows with the headings of their columns. -/
structure Listing where
  /-- the headings in a table -/
  headings : List String
  /-- the names in the first record of comma-separated values -/
  names : List String
  rows : List (List String)
  /-- each row has a field for each column -/
  rows_length : ∀ row ∈ rows, row.length = headings.length
  deriving DecidableEq, Repr

/-- What is listed of a rule. -/
structure RuleRow where
  id : String
  name : String
  category : String
  left : String
  right : String
  deriving DecidableEq, Repr

namespace RuleRow

def ofRule (r : Rule) : RuleRow := ⟨r.id, r.name, r.category.label, r.left, r.right⟩

def fields (row : RuleRow) : List String :=
  [row.id, row.name, row.category, row.left, row.right]

end RuleRow

/-- What is listed of an application. -/
structure ApplicationRow where
  index : Nat
  rule : String
  direction : String
  position : String
  description : String
  preview : String
  deriving DecidableEq, Repr

namespace ApplicationRow

def ofApplication (index : Nat) (a : Application) : ApplicationRow :=
  ⟨index, a.rule.id, a.direction.label, Path.text a.position, a.description, a.preview⟩

def fields (row : ApplicationRow) : List String :=
  [String.ofList (Text.decimal row.index), row.rule, row.direction, row.position,
    row.description, row.preview]

end ApplicationRow

namespace Listing

/-- The text as a table. -/
def table (l : Listing) : String := Table.text l.headings l.rows

/-- The text as comma-separated values. The names are there also without rows. -/
def csv (l : Listing) : String := Csv.text (l.names :: l.rows)

def ofRuleRows (rows : List RuleRow) : Listing where
  headings := ["Id", "Name", "Category", "Left", "Right"]
  names := ["id", "name", "category", "leftPattern", "rightPattern"]
  rows := rows.map RuleRow.fields
  rows_length := List.forall_mem_map.mpr fun _ _ => rfl

def ofRules (rules : List Rule) : Listing := ofRuleRows (rules.map RuleRow.ofRule)

def ofApplicationRows (rows : List ApplicationRow) : Listing where
  headings := ["#", "Rule", "Direction", "Position", "Rewrite", "Result"]
  names := ["index", "rule", "direction", "position", "description", "fullPreview"]
  rows := rows.map ApplicationRow.fields
  rows_length := List.forall_mem_map.mpr fun _ _ => rfl

/-- Applications are numbered from 0. -/
def ofApplications (as : List Application) : Listing :=
  ofApplicationRows (as.mapIdx ApplicationRow.ofApplication)

end Listing

end PropCalc
