/-
  Records of fields as comma-separated values. A record ends with a line feed. A field stands
  in quotes if it holds a comma, a quote or a line break, and a quote in it is doubled.
-/

namespace PropCalc.Csv

/-- The field cannot stand without quotes. -/
def needsQuotes (cs : List Char) : Bool :=
  cs.any fun c => c = ',' || c = '"' || c = '\r' || c = '\n'

/-- A character inside quotes. -/
def quoted (c : Char) : List Char := if c = '"' then ['"', '"'] else [c]

/-- The characters of a field. -/
def field (cs : List Char) : List Char :=
  if needsQuotes cs then '"' :: (cs.flatMap quoted ++ ['"']) else cs

/-- The characters of a record. -/
def record (fields : List String) : List Char :=
  List.intercalate [','] (fields.map fun s => field s.toList) ++ ['\n']

/-- The text of records in order. -/
def text (records : List (List String)) : String := String.ofList (records.flatMap record)

end PropCalc.Csv
