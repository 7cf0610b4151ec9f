/-
  Tables drawn with box characters. A line is ruled above the heading, below it and below the
  last row. A cell may hold several lines; then its row is as tall as its tallest cell. All
  cells are set to the left and the top, one blank away from the borders.
-/

namespace PropCalc.Table

/-- The lines of a cell. -/
abbrev Cell := List (List Char)

def cellOf (s : String) : Cell := s.toList.splitOn '\n'

/-- The length of the longest line. -/
def Cell.width (cell : Cell) : Nat := cell.foldl (fun w line => max w line.length) 0

/-- For each column the width of its widest cell. -/
def columnWidths : List (List Cell) → List Nat
  | [] => []
  | [row] => row.map Cell.width
  | row :: rows => List.zipWith max (row.map Cell.width) (columnWidths rows)

/-- Number of lines of the tallest cell. -/
def rowHeight (row : List Cell) : Nat := row.foldl (fun h cell => max h cell.length) 0

/-- A text filled up with blanks. -/
def padded (width : Nat) (cs : List Char) : List Char :=
  cs ++ List.replicate (width - cs.length) ' '

/-- The `k`-th line of a cell between blanks. -/
def cellLine (k width : Nat) (cell : Cell) : List Char :=
  ' ' :: (padded width (cell[k]?.getD []) ++ [' '])

/-- The `k`-th line of a row. -/
def rowLine (widths : List Nat) (row : List Cell) (k : Nat) : List Char :=
  '│' :: (List.intercalate ['│'] (List.zipWith (cellLine k) widths row) ++ ['│'])

/-- The lines of a row. -/
def rowLines (widths : List Nat) (row : List Cell) : List (List Char) :=
  (List.range (rowHeight row)).map (rowLine widths row)

/-- A ruled line with the given crossings. -/
def rule (left middle right : Char) (widths : List Nat) : List Char :=
  left :: (List.intercalate [middle] (widths.map fun w => List.replicate (w + 2) '─') ++ [right])

/-- The lines of a table. -/
def lines (heading : List Cell) (rows : List (List Cell)) : List (List Char) :=
  let widths := columnWidths (heading :: rows)
  rule '╭' '┬' '╮' widths :: (rowLines widths heading ++
    rule '├' '┼' '┤' widths :: (rows.flatMap (rowLines widths) ++ [rule '╰' '┴' '╯' widths]))

/-- The text of a table without a final line break. A table without rows is empty. -/
def text (heading : List String) (rows : List (List String)) : String :=
  if rows.isEmpty then ""
  else String.ofList <| List.intercalate ['\n'] <|
    lines (heading.map cellOf) (rows.map (·.map cellOf))

end PropCalc.Table
