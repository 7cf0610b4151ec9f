/-
  Tables are rectangular and complete.

  A column is as wide as the longest line of its cells, those of the heading included, and a row
  as tall as its tallest cell (`isGreatest_columnWidths`, `isGreatest_rowHeight`). So each cell
  fits its column, every line is divided by the same widths, and the borders of all lines stand
  below each other (`exists_divided`). The lines of a row start behind those of the rows before it
  (`getElem?_drawn_row`). Together this says where each line of each cell stands
  (`laidOut_lines`). No line has a line break in it, so that the lines of the text are those of
  the table (`splitOn_text`).
-/
import Mathlib.Order.Bounds.Basic
import PropCalc.Listing.Rows
import PropCalc.Proofs.Formula.PathText
import PropCalc.Proofs.Listing.Frame

namespace PropCalc.Table

/-- A heading and rows of cells with lines, for at least one column. The heading takes a single
    line. -/
structure Grid (heading : List Cell) (rows : List (List Cell)) : Prop where
  heading_ne_nil : heading ≠ []
  row_length : ∀ row ∈ rows, row.length = heading.length
  cell_ne_nil : ∀ row ∈ heading :: rows, ∀ cell ∈ row, cell ≠ []
  single_line : ∀ cell ∈ heading, cell.length = 1

/-! ## Widths and heights -/

theorem isGreatest_foldl_max {α : Type} (f : α → Nat) {l : List α} (hne : l ≠ []) :
    IsGreatest {n | ∃ a ∈ l, f a = n} (l.foldl (fun m a => max m (f a)) 0) := by
  have hmap : l.map f ≠ [] := mt List.map_eq_nil_iff.mp hne
  have hmax : l.foldl (fun m a => max m (f a)) 0 = (l.map f).max hmap := by
    rw [← List.foldl_map, List.foldl_max_eq_max hmap, Nat.zero_max]
  rw [hmax]
  refine ⟨List.mem_map.mp (List.max_mem hmap), ?_⟩
  rintro n ⟨a, ha, rfl⟩
  exact List.le_max_of_mem (List.mem_map_of_mem ha)

theorem isGreatest_rowHeight {row : List Cell} (hne : row ≠ []) :
    IsGreatest {n | ∃ cell ∈ row, cell.length = n} (rowHeight row) :=
  isGreatest_foldl_max List.length hne

theorem isGreatest_width {cell : Cell} (hne : cell ≠ []) :
    IsGreatest {n | ∃ line ∈ cell, line.length = n} cell.width :=
  isGreatest_foldl_max List.length hne

/-- The lengths of the lines in column `j`. -/
def columnLengths (rows : List (List Cell)) (j : Nat) : Set Nat :=
  {n | ∃ row ∈ rows, ∃ cell, row[j]? = some cell ∧ ∃ line ∈ cell, line.length = n}

theorem columnLengths_singleton {row : List Cell} {j : Nat} {cell : Cell}
    (hcell : row[j]? = some cell) :
    columnLengths [row] j = {n | ∃ line ∈ cell, line.length = n} := by
  ext n
  simp [columnLengths, hcell]

theorem columnLengths_cons (row : List Cell) (rows : List (List Cell)) (j : Nat) :
    columnLengths (row :: rows) j = columnLengths [row] j ∪ columnLengths rows j := by
  ext n
  simp [columnLengths]

theorem columnWidths_cons (row : List Cell) {rows : List (List Cell)} (hne : rows ≠ []) :
    columnWidths (row :: rows) = List.zipWith max (row.map Cell.width) (columnWidths rows) := by
  cases rows with
  | nil => exact absurd rfl hne
  | cons next rows => rfl

theorem length_columnWidths {rows : List (List Cell)} (hne : rows ≠ []) {n : Nat}
    (hlength : ∀ row ∈ rows, row.length = n) : (columnWidths rows).length = n := by
  induction rows with
  | nil => exact absurd rfl hne
  | cons row rows ih =>
    obtain ⟨hrow, hrows⟩ := List.forall_mem_cons.mp hlength
    by_cases hrest : rows = []
    · subst hrest
      rw [columnWidths, List.length_map, hrow]
    · rw [columnWidths_cons row hrest, List.length_zipWith, List.length_map, hrow,
        ih hrest hrows, Nat.min_self]

theorem isGreatest_columnWidths {rows : List (List Cell)}
    (hcells : ∀ row ∈ rows, ∀ cell ∈ row, cell ≠ []) {j w : Nat}
    (hw : (columnWidths rows)[j]? = some w) : IsGreatest (columnLengths rows j) w := by
  induction rows generalizing w with
  | nil => cases hw
  | cons row rows ih =>
    obtain ⟨hrow, hrows⟩ := List.forall_mem_cons.mp hcells
    have hfirst : ∀ v, (row.map Cell.width)[j]? = some v →
        IsGreatest (columnLengths [row] j) v := by
      intro v hv
      rw [List.getElem?_map] at hv
      obtain ⟨cell, hcell, rfl⟩ := Option.map_eq_some_iff.mp hv
      rw [columnLengths_singleton hcell]
      exact isGreatest_width (hrow cell (List.mem_of_getElem? hcell))
    by_cases hrest : rows = []
    · subst hrest
      exact hfirst w hw
    · rw [columnWidths_cons row hrest] at hw
      obtain ⟨v, w', hv, hw', rfl⟩ := List.getElem?_zipWith_eq_some.mp hw
      rw [columnLengths_cons]
      exact (hfirst v hv).union (ih hrows hw')

/-! ## Cells in their columns -/

/-- Each line of each cell is at most as long as its column is wide. -/
def Fits (widths : List Nat) (row : List Cell) : Prop :=
  List.Forall₂ (fun w cell => ∀ line ∈ cell, line.length ≤ w) widths row

theorem length_widths {heading : List Cell} {rows : List (List Cell)} (h : Grid heading rows) :
    (columnWidths (heading :: rows)).length = heading.length :=
  length_columnWidths (List.cons_ne_nil _ _) (List.forall_mem_cons.mpr ⟨rfl, h.row_length⟩)

theorem widths_ne_nil {heading : List Cell} {rows : List (List Cell)} (h : Grid heading rows) :
    columnWidths (heading :: rows) ≠ [] := by
  rw [← List.length_pos_iff, length_widths h, List.length_pos_iff]
  exact h.heading_ne_nil

theorem fits_widths {heading : List Cell} {rows : List (List Cell)} (h : Grid heading rows)
    {row : List Cell} (hrow : row ∈ heading :: rows) :
    Fits (columnWidths (heading :: rows)) row := by
  have hlength : (columnWidths (heading :: rows)).length = row.length := by
    rw [length_widths h]
    rcases List.mem_cons.mp hrow with rfl | hmem
    · rfl
    · exact (h.row_length row hmem).symm
  refine List.forall₂_iff_get.mpr ⟨hlength, fun j hj hj' line hline => ?_⟩
  have hw : IsGreatest _ _ := isGreatest_columnWidths h.cell_ne_nil (List.getElem?_eq_getElem hj)
  exact hw.2 ⟨row, hrow, _, List.getElem?_eq_getElem hj', line, hline, rfl⟩

theorem length_getD_le {w : Nat} {cell : Cell} (hfits : ∀ line ∈ cell, line.length ≤ w) (k : Nat) :
    (cell[k]?.getD []).length ≤ w := by
  cases hline : cell[k]? with
  | none => exact Nat.zero_le w
  | some line => exact hfits line (List.mem_of_getElem? hline)

/-- A line of a cell is set after one blank and filled up with blanks. -/
theorem cellLine_eq {w : Nat} {cell : Cell} (hfits : ∀ line ∈ cell, line.length ≤ w) (k : Nat) :
    cellLine k w cell =
      ' ' :: (cell[k]?.getD [] ++ List.replicate (w + 1 - (cell[k]?.getD []).length) ' ') := by
  have hle : (cell[k]?.getD []).length ≤ w := length_getD_le hfits k
  rw [cellLine, padded, List.append_assoc, ← List.replicate_succ', Nat.succ_sub hle]

theorem length_cellLine {w : Nat} {cell : Cell} (hfits : ∀ line ∈ cell, line.length ≤ w)
    (k : Nat) : (cellLine k w cell).length = w + 2 := by
  have hle : (cell[k]?.getD []).length ≤ w := length_getD_le hfits k
  rw [cellLine_eq hfits, List.length_cons, List.length_append, List.length_replicate]
  omega

theorem Fits.length_cellLine {widths : List Nat} {row : List Cell} (h : Fits widths row) (k : Nat) :
    List.Forall₂ (fun w part => part.length = w + 2) widths
      (List.zipWith (cellLine k) widths row) := by
  induction h with
  | nil => exact .nil
  | cons hcell _ ih => exact .cons (Table.length_cellLine hcell k) ih

theorem divided_rowLine {widths : List Nat} {row : List Cell} (hne : widths ≠ [])
    (h : Fits widths row) (k : Nat) :
    Divided widths .sides (List.zipWith (cellLine k) widths row) (rowLine widths row k) :=
  divided_framed .sides hne (h.length_cellLine k)

/-- What a ruled line has in its columns. -/
def bars (widths : List Nat) : List (List Char) := widths.map fun w => List.replicate (w + 2) '─'

theorem divided_bars {widths : List Nat} (hne : widths ≠ []) (f : Frame) :
    Divided widths f (bars widths) (framed f (bars widths)) :=
  divided_framed f hne <| List.forall₂_map_right_iff.mpr <|
    List.forall₂_same.mpr fun _ _ => List.length_replicate

/-- The `k`-th line of each cell of the row stands in its column, after one blank and followed by
    blanks only. A cell with fewer lines leaves its column blank. -/
def Shows (widths : List Nat) (row : List Cell) (k : Nat) (line : List Char) : Prop :=
  ∀ (j w : Nat) (cell : Cell), widths[j]? = some w → row[j]? = some cell →
    inColumn widths j line =
      ' ' :: (cell[k]?.getD [] ++ List.replicate (w + 1 - (cell[k]?.getD []).length) ' ')

theorem shows_rowLine {widths : List Nat} {row : List Cell} (hne : widths ≠ [])
    (h : Fits widths row) (k : Nat) : Shows widths row k (rowLine widths row k) := by
  intro j w cell hw hcell
  have hfits : ∀ line ∈ cell, line.length ≤ w := by
    obtain ⟨hj, rfl⟩ := List.getElem?_eq_some_iff.mp hw
    obtain ⟨hj', rfl⟩ := List.getElem?_eq_some_iff.mp hcell
    exact (List.forall₂_iff_get.mp h).2 j hj hj'
  rw [← cellLine_eq hfits]
  exact (divided_rowLine hne h k).columns j _ (List.getElem?_zipWith_eq_some.mpr
    ⟨w, cell, hw, hcell, rfl⟩)

/-! ## The lines of a table -/

/-- The lines of a table with these widths and a heading of a single line. -/
def drawn (widths : List Nat) (heading : List Cell) (rows : List (List Cell)) :
    List (List Char) :=
  framed .top (bars widths) :: rowLine widths heading 0 :: framed .separator (bars widths) ::
    (rows.flatMap (rowLines widths) ++ [framed .bottom (bars widths)])

theorem lines_eq {heading : List Cell} {rows : List (List Cell)} (h : Grid heading rows) :
    lines heading rows = drawn (columnWidths (heading :: rows)) heading rows := by
  have hone : rowHeight heading = 1 := by
    obtain ⟨cell, hcell, hheight⟩ := (isGreatest_rowHeight h.heading_ne_nil).1
    rw [← hheight, h.single_line cell hcell]
  have hheading (widths : List Nat) : rowLines widths heading = [rowLine widths heading 0] := by
    rw [rowLines, hone]
    rfl
  simp only [lines, hheading]
  rfl

/-- What is made of an element starts behind what is made of those before it. -/
theorem getElem?_flatMap {α β : Type} (f : α → List β) {l : List α} {i : Nat} {a : α}
    (ha : l[i]? = some a) {k : Nat} (hk : k < (f a).length) :
    (l.flatMap f)[((l.map fun a => (f a).length).take i).sum + k]? = (f a)[k]? := by
  induction l generalizing i with
  | nil => cases ha
  | cons b l ih =>
    rw [List.flatMap_cons]
    cases i with
    | zero =>
      obtain rfl : b = a := Option.some.inj ha
      rw [List.take_zero, List.sum_nil, Nat.zero_add, List.getElem?_append_left hk]
    | succ i =>
      rw [List.map_cons, List.take_succ_cons, List.sum_cons, Nat.add_assoc,
        List.getElem?_append_right (Nat.le_add_right _ _), Nat.add_sub_cancel_left]
      exact ih ha

section

variable {widths : List Nat} {heading : List Cell} {rows : List (List Cell)}

theorem length_rowLines (row : List Cell) : (rowLines widths row).length = rowHeight row := by
  rw [rowLines, List.length_map, List.length_range]

theorem length_body :
    (rows.flatMap (rowLines widths)).length = (rows.map rowHeight).sum := by
  simp only [List.length_flatMap, length_rowLines]

theorem length_drawn : (drawn widths heading rows).length = 4 + (rows.map rowHeight).sum := by
  simp only [drawn, List.length_cons, List.length_append, List.length_nil, length_body]
  omega

theorem getElem?_body {i : Nat} {row : List Cell} (hrow : rows[i]? = some row) {k : Nat}
    (hk : k < rowHeight row) :
    (rows.flatMap (rowLines widths))[((rows.map rowHeight).take i).sum + k]? =
      some (rowLine widths row k) := by
  have hlength : rowHeight = fun row => (rowLines widths row).length :=
    funext fun row => (length_rowLines row).symm
  have hline : (rowLines widths row)[k]? = some (rowLine widths row k) := by
    rw [rowLines, List.getElem?_map, List.getElem?_range hk]
    rfl
  rw [hlength, getElem?_flatMap (rowLines widths) hrow (hk.trans_eq (length_rowLines row).symm),
    hline]

theorem getElem?_drawn_row {i : Nat} {row : List Cell} (hrow : rows[i]? = some row) {k : Nat}
    (hk : k < rowHeight row) :
    (drawn widths heading rows)[3 + ((rows.map rowHeight).take i).sum + k]? =
      some (rowLine widths row k) := by
  have hbody : (rows.flatMap (rowLines widths))[((rows.map rowHeight).take i).sum + k]? =
      some (rowLine widths row k) := getElem?_body hrow hk
  have hoffset : 3 + ((rows.map rowHeight).take i).sum + k =
      ((rows.map rowHeight).take i).sum + k + 3 := by omega
  rw [hoffset, drawn, List.getElem?_cons_succ, List.getElem?_cons_succ, List.getElem?_cons_succ,
    List.getElem?_append_left (List.getElem?_eq_some_iff.mp hbody).1, hbody]

/-- The borders of line `i` of `count`. -/
def frameAt (count i : Nat) : Frame :=
  if i = 0 then .top else if i = 2 then .separator else if i + 1 = count then .bottom else .sides

theorem frameAt_sides {count i : Nat} (htop : i ≠ 0) (hseparator : i ≠ 2)
    (hbottom : i + 1 ≠ count) : frameAt count i = .sides := by
  rw [frameAt, if_neg htop, if_neg hseparator, if_neg hbottom]

theorem frameAt_bottom {count : Nat} (hcount : 4 ≤ count) :
    frameAt count (count - 1) = .bottom := by
  rw [frameAt, if_neg (by omega), if_neg (by omega), if_pos (by omega)]

/-- Every line is divided by the widths of the columns, and those without cells are ruled. -/
theorem exists_divided (hne : widths ≠ []) (hfits : ∀ row ∈ heading :: rows, Fits widths row)
    {i : Nat} {line : List Char} (hline : (drawn widths heading rows)[i]? = some line) :
    ∃ parts, Divided widths (frameAt (drawn widths heading rows).length i) parts line ∧
      (frameAt (drawn widths heading rows).length i ≠ .sides → parts = bars widths) := by
  obtain ⟨hheading, hrows⟩ := List.forall_mem_cons.mp hfits
  rw [length_drawn]
  match i, hline with
  | 0, hline =>
    obtain rfl := Option.some.inj hline
    exact ⟨_, divided_bars hne .top, fun _ => rfl⟩
  | 1, hline =>
    obtain rfl := Option.some.inj hline
    rw [frameAt_sides (by decide) (by decide) (by omega)]
    exact ⟨_, divided_rowLine hne hheading 0, fun h => absurd rfl h⟩
  | 2, hline =>
    obtain rfl := Option.some.inj hline
    exact ⟨_, divided_bars hne .separator, fun _ => rfl⟩
  | i + 3, hline =>
    rw [drawn, List.getElem?_cons_succ, List.getElem?_cons_succ, List.getElem?_cons_succ] at hline
    by_cases hi : i < (rows.flatMap (rowLines widths)).length
    · rw [List.getElem?_append_left hi] at hline
      obtain ⟨row, hrow, hmem⟩ := List.mem_flatMap.mp (List.mem_of_getElem? hline)
      obtain ⟨k, -, rfl⟩ := List.mem_map.mp hmem
      rw [length_body] at hi
      rw [frameAt_sides (by omega) (by omega) (by omega)]
      exact ⟨_, divided_rowLine hne (hrows row hrow) k, fun h => absurd rfl h⟩
    · -- behind the lines of all rows there is one line only
      rw [List.getElem?_append_right (Nat.le_of_not_lt hi), List.getElem?_singleton] at hline
      obtain ⟨hlast, hbottom⟩ := Option.ite_none_right_eq_some.mp hline
      obtain rfl := Option.some.inj hbottom
      have hi' : i + 3 = 4 + (rows.map rowHeight).sum - 1 := by
        rw [length_body] at hi hlast
        omega
      rw [hi', frameAt_bottom (Nat.le_add_right _ _)]
      exact ⟨_, divided_bars hne .bottom, fun _ => rfl⟩

end

/-! ## Where everything stands -/

/-- The lines are those of a table with a heading and rows, in columns of these widths and rows of
    these heights. -/
structure LaidOut (heading : List Cell) (rows : List (List Cell)) (widths heights : List Nat)
    (lines : List (List Char)) : Prop where
  columns : widths.length = heading.length
  /-- a column is as wide as its longest line, which may be in the heading -/
  widest : ∀ j w, widths[j]? = some w → IsGreatest (columnLengths (heading :: rows) j) w
  /-- a row is as tall as its tallest cell -/
  tallest : List.Forall₂ (fun row h => IsGreatest {n | ∃ cell ∈ row, cell.length = n} h)
    rows heights
  count : lines.length = 4 + heights.sum
  /-- all lines are as long as their borders and columns together -/
  length : ∀ cs ∈ lines, cs.length = edge widths widths.length + 1
  /-- each line has its borders at the same offsets -/
  borders : ∀ i cs, lines[i]? = some cs → ∀ j ≤ widths.length,
    cs[edge widths j]? = some ((frameAt lines.length i).border widths.length j)
  /-- the lines without cells are ruled -/
  ruled : ∀ i cs, lines[i]? = some cs → frameAt lines.length i ≠ .sides →
    ∀ j w, widths[j]? = some w → inColumn widths j cs = List.replicate (w + 2) '─'
  /-- the heading is below the first line -/
  heading : ∃ cs, lines[1]? = some cs ∧ Shows widths heading 0 cs
  /-- a row is below the rows before it, each line of its cells on a line of the row -/
  cells : ∀ i row h, rows[i]? = some row → heights[i]? = some h → ∀ k < h,
    ∃ cs, lines[3 + (heights.take i).sum + k]? = some cs ∧ Shows widths row k cs

theorem laidOut_lines {heading : List Cell} {rows : List (List Cell)} (h : Grid heading rows) :
    LaidOut heading rows (columnWidths (heading :: rows)) (rows.map rowHeight)
      (lines heading rows) := by
  have hne : columnWidths (heading :: rows) ≠ [] := widths_ne_nil h
  have hfits : ∀ row ∈ heading :: rows, Fits (columnWidths (heading :: rows)) row :=
    fun _ => fits_widths h
  rw [lines_eq h]
  exact {
    columns := length_widths h
    widest := fun j w hw => isGreatest_columnWidths h.cell_ne_nil hw
    tallest := List.forall₂_map_right_iff.mpr <| List.forall₂_same.mpr fun row hrow =>
      isGreatest_rowHeight <| List.length_pos_iff.mp <|
        h.row_length row hrow ▸ List.length_pos_iff.mpr h.heading_ne_nil
    count := length_drawn
    length := fun line hline => by
      obtain ⟨i, hi⟩ := List.mem_iff_getElem?.mp hline
      obtain ⟨parts, hdivided, -⟩ := exists_divided hne hfits hi
      exact hdivided.length
    borders := fun i line hi => by
      obtain ⟨parts, hdivided, -⟩ := exists_divided hne hfits hi
      exact hdivided.borders
    ruled := fun i line hi hframe j w hw => by
      obtain ⟨parts, hdivided, hparts⟩ := exists_divided hne hfits hi
      apply hdivided.columns j
      rw [hparts hframe, bars, List.getElem?_map, hw]
      rfl
    heading := ⟨_, rfl, shows_rowLine hne (hfits _ List.mem_cons_self) 0⟩
    cells := fun i row height hrow hheight k hk => by
      rw [List.getElem?_map, hrow] at hheight
      obtain rfl : rowHeight row = height := Option.some.inj hheight
      exact ⟨_, getElem?_drawn_row hrow hk,
        shows_rowLine hne (hfits row (List.mem_cons_of_mem _ (List.mem_of_getElem? hrow))) k⟩ }

example : lines [["#".toList], ["Rule".toList]] [[["0".toList], ["a".toList, "bcd".toList]]] =
    ["╭───┬──────╮", "│ # │ Rule │", "├───┼──────┤", "│ 0 │ a    │", "│   │ bcd  │",
      "╰───┴──────╯"].map String.toList := by
  decide

/-! ## The text of a table -/

theorem not_mem_cellLine {c : Char} (hblank : c ≠ ' ') {cell : Cell}
    (hcell : ∀ line ∈ cell, c ∉ line) (k w : Nat) : c ∉ cellLine k w cell := by
  have hline : c ∉ cell[k]?.getD [] := by
    cases hk : cell[k]? with
    | none => exact List.not_mem_nil
    | some line => exact hcell line (List.mem_of_getElem? hk)
  simp [cellLine, padded, List.mem_replicate, hblank, hline]

theorem not_mem_rowLine {c : Char} (hblank : c ≠ ' ') (hside : c ≠ '│') {row : List Cell}
    (hrow : ∀ cell ∈ row, ∀ line ∈ cell, c ∉ line) (widths : List Nat) (k : Nat) :
    c ∉ rowLine widths row k := by
  refine not_mem_framed (f := .sides) ⟨hside, hside, hside⟩ fun part hpart => ?_
  obtain ⟨j, hj⟩ := List.mem_iff_getElem?.mp hpart
  obtain ⟨w, cell, -, hcell, rfl⟩ := List.getElem?_zipWith_eq_some.mp hj
  exact not_mem_cellLine hblank (hrow cell (List.mem_of_getElem? hcell)) k w

theorem newline_not_mem_ruled {f : Frame}
    (hframe : '\n' ≠ f.left ∧ '\n' ≠ f.middle ∧ '\n' ≠ f.right) (widths : List Nat) :
    '\n' ∉ framed f (bars widths) := by
  refine not_mem_framed hframe fun part hpart hmem => ?_
  obtain ⟨w, -, rfl⟩ := List.mem_map.mp hpart
  exact absurd (List.eq_of_mem_replicate hmem) (by decide)

theorem newline_not_mem_drawn {heading : List Cell} {rows : List (List Cell)}
    (hcells : ∀ row ∈ heading :: rows, ∀ cell ∈ row, ∀ line ∈ cell, '\n' ∉ line)
    (widths : List Nat) : ∀ line ∈ drawn widths heading rows, '\n' ∉ line := by
  obtain ⟨hheading, hrows⟩ := List.forall_mem_cons.mp hcells
  refine List.forall_mem_cons.mpr ⟨newline_not_mem_ruled (by decide) widths,
    List.forall_mem_cons.mpr ⟨not_mem_rowLine (by decide) (by decide) hheading widths 0,
    List.forall_mem_cons.mpr ⟨newline_not_mem_ruled (by decide) widths,
    List.forall_mem_append.mpr ⟨fun line hline => ?_, List.forall_mem_singleton.mpr
      (newline_not_mem_ruled (by decide) widths)⟩⟩⟩⟩
  obtain ⟨row, hrow, hmem⟩ := List.mem_flatMap.mp hline
  obtain ⟨k, -, rfl⟩ := List.mem_map.mp hmem
  exact not_mem_rowLine (by decide) (by decide) (hrows row hrow) widths k

/-- The lines of the text are those of the table. -/
theorem splitOn_text {heading : List String} {rows : List (List String)} (hne : rows ≠ [])
    (h : Grid (heading.map cellOf) (rows.map (·.map cellOf))) :
    (text heading rows).toList.splitOn '\n' =
      lines (heading.map cellOf) (rows.map (·.map cellOf)) := by
  have hcells : ∀ row ∈ heading.map cellOf :: rows.map (·.map cellOf), ∀ cell ∈ row,
      ∀ line ∈ cell, '\n' ∉ line := by
    have hrow (row : List String) : ∀ cell ∈ row.map cellOf, ∀ line ∈ cell, '\n' ∉ line :=
      List.forall_mem_map.mpr fun _ _ _ => Path.not_mem_of_mem_splitOn
    exact List.forall_mem_cons.mpr ⟨hrow heading, List.forall_mem_map.mpr fun row _ => hrow row⟩
  have hlines : ∀ line ∈ lines (heading.map cellOf) (rows.map (·.map cellOf)), '\n' ∉ line := by
    rw [lines_eq h]
    exact newline_not_mem_drawn hcells _
  rw [text, if_neg (by rwa [List.isEmpty_iff]), String.toList_ofList,
    List.splitOn_intercalate '\n' hlines (List.cons_ne_nil _ _)]

end PropCalc.Table

namespace PropCalc.Listing

theorem grid (l : Listing) (hne : l.headings ≠ [])
    (hsingle : ∀ s ∈ l.headings, (Table.cellOf s).length = 1) :
    Table.Grid (l.headings.map Table.cellOf) (l.rows.map (·.map Table.cellOf)) where
  heading_ne_nil := mt List.map_eq_nil_iff.mp hne
  row_length := List.forall_mem_map.mpr fun row hrow => by
    rw [List.length_map, List.length_map, l.rows_length row hrow]
  cell_ne_nil := by
    have hrow (row : List String) : ∀ cell ∈ row.map Table.cellOf, cell ≠ [] :=
      List.forall_mem_map.mpr fun s _ => List.splitOn_ne_nil _ _
    exact List.forall_mem_cons.mpr ⟨hrow l.headings, List.forall_mem_map.mpr fun row _ => hrow row⟩
  single_line := List.forall_mem_map.mpr hsingle

/-- The table of rules or of applications, if there are any: all its lines are equally long, with
    their borders below each other; there are four lines besides those of the rows; and each line
    of each cell stands in its column, on its line of its row. A character counts as one column. -/
theorem table_laid_out (l : Listing)
    (hkind : (∃ rows, l = ofRuleRows rows) ∨ ∃ rows, l = ofApplicationRows rows)
    (hrows : l.rows ≠ []) :
    ∃ widths heights, Table.LaidOut (l.headings.map Table.cellOf)
      (l.rows.map (·.map Table.cellOf)) widths heights (l.table.toList.splitOn '\n') := by
  have hgrid : Table.Grid (l.headings.map Table.cellOf) (l.rows.map (·.map Table.cellOf)) := by
    rcases hkind with ⟨rows, rfl⟩ | ⟨rows, rfl⟩
    · have hsingle : ∀ s ∈ (ofRuleRows []).headings, (Table.cellOf s).length = 1 := by decide
      exact grid (ofRuleRows rows) (List.cons_ne_nil _ _) hsingle
    · have hsingle : ∀ s ∈ (ofApplicationRows []).headings, (Table.cellOf s).length = 1 := by
        decide
      exact grid (ofApplicationRows rows) (List.cons_ne_nil _ _) hsingle
  rw [table, Table.splitOn_text hrows hgrid]
  exact ⟨_, _, Table.laidOut_lines hgrid⟩

theorem table_laid_out_two_lines :
    let l := ofRuleRows [⟨"AND", "conjunction\nsplit", "", "(P ∧ Q)", "P"⟩]
    l.rows ≠ [] ∧ ∃ widths heights, Table.LaidOut (l.headings.map Table.cellOf)
      (l.rows.map (·.map Table.cellOf)) widths heights (l.table.toList.splitOn '\n') :=
  ⟨List.cons_ne_nil _ _, table_laid_out _ (.inl ⟨_, rfl⟩) (List.cons_ne_nil _ _)⟩

end PropCalc.Listing
