/-
  Lines that borders divide into columns.

  A line has a border in front of each column and one at its end. Where the borders stand depends
  on the widths of the columns alone (`edge`), so that in lines that are divided by the same widths
  they stand one below the other. A line that is put together from parts of these widths is
  divided so, and each part stands between its two borders (`divided_framed`).
-/
import Mathlib.Algebra.GroupWithZero.Nat
import Mathlib.Data.List.Forall2
import PropCalc.Listing.Table

namespace PropCalc.Table

/-- The borders of a line: its first one, those between columns, and its last one. -/
structure Frame where
  left : Char
  middle : Char
  right : Char
  deriving DecidableEq, Repr

namespace Frame

/-- Of the line above the heading. -/
def top : Frame := ⟨'╭', '┬', '╮'⟩

/-- Of the line below the heading. -/
def separator : Frame := ⟨'├', '┼', '┤'⟩

/-- Of the line below the last row. -/
def bottom : Frame := ⟨'╰', '┴', '╯'⟩

/-- Of the lines with cells. -/
def sides : Frame := ⟨'│', '│', '│'⟩

/-- The border in front of column `j` of `n`, or behind the last one. -/
def border (f : Frame) (n j : Nat) : Char :=
  if j = 0 then f.left else if j = n then f.right else f.middle

end Frame

/-! ## Places in a line -/

/-- The offset of the border in front of column `j`, or of the last border. Each column before it
    takes its border, two blanks and its width. -/
def edge (widths : List Nat) (j : Nat) : Nat := ((widths.take j).map (· + 3)).sum

/-- What stands in column `j` of a line, the blanks at its two sides included. -/
def inColumn (widths : List Nat) (j : Nat) (line : List Char) : List Char :=
  (line.drop (edge widths j + 1)).take (widths.getD j 0 + 2)

theorem edge_cons (w : Nat) (widths : List Nat) (j : Nat) :
    edge (w :: widths) (j + 1) = w + 3 + edge widths j := by
  unfold edge
  rw [List.take_succ_cons, List.map_cons, List.sum_cons]

theorem inColumn_zero (w : Nat) (widths : List Nat) (c : Char) {part : List Char}
    (hpart : part.length = w + 2) (line : List Char) :
    inColumn (w :: widths) 0 (c :: (part ++ line)) = part := by
  show (part ++ line).take (w + 2) = part
  rw [← hpart, List.take_left]

theorem inColumn_succ (w : Nat) (widths : List Nat) (j : Nat) (c : Char) {part : List Char}
    (hpart : part.length = w + 2) (line : List Char) :
    inColumn (w :: widths) (j + 1) (c :: (part ++ line)) = inColumn widths j line := by
  have hoffset : edge (w :: widths) (j + 1) = (c :: part).length + edge widths j := by
    rw [edge_cons, List.length_cons, hpart]
  have hdrop : (c :: (part ++ line)).drop (edge (w :: widths) (j + 1) + 1) =
      line.drop (edge widths j + 1) := by
    rw [hoffset, Nat.add_assoc, ← List.cons_append, List.drop_length_add_append]
  unfold inColumn
  rw [hdrop, List.getD_cons_succ]

/-! ## Lines made of parts -/

/-- The parts with the borders of a frame around and between them. -/
def framed (f : Frame) (parts : List (List Char)) : List Char :=
  f.left :: (List.intercalate [f.middle] parts ++ [f.right])

theorem framed_singleton (f : Frame) (part : List Char) :
    framed f [part] = f.left :: (part ++ [f.right]) := by
  rw [framed, List.intercalate_singleton]

theorem framed_cons_cons (f : Frame) (part next : List Char) (parts : List (List Char)) :
    framed f (part :: next :: parts) =
      f.left :: (part ++ framed ⟨f.middle, f.middle, f.right⟩ (next :: parts)) := by
  simp [framed, List.intercalate_cons_cons]

/-- The line is divided into columns of these widths by the borders of the frame, and has these
    parts in them. -/
structure Divided (widths : List Nat) (f : Frame) (parts : List (List Char)) (cs : List Char) :
    Prop where
  length : cs.length = edge widths widths.length + 1
  borders : ∀ j ≤ widths.length, cs[edge widths j]? = some (f.border widths.length j)
  columns : ∀ (j : Nat) part, parts[j]? = some part → inColumn widths j cs = part

/-- What a line is divided into after its first column is its first part in front of the rest. -/
theorem Divided.cons {w : Nat} {widths : List Nat} {f : Frame} {part : List Char}
    {parts : List (List Char)} {line : List Char} (hne : widths ≠ [])
    (hpart : part.length = w + 2)
    (h : Divided widths ⟨f.middle, f.middle, f.right⟩ parts line) :
    Divided (w :: widths) f (part :: parts) (f.left :: (part ++ line)) where
  length := by
    rw [List.length_cons, List.length_append, hpart, h.length, List.length_cons, edge_cons]
    omega
  borders j hj := by
    cases j with
    | zero => rfl
    | succ j =>
      have hwidths : widths.length ≠ 0 := mt List.length_eq_zero_iff.mp hne
      have hoffset : edge (w :: widths) (j + 1) = (f.left :: part).length + edge widths j := by
        rw [edge_cons, List.length_cons, hpart]
      rw [hoffset, ← List.cons_append, List.getElem?_append_right (Nat.le_add_right _ _),
        Nat.add_sub_cancel_left, h.borders j (Nat.le_of_succ_le_succ hj)]
      simp only [Frame.border, List.length_cons, Nat.succ_ne_zero, if_false, Nat.succ_inj]
      split
      · next hzero => rw [if_neg (by omega)]
      · rfl
  columns j part' hpart' := by
    cases j with
    | zero =>
      cases hpart'
      exact inColumn_zero w widths f.left hpart line
    | succ j =>
      rw [inColumn_succ w widths j f.left hpart line]
      exact h.columns j part' hpart'

theorem divided_singleton (f : Frame) {w : Nat} {part : List Char} (hpart : part.length = w + 2) :
    Divided [w] f [part] (framed f [part]) where
  length := by
    rw [framed_singleton, List.length_cons, List.length_append, hpart]
    rfl
  borders j hj := by
    rw [framed_singleton]
    match j, hj with
    | 0, _ => rfl
    | 1, _ =>
      have hoffset : edge [w] 1 = (f.left :: part).length := by
        rw [List.length_cons, hpart]
        rfl
      rw [hoffset, ← List.cons_append, List.getElem?_append_right (Nat.le_refl _), Nat.sub_self]
      rfl
  columns j part' hpart' := by
    rw [framed_singleton]
    cases j with
    | zero =>
      cases hpart'
      exact inColumn_zero w [] f.left hpart [f.right]
    | succ j => cases hpart'

/-- Parts of the widths of the columns, each two wider for its blanks, stand in the columns. -/
theorem divided_framed (f : Frame) {widths : List Nat} {parts : List (List Char)}
    (hne : widths ≠ []) (h : List.Forall₂ (fun w part => part.length = w + 2) widths parts) :
    Divided widths f parts (framed f parts) := by
  induction h generalizing f with
  | nil => exact absurd rfl hne
  | @cons w part widths parts hpart hparts ih =>
    cases hparts with
    | nil => exact divided_singleton f hpart
    | cons hnext hrest =>
      rw [framed_cons_cons]
      exact (ih _ (List.cons_ne_nil _ _)).cons (List.cons_ne_nil _ _) hpart

/-- A character is in the line only if it is a border or stands in one of the parts. -/
theorem not_mem_framed {c : Char} {f : Frame} {parts : List (List Char)}
    (hframe : c ≠ f.left ∧ c ≠ f.middle ∧ c ≠ f.right) (hparts : ∀ part ∈ parts, c ∉ part) :
    c ∉ framed f parts := by
  have hbetween : c ∉ List.intercalate [f.middle] parts := by
    induction parts with
    | nil => exact List.not_mem_nil
    | cons part parts ih =>
      obtain ⟨hpart, hrest⟩ := List.forall_mem_cons.mp hparts
      cases parts with
      | nil =>
        rw [List.intercalate_singleton]
        exact hpart
      | cons next parts =>
        rw [List.intercalate_cons_cons]
        simp only [List.mem_append, List.mem_singleton, not_or]
        exact ⟨⟨hpart, hframe.2.1⟩, ih hrest⟩
  simp only [framed, List.mem_cons, List.mem_append, List.not_mem_nil, or_false, not_or]
  exact ⟨hframe.1, hbetween, hframe.2.2⟩

end PropCalc.Table
