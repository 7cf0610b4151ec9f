/-
  What is left of a text without the blanks at its two ends.

  It is the part between blanks that neither begins nor ends with one, and there is only one such
  part, also of a text of blanks alone (`trimmed_iff`).
-/
import PropCalc.Text.Blank

namespace PropCalc.Text

variable {cs core blanks : List Char}

/-- `core` stands between blanks, and neither begins nor ends with one. -/
structure Trimmed (cs core : List Char) : Prop where
  between : ∃ before after, allBlank before = true ∧ allBlank after = true ∧
    cs = before ++ core ++ after
  first : ∀ c, core.head? = some c → isBlank c = false
  last : ∀ c, core.getLast? = some c → isBlank c = false

/-! ## Blanks in front -/

theorem dropWhile_blanks_append (h : allBlank blanks = true) (cs : List Char) :
    (blanks ++ cs).dropWhile isBlank = cs.dropWhile isBlank :=
  List.dropWhile_append_of_pos (List.all_eq_true.mp h)

theorem dropWhile_isBlank (h : ∀ c, cs.head? = some c → isBlank c = false) :
    cs.dropWhile isBlank = cs := by
  cases cs with
  | nil => rfl
  | cons c cs => rw [List.dropWhile_cons_of_neg (by simp [h c rfl])]

theorem allBlank_takeWhile (cs : List Char) : allBlank (cs.takeWhile isBlank) = true :=
  List.all_takeWhile

theorem head?_dropWhile (cs : List Char) {c : Char} (h : (cs.dropWhile isBlank).head? = some c) :
    isBlank c = false := by
  have hfirst := List.head?_dropWhile_not isBlank cs
  rw [h] at hfirst
  exact hfirst

/-! ## Both ends -/

theorem allBlank_reverse (cs : List Char) : allBlank cs.reverse = allBlank cs := List.all_reverse

theorem trim_blanks_append (h : allBlank blanks = true) (cs : List Char) :
    trim (blanks ++ cs) = trim cs := by
  unfold trim
  rw [dropWhile_blanks_append h]

theorem trim_append_blanks (h : allBlank blanks = true) (cs : List Char) :
    trim (cs ++ blanks) = trim cs := by
  have hreverse : allBlank blanks.reverse = true := by rw [allBlank_reverse, h]
  unfold trim
  rw [List.dropWhile_append]
  cases hcs : cs.dropWhile isBlank with
  | nil =>
    have hblanks : blanks.dropWhile isBlank = [] := by
      have hall := dropWhile_blanks_append h []
      rwa [List.append_nil] at hall
    simp [hblanks]
  | cons c rest =>
    rw [if_neg (by simp), List.reverse_append, dropWhile_blanks_append hreverse]

/-- Nothing is cut off a text that has no blanks at its two ends. -/
theorem trim_eq_self (hfirst : ∀ c, cs.head? = some c → isBlank c = false)
    (hlast : ∀ c, cs.getLast? = some c → isBlank c = false) : trim cs = cs := by
  have hreverse : ∀ c, cs.reverse.head? = some c → isBlank c = false := by
    intro c hc
    rw [List.head?_reverse] at hc
    exact hlast c hc
  unfold trim
  rw [dropWhile_isBlank hfirst, dropWhile_isBlank hreverse, List.reverse_reverse]

theorem trimmed_trim (cs : List Char) : Trimmed cs (trim cs) := by
  have hfront : cs = cs.takeWhile isBlank ++ cs.dropWhile isBlank :=
    List.takeWhile_append_dropWhile.symm
  have hback : cs.dropWhile isBlank =
      trim cs ++ ((cs.dropWhile isBlank).reverse.takeWhile isBlank).reverse := by
    unfold trim
    rw [← List.reverse_append, List.takeWhile_append_dropWhile, List.reverse_reverse]
  refine ⟨⟨cs.takeWhile isBlank, ((cs.dropWhile isBlank).reverse.takeWhile isBlank).reverse,
    allBlank_takeWhile cs, ?_, ?_⟩, ?_, ?_⟩
  · rw [allBlank_reverse]
    exact allBlank_takeWhile _
  · rw [List.append_assoc, ← hback]
    exact hfront
  · intro c hc
    apply head?_dropWhile cs
    rw [hback, List.head?_append, hc, Option.some_or]
  · intro c hc
    unfold trim at hc
    rw [List.getLast?_reverse] at hc
    exact head?_dropWhile _ hc

theorem trimmed_iff : Trimmed cs core ↔ trim cs = core := by
  constructor
  · rintro ⟨⟨before, after, hbefore, hafter, rfl⟩, hfirst, hlast⟩
    rw [trim_append_blanks hafter, trim_blanks_append hbefore, trim_eq_self hfirst hlast]
  · rintro rfl
    exact trimmed_trim cs

/-- Nothing is left exactly of the texts of blanks. -/
theorem trim_eq_nil_iff : trim cs = [] ↔ allBlank cs = true := by
  constructor
  · intro h
    obtain ⟨before, after, hbefore, hafter, hcs⟩ := (trimmed_iff.mpr h).between
    rw [hcs, List.append_nil]
    unfold allBlank at *
    rw [List.all_append, hbefore, hafter]
    rfl
  · intro h
    rw [← List.append_nil cs, trim_blanks_append h]
    rfl

end PropCalc.Text
