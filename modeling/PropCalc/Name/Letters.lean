/-
  The letters that variable names are made of, and the names that a formula text can hold.
-/

namespace PropCalc.Name

/-- A Greek letter without diacritics, capital or small. -/
def isGreek (c : Char) : Bool :=
  (0x391 ≤ c.toNat && c.toNat ≤ 0x3A9) || (0x3B1 ≤ c.toNat && c.toNat ≤ 0x3C9)

/-- A word starts with an ASCII or a Greek letter. -/
def starts (c : Char) : Bool := c.isAlpha || isGreek c

/-- A word goes on with ASCII letters, digits and Greek letters. -/
def continues (c : Char) : Bool := c.isAlphanum || isGreek c

theorem continues_of_starts {c : Char} (h : starts c = true) : continues c = true := by
  simp only [starts, continues, Char.isAlphanum, Bool.or_eq_true] at *
  rcases h with h | h
  · exact .inl (.inl h)
  · exact .inr h

end PropCalc.Name
