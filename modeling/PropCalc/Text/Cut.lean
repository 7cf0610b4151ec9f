/-
  Cutting a text at the first occurrence of a character.
-/

namespace PropCalc.Text

/-- What stands before and after the first `sep`, or `none` if there is no `sep`. -/
def cutAt (sep : Char) : List Char → Option (List Char × List Char)
  | [] => none
  | c :: cs =>
    if c = sep then some ([], cs)
    else (cutAt sep cs).map fun (before, after) => (c :: before, after)

theorem cutAt_eq_none_iff {sep : Char} {cs : List Char} : cutAt sep cs = none ↔ sep ∉ cs := by
  induction cs with
  | nil => simp [cutAt]
  | cons c cs ih =>
    by_cases h : c = sep
    · simp [cutAt, h]
    · simp [cutAt, h, ih, Ne.symm h]

/-- A cut loses only the separator, and none stands before it. -/
theorem cutAt_eq_some_iff {sep : Char} {cs before after : List Char} :
    cutAt sep cs = some (before, after) ↔ cs = before ++ sep :: after ∧ sep ∉ before := by
  induction cs generalizing before with
  | nil => simp [cutAt]
  | cons c cs ih =>
    by_cases h : c = sep
    · subst h
      cases before <;> simp_all [cutAt, eq_comm]
    · cases before with
      | nil => simp [cutAt, h]
      | cons b bs =>
        have hb : (c = b ∧ cs = bs ++ sep :: after) ∧ ¬ sep = b ∧ sep ∉ bs ↔
            c = b ∧ cs = bs ++ sep :: after ∧ sep ∉ bs :=
          ⟨fun ⟨⟨h₁, h₂⟩, _, h₃⟩ => ⟨h₁, h₂, h₃⟩,
            fun ⟨h₁, h₂, h₃⟩ => ⟨⟨h₁, h₂⟩, fun e => h (h₁.trans e.symm), h₃⟩⟩
        rw [List.cons_append, List.cons.injEq, List.mem_cons, not_or, hb, ← ih]
        cases hc : cutAt sep cs with
        | none => simp [cutAt, h, hc]
        | some p => simp [cutAt, h, hc, Prod.ext_iff, and_assoc]

end PropCalc.Text
