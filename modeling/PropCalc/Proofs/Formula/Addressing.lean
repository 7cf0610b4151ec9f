/-
  The laws of paths.

  Looking up and replacing agree on which paths stay in a formula, and a replacement can be seen
  from every path: below its place stands what the new formula has there, beside it what stood
  there before, and above it what stood there with the replacement made further down
  (`subformula_append_of_replaceAt`, `subformula_of_replaceAt_beside`,
  `subformula_of_replaceAt_append`). As operations that may fail, replacements at one path absorb
  each other (`replaceAt_bind_replaceAt`), and those at two paths beside each other commute
  (`replaceAt_bind_comm`): a replacement opens and closes no path beside its place.
-/
import PropCalc.Proofs.Formula.Places

namespace PropCalc.Formula

variable {e new e' : Formula} {p q : Path}

/-! ## A replacement seen from all paths -/

/-- Below the place stand the parts of the new formula. -/
theorem subformula_append_of_replaceAt (h : e.replaceAt p new = some e') (q : Path) :
    e'.subformula (p ++ q) = new.subformula q := by
  rw [subformula_append, subformula_of_replaceAt h, Option.bind_some]

/-- Above the place stands what stood there, with the replacement made on the rest of the path. -/
theorem subformula_of_replaceAt_append (h : e.replaceAt (p ++ q) new = some e') :
    e'.subformula p = (e.subformula p).bind fun f => f.replaceAt q new := by
  obtain ⟨f, f', hf, hbelow, hput⟩ := replaceAt_append_eq_some_iff.mp h
  rw [subformula_of_replaceAt hput, hf, Option.bind_some, hbelow]

/-! ## Two replacements -/

theorem replaceAt_eq_none_iff : e.replaceAt p new = none ↔ e.subformula p = none := by
  rw [← Option.not_isSome_iff_eq_none, isSome_replaceAt, Option.not_isSome_iff_eq_none]

/-- Of two replacements at a path only the second counts, also where the path leaves the tree. -/
theorem replaceAt_bind_replaceAt (e : Formula) (p : Path) (first second : Formula) :
    ((e.replaceAt p first).bind fun e₁ => e₁.replaceAt p second) = e.replaceAt p second := by
  cases h : e.replaceAt p first with
  | none => rw [Option.bind_none, replaceAt_eq_none_iff.mpr (replaceAt_eq_none_iff.mp h)]
  | some e₁ => rw [Option.bind_some, replaceAt_of_replaceAt h]

/-- A replacement opens no path beside its place. -/
theorem replaceAt_none_of_replaceAt_beside {other : Formula} (h : e.replaceAt p new = some e')
    (hpq : ¬ p <+: q) (hqp : ¬ q <+: p) (hq : e.replaceAt q other = none) :
    e'.replaceAt q other = none := by
  rw [replaceAt_eq_none_iff] at hq ⊢
  rw [subformula_of_replaceAt_beside h hpq hqp, hq]

/-- Two replacements beside each other come to the same in either order, also where one of the
    paths leaves the tree. -/
theorem replaceAt_bind_comm (e first second : Formula) (hpq : ¬ p <+: q) (hqp : ¬ q <+: p) :
    ((e.replaceAt p first).bind fun e₁ => e₁.replaceAt q second) =
      (e.replaceAt q second).bind fun e₂ => e₂.replaceAt p first := by
  cases h₁ : e.replaceAt p first with
  | none =>
    cases h₂ : e.replaceAt q second with
    | none => rfl
    | some e₂ =>
      rw [Option.bind_none, Option.bind_some, replaceAt_none_of_replaceAt_beside h₂ hqp hpq h₁]
  | some e₁ =>
    cases h₂ : e.replaceAt q second with
    | none =>
      rw [Option.bind_none, Option.bind_some, replaceAt_none_of_replaceAt_beside h₁ hpq hqp h₂]
    | some e₂ =>
      rw [Option.bind_some, Option.bind_some, replaceAt_comm h₁ h₂ hpq hqp]

/-! ## All laws -/

/-- A replacement goes through exactly where something stands. Then the new formula stands there
    with all its parts; on paths that neither lead to the place nor go on from it everything is as
    before; and on those that lead to it stands what stood there, with the replacement made on the
    rest of the path. Putting back what stands in a place changes nothing. Of two replacements at a
    path the second alone counts. A replacement further down is one of what stands above it, with
    the replacement made inside. Replacements at two paths of which neither goes on from the other
    can be made in either order. -/
theorem addressing_laws (e new : Formula) (p : Path) :
    ((e.replaceAt p new).isSome ↔ (e.subformula p).isSome) ∧
    (∀ e', e.replaceAt p new = some e' →
      (∀ q, e'.subformula (p ++ q) = new.subformula q) ∧
      (∀ q, ¬ p <+: q → ¬ q <+: p → e'.subformula q = e.subformula q) ∧
      ∀ q rest, q ++ rest = p →
        e'.subformula q = (e.subformula q).bind fun f => f.replaceAt rest new) ∧
    (∀ old, e.subformula p = some old → e.replaceAt p old = some e) ∧
    (∀ second,
      ((e.replaceAt p new).bind fun e₁ => e₁.replaceAt p second) = e.replaceAt p second) ∧
    (∀ q, e.replaceAt (p ++ q) new =
      (e.subformula p).bind fun f => (f.replaceAt q new).bind fun f' => e.replaceAt p f') ∧
    ∀ q other, ¬ p <+: q → ¬ q <+: p →
      ((e.replaceAt p new).bind fun e₁ => e₁.replaceAt q other) =
        (e.replaceAt q other).bind fun e₂ => e₂.replaceAt p new := by
  refine ⟨by rw [isSome_replaceAt], fun e' h => ⟨subformula_append_of_replaceAt h,
    fun q => subformula_of_replaceAt_beside h, ?_⟩, fun old => replaceAt_subformula,
    e.replaceAt_bind_replaceAt p new, fun q => e.replaceAt_append p q new,
    fun q other => e.replaceAt_bind_comm new other⟩
  rintro q rest rfl
  exact subformula_of_replaceAt_append h

/-- A formula with a negation below its left operand. -/
def nested : Formula := bin .or (bin .and (var "p") (neg (var "q"))) (var "r")

/-- With the negation replaced, its operand is gone, its neighbour and the right operand are as
    before, and both orders of replacing the two operands of the conjunction come to the same. -/
theorem addressing_laws_nested :
    nested.replaceAt [0, 1] (const true) =
      some (bin .or (bin .and (var "p") (const true)) (var "r")) ∧
    ¬ [0, 1] <+: [0, 0] ∧ ¬ [0, 0] <+: [0, 1] ∧
    (bin .or (bin .and (var "p") (const true)) (var "r")).subformula ([0, 1] ++ [0]) =
      (const true).subformula [0] ∧
    (bin .or (bin .and (var "p") (const true)) (var "r")).subformula [0, 0] =
      nested.subformula [0, 0] ∧
    ((nested.replaceAt [0, 1] (const true)).bind fun e₁ => e₁.replaceAt [0, 0] (var "s")) =
      (nested.replaceAt [0, 0] (var "s")).bind fun e₂ => e₂.replaceAt [0, 1] (const true) := by
  have hput : nested.replaceAt [0, 1] (const true) =
      some (bin .or (bin .and (var "p") (const true)) (var "r")) := by decide
  have hpq : ¬ [0, 1] <+: [0, 0] := by decide
  have hqp : ¬ [0, 0] <+: [0, 1] := by decide
  obtain ⟨-, hseen, -, -, -, hcomm⟩ := addressing_laws nested (const true) [0, 1]
  obtain ⟨hbelow, hbeside, -⟩ := hseen _ hput
  exact ⟨hput, hpq, hqp, hbelow [0], hbeside [0, 0] hpq hqp, hcomm [0, 0] (var "s") hpq hqp⟩

/-- A negation has no second operand, and nothing stands below a leaf. -/
example : (neg (var "a")).replaceAt [1] (var "z") = none ∧
    (neg (var "a")).replaceAt [0, 0] (var "z") = none := by
  decide

end PropCalc.Formula
