/-
  Rules whose sides are equivalent preserve truth, and no others do.

  A rule is sound if both sides are formulas and have the same truth table. Using a sound rule
  leads to an equivalent formula (`apply_equivalent`) as long as the bindings given by the user
  leave the names of the matched side alone; they may bind, or leave in place, any name that
  only the other side has. A rule can be used on its own left side and gives the right one
  (`apply_pattern`), so that only sound rules preserve truth (`equivalent_sides_iff`). All standard
  rules are sound (`standard_sound`).
-/
import PropCalc.Proofs.Matching.Search
import PropCalc.Rule.Standard

namespace PropCalc

open Formula (Equivalent)

/-- After a match the pattern becomes what stands there, also under bindings for other names. -/
theorem Match.Holds.instantiate_merge {m : Match} {e pattern : Formula} (h : m.Holds e pattern)
    {given : Substitution} (hgiven : ∀ x ∈ pattern.names, given.get? x = none) :
    e.subformula m.position = some (pattern.instantiate (m.substitution.merge given)) := by
  have hsame : pattern.instantiate (m.substitution.merge given) =
      pattern.instantiate m.substitution :=
    Formula.instantiate_congr fun x hx => Substitution.image_merge_of_unbound (hgiven x hx)
  rw [hsame, h.subformula]

/-- Putting an instantiated equivalent in the place of a match leads to an equivalent formula. -/
theorem Oriented.putAt_equivalent {o : Oriented} {e e' : Formula} {m : Match}
    {given : Substitution} (hsides : Equivalent o.pattern o.replacement)
    (hm : m.Holds e o.pattern) (hgiven : ∀ x ∈ o.pattern.names, given.get? x = none)
    (h : o.putAt e m.position (m.substitution.merge given) = some e') : Equivalent e e' :=
  Formula.replaceAt_equivalent (hm.instantiate_merge hgiven) h (hsides.instantiate _)

/-- Where a pattern matches anything can be put. -/
theorem Oriented.isSome_putAt (o : Oriented) {e pattern : Formula} {m : Match}
    (hm : m.Holds e pattern) (σ : Substitution) : (o.putAt e m.position σ).isSome := by
  rw [Oriented.putAt, Formula.isSome_replaceAt, hm.subformula]
  rfl

theorem Direction.mem_both (d : Direction) : d ∈ both := by
  cases d <;> decide

namespace Rule

/-! ## What using a rule does -/

theorem oriented_eq_ok_iff {r : Rule} {d : Direction} {o : Oriented} :
    r.oriented d = .ok o ↔ ∃ left right,
      Formula.parse r.left = .ok left ∧ Formula.parse r.right = .ok right ∧
        o = match d with
          | .leftToRight => ⟨left, right⟩
          | .rightToLeft => ⟨right, left⟩ := by
  unfold oriented
  cases hl : Formula.parse r.left with
  | error _ => simp [bind, Except.bind]
  | ok left =>
    cases hr : Formula.parse r.right with
    | error _ => simp [bind, Except.bind]
    | ok right => cases d <;> simp [bind, Except.bind, pure, Except.pure, eq_comm]

theorem oriented_of_sides {r : Rule} {left right : Formula} (hl : Formula.parse r.left = .ok left)
    (hr : Formula.parse r.right = .ok right) : r.oriented .leftToRight = .ok ⟨left, right⟩ :=
  oriented_eq_ok_iff.mpr ⟨left, right, hl, hr, rfl⟩

theorem apply_of_error {r : Rule} {d : Direction} {err : ParseError}
    (h : r.oriented d = .error err) (position : Option Path) (given : Substitution) (e : Formula) :
    r.apply d position given e = none := by
  unfold apply
  rw [h]

/-- A rule with two sides is used where its pattern is found. -/
theorem apply_of_oriented {r : Rule} {d : Direction} {o : Oriented} (ho : r.oriented d = .ok o)
    (position : Option Path) (given : Substitution) (e : Formula) :
    r.apply d position given e = (e.search o.pattern position).bind fun m =>
      o.putAt e m.position (m.substitution.merge given) := by
  unfold apply
  rw [ho]
  cases position <;> rfl

/-- At a position a rule is used if its pattern matches there. -/
theorem apply_at {r : Rule} {d : Direction} {o : Oriented} (ho : r.oriented d = .ok o) (p : Path)
    (given : Substitution) (e : Formula) :
    r.apply d (some p) given e =
      (e.matchAt o.pattern p).bind fun m => o.putAt e m.position (m.substitution.merge given) :=
  apply_of_oriented ho (some p) given e

theorem apply_of_holds {r : Rule} {d : Direction} {o : Oriented} (ho : r.oriented d = .ok o)
    {m : Match} {e : Formula} (hm : m.Holds e o.pattern) (given : Substitution) :
    r.apply d (some m.position) given e =
      o.putAt e m.position (m.substitution.merge given) := by
  rw [apply_at ho, Formula.matchAt_eq_some_iff.mpr ⟨rfl, hm⟩, Option.bind_some]

/-- A rule that is used has two sides, a match, and puts its other side there. -/
theorem apply_eq_some {r : Rule} {d : Direction} {position : Option Path} {given : Substitution}
    {e e' : Formula} (h : r.apply d position given e = some e') :
    ∃ (o : Oriented) (m : Match), r.oriented d = .ok o ∧ m.Holds e o.pattern ∧
      (∀ p, position = some p → m.position = p) ∧
      o.putAt e m.position (m.substitution.merge given) = some e' := by
  cases ho : r.oriented d with
  | error err =>
    rw [apply_of_error ho] at h
    cases h
  | ok o =>
    rw [apply_of_oriented ho] at h
    obtain ⟨m, hm, hput⟩ := Option.bind_eq_some_iff.mp h
    have hfound := Formula.search_eq_some_iff.mp hm
    exact ⟨o, m, rfl, hfound.holds, hfound.given, hput⟩

/-! ## Soundness -/

/-- Both sides are formulas, and equivalent. -/
def Sound (r : Rule) : Prop :=
  ∃ left right, Formula.parse r.left = .ok left ∧ Formula.parse r.right = .ok right ∧
    Equivalent left right

instance (r : Rule) : Decidable r.Sound :=
  match hl : Formula.parse r.left, hr : Formula.parse r.right with
  | .ok left, .ok right =>
    decidable_of_iff (Equivalent left right) <| by
      simp [Sound, hl, hr]
  | .error _, _ => isFalse (by simp [Sound, hl])
  | _, .error _ => isFalse (by simp [Sound, hr])

theorem Sound.oriented {r : Rule} (h : r.Sound) {d : Direction} {o : Oriented}
    (ho : r.oriented d = .ok o) : Equivalent o.pattern o.replacement := by
  obtain ⟨left, right, hl, hr, hequiv⟩ := h
  obtain ⟨left', right', hl', hr', rfl⟩ := oriented_eq_ok_iff.mp ho
  have hleft : left = left' := Except.ok.inj (hl.symm.trans hl')
  have hright : right = right' := Except.ok.inj (hr.symm.trans hr')
  subst hleft hright
  cases d with
  | leftToRight => exact hequiv
  | rightToLeft => exact hequiv.symm

/-- The bindings leave the names of the matched side alone. -/
def BindsOnlyNew (r : Rule) (d : Direction) (given : Substitution) : Prop :=
  ∀ o, r.oriented d = .ok o → ∀ x ∈ o.pattern.names, given.get? x = none

instance (r : Rule) (d : Direction) (given : Substitution) :
    Decidable (r.BindsOnlyNew d given) :=
  match h : r.oriented d with
  | .ok o =>
    decidable_of_iff (∀ x ∈ o.pattern.names, given.get? x = none) <| by
      simp [BindsOnlyNew, h]
  | .error _ => isTrue (by simp [BindsOnlyNew, h])

/-- Using a sound rule leads to an equivalent formula. -/
theorem apply_equivalent {r : Rule} (hr : r.Sound) {d : Direction} {position : Option Path}
    {given : Substitution} (hgiven : r.BindsOnlyNew d given) {e e' : Formula}
    (h : r.apply d position given e = some e') : Equivalent e e' := by
  obtain ⟨o, m, ho, hm, -, hput⟩ := apply_eq_some h
  exact Oriented.putAt_equivalent (hr.oriented ho) hm (hgiven o ho) hput

/-- At the root a rule turns the side that is looked for into the other one. -/
theorem apply_pattern {r : Rule} {d : Direction} {o : Oriented} (ho : r.oriented d = .ok o) :
    r.apply d (some []) ∅ o.pattern = some o.replacement := by
  obtain ⟨σ, hσ, himage⟩ := Formula.unify_self o.pattern
  have hm : (⟨[], σ⟩ : Match).Holds o.pattern o.pattern :=
    ⟨o.pattern, Formula.subformula_root _, hσ⟩
  have happly := apply_of_holds ho hm ∅
  rw [happly, NameMap.merge_empty, Oriented.putAt, Formula.replaceAt_root,
    Formula.instantiate_eq_self himage]

/-- The sides of a rule are equivalent exactly if using the rule never changes a truth value, in
    either direction, at any position or where it is found first, and with any bindings that leave
    the names of the matched side alone. -/
theorem equivalent_sides_iff {r : Rule} {left right : Formula}
    (hl : Formula.parse r.left = .ok left) (hr : Formula.parse r.right = .ok right) :
    (∀ v, left.eval v = right.eval v) ↔
      ∀ e d position given, r.BindsOnlyNew d given →
        ∀ e', r.apply d position given e = some e' → ∀ v, e.eval v = e'.eval v := by
  constructor
  · intro hsides e d position given hgiven e' h
    have hsound : r.Sound := ⟨left, right, hl, hr, hsides⟩
    exact apply_equivalent hsound hgiven h
  · intro hpreserves
    have hleft := apply_pattern (oriented_of_sides hl hr)
    exact hpreserves left .leftToRight (some []) ∅ (fun _ _ _ _ => rfl) right hleft

/-- An implication is false where its left side is true and its right side is not. -/
def negatedImplication : Rule :=
  ⟨"negated-implication", "Negated Implication", "¬(𝜑 → 𝜓) ≡ 𝜑 ∧ ¬𝜓", .definability,
    "¬(A → B)", "A ∧ ¬B", ["A", "B"]⟩

theorem negatedImplication_preserves_truth :
    Formula.parse negatedImplication.left =
      .ok (.neg (.bin .implies (.var "A") (.var "B"))) ∧
    Formula.parse negatedImplication.right =
      .ok (.bin .and (.var "A") (.neg (.var "B"))) ∧
    ∀ e d position given, negatedImplication.BindsOnlyNew d given →
      ∀ e', negatedImplication.apply d position given e = some e' →
        ∀ v, e.eval v = e'.eval v := by
  have hl : Formula.parse negatedImplication.left =
      .ok (.neg (.bin .implies (.var "A") (.var "B"))) := by rfl
  have hr : Formula.parse negatedImplication.right =
      .ok (.bin .and (.var "A") (.neg (.var "B"))) := by rfl
  have hsides : Equivalent (.neg (.bin .implies (.var "A") (.var "B")))
      (.bin .and (.var "A") (.neg (.var "B"))) := by decide
  exact ⟨hl, hr, (equivalent_sides_iff hl hr).mp hsides⟩

/-- Each standard rule has two sides with the same truth table. -/
theorem standard_sound : ∀ r ∈ standard, r.Sound := by
  decide +kernel

end Rule

end PropCalc
