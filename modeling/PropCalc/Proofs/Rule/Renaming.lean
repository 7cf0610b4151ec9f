/-
  The names of a rule are its own.

  Rule and subject share their names, but which names a rule uses does not matter. If the names of
  a pattern are changed and stay different, the same subjects match, with the same bindings under
  the new names (`unify_renamed`), whatever names the subject has. So two rules whose sides are
  carried into each other by one renaming match at the same positions, and where no side puts in a
  name that the other one lacks they do the same (`agrees_of_renamed`).
-/
import Mathlib.Logic.Equiv.Basic
import PropCalc.Formula.Canonical
import PropCalc.Proofs.Rule.Soundness

namespace PropCalc

variable {ρ : String → String}

namespace Formula

/-- The formula with every name changed as `ρ` says. -/
def renamed (ρ : String → String) (e : Formula) : Formula := e.replaceNames fun x => var (ρ x)

variable {e p : Formula} {σ : Substitution}

/-! ## Formulas with other names -/

theorem names_renamed (ρ : String → String) (e : Formula) :
    (e.renamed ρ).names = e.names.map ρ := by
  unfold renamed
  induction e with
  | var x => rfl
  | const b => rfl
  | neg e ih => rw [replaceNames, names, names, ih]
  | bin op l r ihl ihr => rw [replaceNames, names, names, ihl, ihr, List.map_append]

/-- Going back to the old names gives the formula back. -/
theorem renamed_renamed {ι : String → String} (h : ∀ x ∈ e.names, ι (ρ x) = x) :
    (e.renamed ρ).renamed ι = e := by
  have hsame : ∀ x ∈ e.names, (var (ρ x)).replaceNames (fun y => var (ι y)) = var x :=
    fun x hx => by rw [replaceNames, h x hx]
  calc (e.renamed ρ).renamed ι
      = e.replaceNames fun x => (var (ρ x)).replaceNames fun y => var (ι y) :=
        replaceNames_replaceNames _ _ e
    _ = e.replaceNames var := e.replaceNames_eq_replaceNames_iff.mpr hsame
    _ = e := replaceNames_var e

/-- A renaming that keeps the names different can be undone, and so can its undoing. -/
theorem exists_renamed_renamed (hρ : Set.InjOn ρ {x | x ∈ e.names}) :
    ∃ ι, Set.InjOn ι {y | y ∈ (e.renamed ρ).names} ∧ (e.renamed ρ).renamed ι = e := by
  have himage : {y | y ∈ (e.renamed ρ).names} = Set.image ρ {x | x ∈ e.names} := by
    ext y
    simp [names_renamed]
  refine ⟨Function.invFunOn ρ {x | x ∈ e.names}, ?_, ?_⟩
  · rw [himage]
    exact Function.invFunOn_injOn_image ρ {x | x ∈ e.names}
  · exact renamed_renamed fun x hx => hρ.leftInvOn_invFunOn hx

/-- Bindings under the new names put the same in for the names of the renamed formula. -/
theorem instantiate_renamed (hρ : Set.InjOn ρ {x | (σ.get? x).isSome})
    (hbound : ∀ x ∈ e.names, (σ.get? x).isSome) :
    (e.renamed ρ).instantiate (σ.renameKeys ρ) = e.instantiate σ := by
  rw [renamed, instantiate_replaceNames, instantiate_eq_replaceNames,
    replaceNames_eq_replaceNames_iff]
  intro x hx
  exact Substitution.image_renameKeys hρ (hbound x hx)

/-! ## Patterns with other names -/

theorem unify_renamed_of_eq_some (hρ : Set.InjOn ρ {x | x ∈ p.names})
    (h : e.unify p = some σ) : e.unify (p.renamed ρ) = some (σ.renameKeys ρ) := by
  obtain ⟨hbound, hgives⟩ := (unify_eq_some_iff e p σ).mp h
  have hρ' : Set.InjOn ρ {x | (σ.get? x).isSome} := by
    simpa only [hbound] using hρ
  refine (unify_eq_some_iff e _ _).mpr ⟨fun y => ?_, ?_⟩
  · rw [NameMap.isSome_get?_renameKeys_iff hρ', names_renamed, List.mem_map]
    simp only [hbound]
  · rw [instantiate_renamed hρ' fun x hx => (hbound x).mpr hx, hgives]

/-- A pattern with other names, as long as they stay different, matches the same subjects, with the
    same bindings under the new names. -/
theorem unify_renamed (hρ : Set.InjOn ρ {x | x ∈ p.names}) (e : Formula) :
    e.unify (p.renamed ρ) = (e.unify p).map (NameMap.renameKeys ρ) := by
  cases h : e.unify p with
  | some σ => exact unify_renamed_of_eq_some hρ h
  | none =>
    -- a match of the renamed pattern would be one of the pattern, under the old names
    rw [Option.map_none, Option.eq_none_iff_forall_ne_some]
    intro τ hτ
    obtain ⟨ι, hι, hback⟩ := exists_renamed_renamed hρ
    have hold := unify_renamed_of_eq_some hι hτ
    rw [hback, h] at hold
    exact absurd hold (by simp)

end Formula

/-- The match with its bindings under other names. -/
def Match.renameKeys (ρ : String → String) (m : Match) : Match :=
  ⟨m.position, m.substitution.renameKeys ρ⟩

namespace Formula

variable {p : Formula}

/-! ## Searching for patterns with other names -/

theorem matchAt_renamed (hρ : Set.InjOn ρ {x | x ∈ p.names}) (e : Formula) (position : Path) :
    e.matchAt (p.renamed ρ) position = (e.matchAt p position).map (Match.renameKeys ρ) := by
  unfold matchAt
  cases e.subformula position with
  | none => rfl
  | some f =>
    rw [Option.bind_some, Option.bind_some, unify_renamed hρ, Option.map_map, Option.map_map]
    rfl

theorem allMatches_renamed (hρ : Set.InjOn ρ {x | x ∈ p.names}) (e : Formula) :
    e.allMatches (p.renamed ρ) = (e.allMatches p).map (Match.renameKeys ρ) := by
  rw [allMatches_eq_filterMap, allMatches_eq_filterMap, List.map_filterMap]
  simp only [matchAt_renamed hρ]

theorem search_renamed (hρ : Set.InjOn ρ {x | x ∈ p.names}) (e : Formula)
    (position : Option Path) :
    e.search (p.renamed ρ) position = (e.search p position).map (Match.renameKeys ρ) := by
  cases position with
  | some position => exact matchAt_renamed hρ e position
  | none =>
    rw [search, search, ← head?_allMatches, ← head?_allMatches, allMatches_renamed hρ,
      List.head?_map]

end Formula

/-! ## Rules with other names -/

/-- Both sides with every name changed as `ρ` says. -/
def Oriented.renamed (ρ : String → String) (o : Oriented) : Oriented :=
  ⟨o.pattern.renamed ρ, o.replacement.renamed ρ⟩

/-- Where the renamed sides match they put in the same. -/
theorem Oriented.putAt_renamed {o : Oriented} {e : Formula} {m : Match}
    (hm : m.Holds e o.pattern) (hρ : Set.InjOn ρ {x | x ∈ o.pattern.names})
    (hnew : o.replacement.names ⊆ o.pattern.names) (position : Path) :
    (o.renamed ρ).putAt e position (m.substitution.renameKeys ρ) =
      o.putAt e position m.substitution := by
  have hρ' : Set.InjOn ρ {x | (m.substitution.get? x).isSome} := by
    simpa only [hm.isSome_get?_iff] using hρ
  have hbound : ∀ x ∈ o.replacement.names, (m.substitution.get? x).isSome := fun x hx =>
    (hm.isSome_get?_iff x).mpr (hnew hx)
  rw [Oriented.putAt, Oriented.putAt, Oriented.renamed, Formula.instantiate_renamed hρ' hbound]

namespace Rule

variable {r r' : Rule} {left right : Formula}

/-- In each direction both sides are renamed, and the one that is looked for is one of the two. -/
theorem oriented_renamed (hl : Formula.parse r.left = .ok left)
    (hr : Formula.parse r.right = .ok right) (hl' : Formula.parse r'.left = .ok (left.renamed ρ))
    (hr' : Formula.parse r'.right = .ok (right.renamed ρ)) (d : Direction) :
    ∃ o, r.oriented d = .ok o ∧ r'.oriented d = .ok (o.renamed ρ) ∧
      ∀ x ∈ o.pattern.names, x ∈ left.names ∨ x ∈ right.names := by
  unfold oriented
  rw [hl, hr, hl', hr']
  cases d with
  | leftToRight => exact ⟨⟨left, right⟩, rfl, rfl, fun _ => .inl⟩
  | rightToLeft => exact ⟨⟨right, left⟩, rfl, rfl, fun _ => .inr⟩

/-- Rules whose sides are carried into each other by one renaming match at the same positions in
    the same order, with the same bindings under the new names. Where no side puts in a name that
    the other one lacks they lead to the same formulas. The formula they are used on may have any
    names, also those of the rules. -/
theorem agrees_of_renamed (hl : Formula.parse r.left = .ok left)
    (hr : Formula.parse r.right = .ok right) (hl' : Formula.parse r'.left = .ok (left.renamed ρ))
    (hr' : Formula.parse r'.right = .ok (right.renamed ρ))
    (hρ : Set.InjOn ρ {x | x ∈ left.names ∨ x ∈ right.names}) (d : Direction) (e : Formula) :
    r'.allMatches d e = (r.allMatches d e).map (Match.renameKeys ρ) ∧
    ∀ o, r.oriented d = .ok o → o.replacement.names ⊆ o.pattern.names →
      ∀ position, r'.apply d position ∅ e = r.apply d position ∅ e := by
  obtain ⟨o, ho, ho', hnames⟩ := oriented_renamed hl hr hl' hr' d
  have hpattern : Set.InjOn ρ {x | x ∈ o.pattern.names} := hρ.mono hnames
  refine ⟨?_, ?_⟩
  · rw [allMatches, allMatches, ho, ho']
    exact Formula.allMatches_renamed hpattern e
  · intro o₁ ho₁ hnew position
    obtain rfl : o = o₁ := Except.ok.inj (ho.symm.trans ho₁)
    rw [apply_of_oriented ho', apply_of_oriented ho, Oriented.renamed,
      Formula.search_renamed hpattern, Option.bind_map]
    refine Option.bind_congr fun m hm => ?_
    have hholds := (Formula.search_eq_some_iff.mp hm).holds
    exact Oriented.putAt_renamed hholds hpattern hnew m.position

/-- Distributivity from right to left, where `A` stands on both sides of what is looked for. -/
def factoring : Oriented where
  pattern := .bin .or (.bin .and (.var "A") (.var "B")) (.bin .and (.var "A") (.var "C"))
  replacement := .bin .and (.var "A") (.bin .or (.var "B") (.var "C"))

/-- Distributivity with `A` and `B` in each other's place. -/
def swappedDistributivity : Rule :=
  ⟨"swapped-distributivity", "Swapped Distributivity", "𝜓 ∧ (𝜑 ∨ 𝜒) ≡ (𝜓 ∧ 𝜑) ∨ (𝜓 ∧ 𝜒)",
    .distributivity, "B ∧ (A ∨ C)", "(B ∧ A) ∨ (B ∧ C)", ["A", "B", "C"]⟩

/-- A formula to be factored out. It has the names of the rules. -/
def factorable : Formula :=
  .neg (.bin .or (.bin .and (.bin .implies (.var "B") (.var "A")) (.var "C"))
    (.bin .and (.bin .implies (.var "B") (.var "A")) (.var "A")))

/-- What is factored out is bound to `A` by the one rule and to `B` by the other one. -/
theorem agrees_of_renamed_swappedDistributivity :
    standard[4].oriented .rightToLeft = .ok factoring ∧
    swappedDistributivity.oriented .rightToLeft = .ok (factoring.renamed (Equiv.swap "A" "B")) ∧
    standard[4].allMatches .rightToLeft factorable =
      [⟨[0], .ofList [("A", .bin .implies (.var "B") (.var "A")), ("B", .var "C"),
        ("C", .var "A")]⟩] ∧
    swappedDistributivity.allMatches .rightToLeft factorable =
      [⟨[0], .ofList [("B", .bin .implies (.var "B") (.var "A")), ("A", .var "C"),
        ("C", .var "A")]⟩] ∧
    (∀ position, swappedDistributivity.apply .rightToLeft position ∅ factorable =
      standard[4].apply .rightToLeft position ∅ factorable) ∧
    (swappedDistributivity.apply .rightToLeft none ∅ factorable).map Formula.text =
      some "¬((B → A) ∧ (C ∨ A))" := by
  have hl : Formula.parse standard[4].left = .ok factoring.replacement := by decide +kernel
  have hr : Formula.parse standard[4].right = .ok factoring.pattern := by decide +kernel
  have hl' : Formula.parse swappedDistributivity.left =
      .ok (factoring.replacement.renamed (Equiv.swap "A" "B")) := by
    decide +kernel
  have hr' : Formula.parse swappedDistributivity.right =
      .ok (factoring.pattern.renamed (Equiv.swap "A" "B")) := by
    decide +kernel
  have ho : standard[4].oriented .rightToLeft = .ok factoring :=
    oriented_eq_ok_iff.mpr ⟨_, _, hl, hr, rfl⟩
  have ho' : swappedDistributivity.oriented .rightToLeft =
      .ok (factoring.renamed (Equiv.swap "A" "B")) :=
    oriented_eq_ok_iff.mpr ⟨_, _, hl', hr', rfl⟩
  have hfound : standard[4].allMatches .rightToLeft factorable =
      [⟨[0], .ofList [("A", .bin .implies (.var "B") (.var "A")), ("B", .var "C"),
        ("C", .var "A")]⟩] := by
    decide +kernel
  obtain ⟨hmatches, happly⟩ := agrees_of_renamed hl hr hl' hr'
    (Equiv.swap "A" "B").injective.injOn .rightToLeft factorable
  refine ⟨ho, ho', hfound, ?_, happly factoring ho (by decide), by decide +kernel⟩
  rw [hmatches, hfound]
  decide +kernel

end Rule

end PropCalc
