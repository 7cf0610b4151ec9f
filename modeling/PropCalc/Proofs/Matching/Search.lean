/-
  What the searches for matches find.

  `m.Holds e p` says that the pattern `p` matches in `e` as `m` says: at its position, with its
  bindings. Every search gives such matches only. The search for all of them gives the same as
  asking at each position in pre-order (`allMatches_eq_filterMap`), each once and the least one
  first (`pairwise_allMatches`). The search for one gives that of the first position which has one
  (`firstMatch_eq_bind`), and so of the least one in the lexicographic order
  (`firstMatch_eq_some_iff`). What a search with or without a position finds, and when it finds
  nothing, `FoundAt` and `Missing` say.
-/
import Mathlib.Data.List.Basic
import PropCalc.Proofs.Formula.Names
import PropCalc.Proofs.Formula.Preorder
import PropCalc.Proofs.Matching.Unique

namespace PropCalc

/-- In `e` the pattern matches what stands at the position, with these bindings. -/
def Match.Holds (m : Match) (e pattern : Formula) : Prop :=
  ∃ f, e.subformula m.position = some f ∧ f.unify pattern = some m.substitution

namespace Match.Holds

variable {m : Match} {e pattern : Formula}

theorem isSome_get?_iff (h : m.Holds e pattern) (x : String) :
    (m.substitution.get? x).isSome ↔ x ∈ pattern.names := by
  obtain ⟨f, -, hσ⟩ := h
  exact (Formula.unify_sound hσ).1 x

/-- At the position of a match stands the pattern with its bindings put in. -/
theorem subformula (h : m.Holds e pattern) :
    e.subformula m.position = some (pattern.instantiate m.substitution) := by
  obtain ⟨f, hf, hσ⟩ := h
  rw [(Formula.unify_sound hσ).2, hf]

/-- A name is bound to a part of the formula, so what it is bound to has no other names. -/
theorem mem_names_of_bound (h : m.Holds e pattern) {x y : String} {f : Formula}
    (hx : m.substitution.get? x = some f) (hy : y ∈ f.names) : y ∈ e.names := by
  have hpattern : x ∈ pattern.names := (h.isSome_get?_iff x).mp (Option.isSome_of_eq_some hx)
  have himage : y ∈ (m.substitution.image x).names := by
    rw [Substitution.image_of_bound hx]
    exact hy
  exact Formula.mem_names_of_subformula h.subformula
    (Formula.mem_names_instantiate.mpr ⟨x, hpattern, himage⟩)

end Match.Holds

namespace Formula

variable {e pattern : Formula} {m : Match}

theorem matchAt_eq_some_iff {p : Path} :
    e.matchAt pattern p = some m ↔ m.position = p ∧ m.Holds e pattern := by
  unfold matchAt
  simp only [Option.bind_eq_some_iff, Option.map_eq_some_iff]
  constructor
  · rintro ⟨f, hf, σ, hσ, rfl⟩
    exact ⟨rfl, f, hf, hσ⟩
  · rintro ⟨rfl, f, hf, hσ⟩
    exact ⟨f, hf, m.substitution, hσ, rfl⟩

theorem isSome_matchAt_iff {p : Path} :
    (e.matchAt pattern p).isSome ↔ ∃ σ, (⟨p, σ⟩ : Match).Holds e pattern := by
  rw [Option.isSome_iff_exists]
  constructor
  · rintro ⟨m, hm⟩
    obtain ⟨rfl, hholds⟩ := matchAt_eq_some_iff.mp hm
    exact ⟨m.substitution, hholds⟩
  · rintro ⟨σ, hholds⟩
    exact ⟨⟨p, σ⟩, matchAt_eq_some_iff.mpr ⟨rfl, hholds⟩⟩

/-- There is no match at a path that leaves the formula, or where the pattern does not match. -/
theorem matchAt_eq_none_iff {p : Path} :
    e.matchAt pattern p = none ↔
      e.subformula p = none ∨ ∃ f, e.subformula p = some f ∧ f.unify pattern = none := by
  unfold matchAt
  cases hf : e.subformula p <;> simp

/-- Looking for all matches is looking for one at each position. -/
theorem allMatches_eq_filterMap (e pattern : Formula) :
    e.allMatches pattern = e.positions.filterMap (e.matchAt pattern) := by
  unfold allMatches positions
  rw [walk_eq_preorder, List.filterMap_map]
  apply List.filterMap_congr
  intro ⟨p, f⟩ hmem
  have hf : e.subformula p = some f := mem_preorder_iff.mp hmem
  simp only [Function.comp_apply, matchAt, hf, Option.bind_some]

/-- The search for all matches gives those at each position, and no others. -/
theorem mem_allMatches_iff : m ∈ e.allMatches pattern ↔ e.matchAt pattern m.position = some m := by
  rw [allMatches_eq_filterMap, List.mem_filterMap]
  constructor
  · intro ⟨p, _, hm⟩
    obtain ⟨rfl, -⟩ := matchAt_eq_some_iff.mp hm
    exact hm
  · intro hm
    obtain ⟨-, hholds⟩ := matchAt_eq_some_iff.mp hm
    exact ⟨m.position, mem_positions_iff.mpr ⟨_, hholds.subformula⟩, hm⟩

/-- The matches stand in the order of the positions. -/
theorem pairwise_allMatches (e pattern : Formula) :
    (e.allMatches pattern).Pairwise fun m n => Path.Before m.position n.position := by
  rw [allMatches_eq_filterMap, List.pairwise_filterMap]
  apply e.pairwise_positions.imp
  intro p q hbefore m hm n hn
  rw [(matchAt_eq_some_iff.mp hm).1, (matchAt_eq_some_iff.mp hn).1]
  exact hbefore

theorem head?_allMatches (e pattern : Formula) :
    (e.allMatches pattern).head? = e.firstMatch pattern := by
  unfold allMatches firstMatch
  rw [List.head?_filterMap]

/-- The first match is the one at the first position that has one. -/
theorem firstMatch_eq_bind (e pattern : Formula) :
    e.firstMatch pattern =
      (e.positions.find? fun p => (e.matchAt pattern p).isSome).bind (e.matchAt pattern) := by
  rw [← head?_allMatches, allMatches_eq_filterMap, List.head?_filterMap]
  induction e.positions with
  | nil => rfl
  | cons p ps ih =>
    cases hm : e.matchAt pattern p with
    | none => simp [hm, ih]
    | some m => simp [hm]

/-- The first match is the one at the least path in the lexicographic order. -/
theorem firstMatch_eq_some_iff :
    e.firstMatch pattern = some m ↔ m.Holds e pattern ∧
      ∀ q σ, (⟨q, σ⟩ : Match).Holds e pattern →
        m.position = q ∨ Path.Before m.position q := by
  have hmem : ∀ {q σ}, (⟨q, σ⟩ : Match).Holds e pattern → q ∈ e.positions :=
    fun h => mem_positions_iff.mpr ⟨_, h.subformula⟩
  rw [firstMatch_eq_bind, Option.bind_eq_some_iff]
  constructor
  · rintro ⟨p, hfind, hm⟩
    obtain ⟨rfl, hholds⟩ := matchAt_eq_some_iff.mp hm
    refine ⟨hholds, fun q σ hq => ?_⟩
    exact least_of_find?_positions hfind (hmem hq) (isSome_matchAt_iff.mpr ⟨σ, hq⟩)
  · rintro ⟨hholds, hleast⟩
    refine ⟨m.position, find?_positions_eq_some_iff.mpr ⟨hmem hholds, ?_, fun q _ hq => ?_⟩,
      matchAt_eq_some_iff.mpr ⟨rfl, hholds⟩⟩
    · exact isSome_matchAt_iff.mpr ⟨m.substitution, hholds⟩
    · obtain ⟨σ, hσ⟩ := isSome_matchAt_iff.mp hq
      exact hleast q σ hσ

theorem firstMatch_eq_none_iff :
    e.firstMatch pattern = none ↔ ∀ p f, e.subformula p = some f → f.unify pattern = none := by
  unfold firstMatch
  rw [List.findSome?_eq_none_iff, walk_eq_preorder]
  simp [mem_preorder_iff]

/-! ## With or without a position -/

/-- Looks for the pattern at a position, or without one anywhere. -/
def search (e pattern : Formula) : Option Path → Option Match
  | some p => e.matchAt pattern p
  | none => e.firstMatch pattern

/-- The pattern matches as `m` says, at the given position or, without one, at the least path in
    the lexicographic order where it matches at all. -/
structure FoundAt (e pattern : Formula) (position : Option Path) (m : Match) : Prop where
  holds : m.Holds e pattern
  given : ∀ p, position = some p → m.position = p
  least : position = none → ∀ q σ, (⟨q, σ⟩ : Match).Holds e pattern →
    m.position = q ∨ Path.Before m.position q

variable {position : Option Path}

theorem search_eq_some_iff : e.search pattern position = some m ↔ FoundAt e pattern position m := by
  cases position with
  | some p =>
    rw [search, matchAt_eq_some_iff]
    constructor
    · rintro ⟨hp, hholds⟩
      exact ⟨hholds, fun q hq => hp.trans (Option.some.inj hq), nofun⟩
    · intro h
      exact ⟨h.given p rfl, h.holds⟩
  | none =>
    rw [search, firstMatch_eq_some_iff]
    constructor
    · rintro ⟨hholds, hleast⟩
      exact ⟨hholds, nofun, fun _ => hleast⟩
    · intro h
      exact ⟨h.holds, h.least rfl⟩

/-- Why a pattern is not found: the given position leaves the formula, or the pattern does not
    match there, or without a position it matches nowhere. -/
def Missing (e pattern : Formula) : Option Path → Prop
  | some p => e.subformula p = none ∨ ∃ f, e.subformula p = some f ∧ f.unify pattern = none
  | none => ∀ p f, e.subformula p = some f → f.unify pattern = none

theorem search_eq_none_iff : e.search pattern position = none ↔ Missing e pattern position := by
  cases position with
  | some p => exact matchAt_eq_none_iff
  | none => exact firstMatch_eq_none_iff

end Formula

end PropCalc
