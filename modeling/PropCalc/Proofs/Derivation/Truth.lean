/-
  Derivations with the standard rules preserve truth.

  A run is a list of moves, each made where the moves before it have led: using a rule,
  performing a listed application, or taking the last step back. A move is allowed if its rule
  is a standard one and the bindings given with it leave the names of the matched side alone. The
  invariant `Preserves` says that every formula of a derivation is equivalent to the start. One
  move keeps it (`Preserves.after`), so a whole run does (`play_preserves_truth`).
-/
import PropCalc.Derivation
import PropCalc.Proofs.Application.Enumeration

namespace PropCalc

open Formula (Equivalent)

/-! ## Moves -/

/-- One operation on a derivation. A step that is recorded keeps the time and, where the rule
    was used without a position, a place that stands for it. -/
inductive Move
  /-- Use a rule on the formula that has been reached. -/
  | use (r : Rule) (d : Direction) (position : Option Path) (given : Substitution)
      (place : Path) (time : Nat)
  /-- Perform an application on the formula that has been reached. -/
  | perform (a : Application) (given : Substitution) (time : Nat)
  /-- Take the last step back. -/
  | undo

/-- The move may be made where `e` has been reached. -/
def Move.Allowed (e : Formula) : Move → Prop
  | use r d _ given _ _ => r ∈ Rule.standard ∧ r.BindsOnlyNew d given
  | perform a given _ =>
    a ∈ Catalog.standard.applications e ∧ a.rule.BindsOnlyNew a.direction given
  | undo => True

instance (e : Formula) : (m : Move) → Decidable (m.Allowed e)
  | .use r d _ given _ _ => inferInstanceAs (Decidable (r ∈ Rule.standard ∧ r.BindsOnlyNew d given))
  | .perform a given _ =>
    inferInstanceAs (Decidable
      (a ∈ Catalog.standard.applications e ∧ a.rule.BindsOnlyNew a.direction given))
  | .undo => inferInstanceAs (Decidable True)

namespace Derivation

/-- The derivation after a move. A rule that does not apply leaves it as it is, and so does
    going back from the start. -/
def after (d : Derivation) : Move → Derivation
  | .use r dir position given place time =>
    match r.apply dir position given d.current with
    | some target => d.record target r dir place time
    | none => d
  | .perform a given time =>
    match a.perform given d.current with
    | some target => d.record target a.rule a.direction a.position time
    | none => d
  | .undo =>
    match d.undo with
    | some (_, before) => before
    | none => d

/-- The derivation after moves, made in turn. -/
def play (d : Derivation) (moves : List Move) : Derivation := moves.foldl after d

/-- Each move is allowed where the moves before it have led. -/
def Lawful (d : Derivation) : List Move → Prop
  | [] => True
  | m :: moves => m.Allowed d.current ∧ Lawful (d.after m) moves

instance decLawful (d : Derivation) : (moves : List Move) → Decidable (d.Lawful moves)
  | [] => isTrue trivial
  | _ :: moves => @instDecidableAnd _ _ inferInstance (decLawful _ moves)

/-! ## The invariant -/

/-- Every formula of the derivation is equivalent to its start. -/
def Preserves (d : Derivation) : Prop :=
  ∀ s ∈ d.steps, Equivalent s.source d.start ∧ Equivalent s.target d.start

theorem preserves_begin (start : Formula) : (begin start).Preserves := by
  intro s hs
  simp [begin] at hs

theorem Preserves.current {d : Derivation} (h : d.Preserves) :
    Equivalent d.current d.start := by
  unfold Derivation.current
  cases hlast : d.steps.getLast? with
  | none => exact Equivalent.refl _
  | some s => exact (h s (List.mem_of_getLast? hlast)).2

/-- A recorded step goes from the formula that has been reached to an equivalent one. -/
theorem Preserves.record {d : Derivation} (h : d.Preserves) {target : Formula}
    (ht : Equivalent d.current target) (r : Rule) (dir : Direction) (place : Path)
    (time : Nat) : (d.record target r dir place time).Preserves := by
  intro s hs
  rcases List.mem_append.mp hs with hs | hs
  · exact h s hs
  · rw [List.mem_singleton.mp hs]
    exact ⟨h.current, ht.symm.trans h.current⟩

theorem Preserves.undo {d before : Derivation} {s : Step} (h : d.Preserves)
    (hu : d.undo = some (s, before)) : before.Preserves ∧ before.start = d.start := by
  obtain ⟨last, -, heq⟩ := Option.map_eq_some_iff.mp hu
  have hbefore : { d with steps := d.steps.dropLast } = before := (Prod.mk.inj heq).2
  rw [← hbefore]
  refine ⟨?_, rfl⟩
  intro t ht
  exact h t (List.dropLast_subset _ ht)

/-- A rule used on the formula that has been reached leads to an equivalent one. -/
theorem Preserves.apply {d : Derivation} {r : Rule} {dir : Direction} {position : Option Path}
    {given : Substitution} {target : Formula} (h : d.Preserves) (hr : r ∈ Rule.standard)
    (hgiven : r.BindsOnlyNew dir given)
    (ht : r.apply dir position given d.current = some target) (place : Path) (time : Nat) :
    (d.record target r dir place time).Preserves :=
  h.record (Rule.apply_equivalent (Rule.standard_sound r hr) hgiven ht) r dir place time

/-! ## One move, and a run -/

theorem Preserves.after {d : Derivation} {m : Move} (h : d.Preserves)
    (hm : m.Allowed d.current) : (d.after m).Preserves ∧ (d.after m).start = d.start := by
  cases m with
  | use r dir position given place time =>
    simp only [Derivation.after]
    split
    · next target ht =>
      have hstep := h.apply hm.1 hm.2 ht place time
      exact ⟨hstep, rfl⟩
    · exact ⟨h, rfl⟩
  | perform a given time =>
    have hr : a.rule ∈ Rule.standard := Catalog.rule_mem_of_mem_applications hm.1
    simp only [Derivation.after]
    split
    · next target ht =>
      have hstep := h.apply hr hm.2 ht a.position time
      exact ⟨hstep, rfl⟩
    · exact ⟨h, rfl⟩
  | undo =>
    simp only [Derivation.after]
    split
    · next hu => exact h.undo hu
    · exact ⟨h, rfl⟩

theorem Preserves.play {d : Derivation} {moves : List Move} (h : d.Preserves)
    (hm : d.Lawful moves) : (d.play moves).Preserves ∧ (d.play moves).start = d.start := by
  induction moves generalizing d with
  | nil => exact ⟨h, rfl⟩
  | cons m moves ih =>
    obtain ⟨hafter, hstart⟩ := h.after hm.1
    obtain ⟨hplay, hstart'⟩ := ih hafter hm.2
    exact ⟨hplay, hstart'.trans hstart⟩

/-- However a run with the standard rules goes, forwards and back, its start, both ends of
    every recorded step and the formula it has reached have one truth value under every
    assignment. -/
theorem play_preserves_truth (start : Formula) (moves : List Move)
    (h : (begin start).Lawful moves) (v : String → Bool) :
    ((begin start).play moves).start = start ∧
    (∀ s ∈ ((begin start).play moves).steps,
      s.source.eval v = start.eval v ∧ s.target.eval v = start.eval v) ∧
    ((begin start).play moves).current.eval v = start.eval v := by
  obtain ⟨hall, hstart⟩ := (preserves_begin start).play h
  have hsame : ((begin start).play moves).start = start := hstart
  have hcurrent := hall.current v
  rw [hsame] at hcurrent
  refine ⟨hsame, fun s hs => ?_, hcurrent⟩
  obtain ⟨hsource, htarget⟩ := hall s hs
  rw [hsame] at hsource htarget
  exact ⟨hsource v, htarget v⟩

/-- From `A ∧ ⊤`: a new variable clashes with the `A` that is there, a given binding is put in
    and taken back, and a listed application is performed. -/
def clashingRun : List Move :=
  [.use Rule.standard[28] .rightToLeft (some [1]) ∅ [1] 0,
    .use Rule.standard[17] .rightToLeft none (.ofList [("B", .neg (.var "q"))]) [] 1,
    .undo,
    .perform ⟨Rule.standard[4], .leftToRight, [], "A ∧ (A ∨ ¬A) → (A ∧ A) ∨ (A ∧ ¬A)",
      "(A ∧ A) ∨ (A ∧ ¬A)"⟩ ∅ 2]

theorem play_clashingRun_truth :
    (begin (.bin .and (.var "A") (.const true))).Lawful clashingRun ∧
    ((begin (.bin .and (.var "A") (.const true))).play clashingRun).current.text =
      "(A ∧ A) ∨ (A ∧ ¬A)" ∧
    ((begin (.bin .and (.var "A") (.const true))).play clashingRun).current.eval (· = "A") = true := by
  have h : (begin (.bin .and (.var "A") (.const true))).Lawful clashingRun := by decide +kernel
  refine ⟨h, by decide +kernel, ?_⟩
  rw [(play_preserves_truth _ _ h _).2.2]
  decide +kernel

end Derivation

end PropCalc
