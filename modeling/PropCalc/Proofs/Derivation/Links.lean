/-
  Links of a derivation: each step starts where the one before it ended.

  A derivation grows by steps that are pushed or recorded, and shrinks when its last step is
  taken back. A pushed step is refused unless it starts at the formula that has been reached, and
  a recorded one starts there by itself. A derivation that has been read from a file may have
  broken links, since reading does not ask for them.

  What one operation can do is said once (`edited_cases`). It makes no link break: where a link
  is broken, all steps up to there are those of the derivation that was started from
  (`inherits_edited`). So it is in a whole run (`inherits_editedAll`), and a run from a formula
  alone has no broken link at all (`edits_keep_links`).
-/
import PropCalc.Derivation

namespace PropCalc

/-- One operation on a derivation. -/
inductive Edit
  | push (s : Step)
  | record (target : Formula) (r : Rule) (direction : Direction) (position : Path) (time : Nat)
  | undo
  deriving DecidableEq

namespace Derivation

/-- The derivation after an operation. A step that is refused leaves it as it is, and so does
    taking a step back where there is none. -/
def edited (d : Derivation) : Edit → Derivation
  | .push s =>
    match d.push s with
    | .ok longer => longer
    | .error _ => d
  | .record target r direction position time => d.record target r direction position time
  | .undo =>
    match d.undo with
    | some (_, before) => before
    | none => d

/-- The derivation after operations, made in turn. -/
def editedAll (d : Derivation) (edits : List Edit) : Derivation := edits.foldl edited d

/-- The formula that the steps before index `i` have led to. -/
def reachedBefore (d : Derivation) (i : Nat) : Formula :=
  (⟨d.start, d.steps.take i⟩ : Derivation).current

/-- The step with index `i` does not start where the steps before it have led. -/
def BrokenAt (d : Derivation) (i : Nat) : Prop :=
  ∃ s, d.steps[i]? = some s ∧ s.source ≠ d.reachedBefore i

/-- Each step starts where the one before it ended, and the first one at the start. -/
def Linked (d : Derivation) : Prop := ∀ i, ¬ d.BrokenAt i

variable {d d' : Derivation} {s : Step} {i : Nat}

/-! ## The last step -/

theorem current_of_empty (h : d.steps = []) : d.current = d.start := by
  unfold current
  rw [h]
  rfl

theorem current_of_getLast? (h : d.steps.getLast? = some s) : d.current = s.target := by
  unfold current
  rw [h]
  rfl

theorem current_record (d : Derivation) (target : Formula) (r : Rule) (direction : Direction)
    (position : Path) (time : Nat) :
    (d.record target r direction position time).current = target := by
  unfold record current
  rw [List.getLast?_concat]
  rfl

theorem undo_of_empty (h : d.steps = []) : d.undo = none := by
  unfold undo
  rw [h]
  rfl

/-- Taking back the step that has come last gives it, and what was there before. -/
theorem undo_snoc (d : Derivation) (s : Step) :
    (⟨d.start, d.steps ++ [s]⟩ : Derivation).undo = some (s, d) := by
  unfold undo
  rw [List.getLast?_concat, List.dropLast_concat]
  rfl

theorem push_eq_ok_iff :
    d.push s = .ok d' ↔ s.source = d.current ∧ d' = ⟨d.start, d.steps ++ [s]⟩ := by
  unfold push
  split
  · next h => simp [h, eq_comm]
  · next h => simp [h]

theorem push_refused (h : s.source ≠ d.current) : d.push s = .error ⟨d.current, s.source⟩ := by
  unfold push
  rw [if_neg h]

/-! ## One operation -/

theorem edited_push (h : s.source = d.current) :
    d.edited (.push s) = ⟨d.start, d.steps ++ [s]⟩ := by
  have hok : d.push s = .ok ⟨d.start, d.steps ++ [s]⟩ := push_eq_ok_iff.mpr ⟨h, rfl⟩
  simp only [edited, hok]

theorem edited_push_refused (h : s.source ≠ d.current) : d.edited (.push s) = d := by
  simp only [edited, push_refused h]

theorem edited_undo_of_empty (h : d.steps = []) : d.edited .undo = d := by
  simp only [edited, undo_of_empty h]

/-- An operation does nothing, adds a step that starts where the derivation stands, or drops the
    last step. -/
theorem edited_cases (d : Derivation) (e : Edit) :
    d.edited e = d ∨
    (∃ s, s.source = d.current ∧ d.edited e = ⟨d.start, d.steps ++ [s]⟩) ∨
    d.edited e = ⟨d.start, d.steps.dropLast⟩ := by
  cases e with
  | push s =>
    by_cases hsource : s.source = d.current
    · exact .inr (.inl ⟨s, hsource, edited_push hsource⟩)
    · exact .inl (edited_push_refused hsource)
  | record target r direction position time => exact .inr (.inl ⟨_, rfl, rfl⟩)
  | undo =>
    cases hlast : d.steps.getLast? with
    | none => exact .inl (edited_undo_of_empty (List.getLast?_eq_none_iff.mp hlast))
    | some s =>
      have hundo : d.edited .undo = ⟨d.start, d.steps.dropLast⟩ := by
        simp only [edited, undo, hlast, Option.map_some]
      exact .inr (.inr hundo)

theorem getElem?_of_take_eq {steps steps' : List Step}
    (h : steps.take (i + 1) = steps'.take (i + 1)) : steps[i]? = steps'[i]? := by
  have hlast := congrArg (·[i]?) h
  simpa [List.getElem?_take] using hlast

/-- Whether a link is broken only the steps up to it decide. -/
theorem brokenAt_congr (hstart : d.start = d'.start)
    (hsteps : d.steps.take (i + 1) = d'.steps.take (i + 1)) : d.BrokenAt i ↔ d'.BrokenAt i := by
  have hstep : d.steps[i]? = d'.steps[i]? := getElem?_of_take_eq hsteps
  have hbefore : d.reachedBefore i = d'.reachedBefore i := by
    have hfront := congrArg (List.take i) hsteps
    rw [List.take_take, List.take_take, Nat.min_eq_left (Nat.le_succ i)] at hfront
    unfold reachedBefore
    rw [hstart, hfront]
  unfold BrokenAt
  rw [hstep, hbefore]

theorem lt_of_brokenAt (h : d.BrokenAt i) : i < d.steps.length := by
  obtain ⟨s, hs, -⟩ := h
  exact (List.getElem?_eq_some_iff.mp hs).1

/-- A step that starts where the derivation stands breaks no link. -/
theorem lt_of_brokenAt_snoc (hs : s.source = d.current)
    (h : (⟨d.start, d.steps ++ [s]⟩ : Derivation).BrokenAt i) : i < d.steps.length := by
  have hlt : i < (d.steps ++ [s]).length := lt_of_brokenAt h
  rw [List.length_append, List.length_singleton] at hlt
  by_cases hi : i = d.steps.length
  · obtain ⟨t, ht, hne⟩ := h
    subst hi
    have hts : t = s := by simpa [eq_comm] using ht
    have hreached : (⟨d.start, d.steps ++ [s]⟩ : Derivation).reachedBefore d.steps.length =
        d.current := by
      unfold reachedBefore
      rw [List.take_left]
    rw [hts, hreached] at hne
    exact absurd hs hne
  · omega

/-! ## What a run keeps -/

/-- Where `d` has a broken link, it has come down from `d₀` with all steps before it. -/
structure Inherits (d₀ d : Derivation) : Prop where
  start : d.start = d₀.start
  steps : ∀ i, d.BrokenAt i → d.steps.take (i + 1) = d₀.steps.take (i + 1)

namespace Inherits

theorem refl (d : Derivation) : Inherits d d := ⟨rfl, fun _ _ => rfl⟩

/-- A link that is broken at last was broken in between, at the same steps. -/
theorem trans {d₀ : Derivation} (h : Inherits d₀ d) (h' : Inherits d d') : Inherits d₀ d' := by
  refine ⟨h'.start.trans h.start, fun i hbroken => ?_⟩
  have hsteps := h'.steps i hbroken
  have hbetween : d.BrokenAt i := (brokenAt_congr h'.start hsteps).mp hbroken
  exact hsteps.trans (h.steps i hbetween)

theorem brokenAt (h : Inherits d d') (hbroken : d'.BrokenAt i) :
    d.BrokenAt i ∧ d'.steps[i]? = d.steps[i]? := by
  have hsteps := h.steps i hbroken
  exact ⟨(brokenAt_congr h.start hsteps).mp hbroken, getElem?_of_take_eq hsteps⟩

end Inherits

/-- A link that is broken after an operation lies inside the steps from before. -/
theorem inherits_edited (d : Derivation) (e : Edit) : Inherits d (d.edited e) := by
  obtain heq | ⟨s, hs, heq⟩ | heq := d.edited_cases e
  · rw [heq]
    exact .refl d
  · rw [heq]
    refine ⟨rfl, fun i hbroken => ?_⟩
    have hlt := lt_of_brokenAt_snoc hs hbroken
    rw [List.take_append_of_le_length hlt]
  · rw [heq]
    refine ⟨rfl, fun i hbroken => ?_⟩
    have hlt : i < d.steps.dropLast.length := lt_of_brokenAt hbroken
    rw [List.length_dropLast] at hlt
    rw [List.dropLast_eq_take, List.take_take, Nat.min_eq_left hlt]

theorem inherits_editedAll (d : Derivation) (edits : List Edit) :
    Inherits d (d.editedAll edits) := by
  induction edits generalizing d with
  | nil => exact .refl d
  | cons e edits ih => exact (d.inherits_edited e).trans (ih (d.edited e))

/-! ## Linked derivations -/

theorem linked_iff :
    d.Linked ↔ ∀ i s, d.steps[i]? = some s → s.source = d.reachedBefore i := by
  simp [Linked, BrokenAt]

theorem linked_begin (start : Formula) : (begin start).Linked := by
  intro i hbroken
  exact absurd (lt_of_brokenAt hbroken) (Nat.not_lt_zero i)

theorem Linked.editedAll (h : d.Linked) (edits : List Edit) : (d.editedAll edits).Linked := by
  intro i hbroken
  exact h i ((d.inherits_editedAll edits).brokenAt hbroken).1

theorem Linked.head (h : d.Linked) (hs : d.steps.head? = some s) : s.source = d.start := by
  have hfirst : d.steps[0]? = some s := by rwa [← List.head?_eq_getElem?]
  exact linked_iff.mp h 0 s hfirst

theorem Linked.next {t : Step} (h : d.Linked) (hs : d.steps[i]? = some s)
    (ht : d.steps[i + 1]? = some t) : t.source = s.target := by
  have hreached : d.reachedBefore (i + 1) = s.target := by
    apply current_of_getLast?
    rw [List.take_add_one, hs]
    simp
  rw [linked_iff.mp h (i + 1) t ht, hreached]

/-- However steps are pushed, recorded and taken back, in any order and with or without success:
    a derivation keeps its start, and from a formula alone it stays linked. A step is pushed
    exactly if it starts where the derivation stands, and else nothing changes. Taking a step back
    undoes the push or record just before, and does nothing where there are no steps. In a
    derivation of any origin, such as one that has been read without asking for links, no
    link breaks: a broken one was broken already, at the same step. -/
theorem edits_keep_links :
    (∀ start edits d, (begin start).editedAll edits = d →
      d.start = start ∧
      (∀ s, d.steps.head? = some s → s.source = start) ∧
      (∀ i s t, d.steps[i]? = some s → d.steps[i + 1]? = some t → t.source = s.target) ∧
      (∀ s, d.steps.getLast? = some s → d.current = s.target) ∧
      (d.steps = [] → d.current = start)) ∧
    (∀ (d : Derivation) (s : Step), ((∃ d', d.push s = .ok d') ↔ s.source = d.current) ∧
      (s.source ≠ d.current →
        d.push s = .error ⟨d.current, s.source⟩ ∧ d.edited (.push s) = d)) ∧
    (∀ (d d' : Derivation) (s : Step), d.push s = .ok d' → d'.undo = some (s, d)) ∧
    (∀ (d : Derivation) target r direction position time,
      (d.record target r direction position time).undo =
        some (⟨d.current, target, r, direction, position, time⟩, d)) ∧
    (∀ d : Derivation, d.steps = [] → d.undo = none ∧ d.edited .undo = d) ∧
    (∀ (loaded : Derivation) edits d, loaded.editedAll edits = d →
      d.start = loaded.start ∧
      ∀ i, d.BrokenAt i → loaded.BrokenAt i ∧ d.steps[i]? = loaded.steps[i]?) := by
  refine ⟨?_, ?_, ?_, ?_, ?_, ?_⟩
  · rintro start edits d rfl
    have hstart : ((begin start).editedAll edits).start = start :=
      ((begin start).inherits_editedAll edits).start
    have hlinked := (linked_begin start).editedAll edits
    refine ⟨hstart, fun s hs => ?_, fun i s t => hlinked.next, fun s => current_of_getLast?,
      fun hempty => ?_⟩
    · rw [hlinked.head hs, hstart]
    · rw [current_of_empty hempty, hstart]
  · intro d s
    refine ⟨⟨?_, fun h => ⟨_, push_eq_ok_iff.mpr ⟨h, rfl⟩⟩⟩, fun hne => ?_⟩
    · rintro ⟨d', h⟩
      exact (push_eq_ok_iff.mp h).1
    · exact ⟨push_refused hne, edited_push_refused hne⟩
  · intro d d' s h
    obtain ⟨-, rfl⟩ := push_eq_ok_iff.mp h
    exact undo_snoc d s
  · intro d target r direction position time
    exact undo_snoc d _
  · intro d hempty
    exact ⟨undo_of_empty hempty, edited_undo_of_empty hempty⟩
  · rintro loaded edits d rfl
    have hinherits := loaded.inherits_editedAll edits
    exact ⟨hinherits.start, fun i hbroken => hinherits.brokenAt hbroken⟩

end Derivation

end PropCalc
