/-
  A chain is its rules used in turn, and its derivation says how.

  `applyAll` uses the rules of the steps one after the other, each at the position that is given
  or else at its first match. A run does not do that: it looks for a position by itself, takes the
  root where it finds none, and asks for the rule at that position. The two agree
  (`apply_positionOf`), since at the root a rule that matches nowhere does not match either.

  So a run goes through exactly if `applyAll` does and comes to the same formula, and each step
  that it records can be checked on its own (`Certifies`, `runFrom_of_applyAll`). Otherwise it
  ends at the first step that cannot be taken, with the steps before that one
  (`run_of_stopsAt`). `runChain_exact` says so of the command.
-/
import PropCalc.Command.Run
import PropCalc.Proofs.Application.Enumeration
import PropCalc.Proofs.Derivation.Links

namespace PropCalc

/-! ## The first match of a rule -/

namespace Rule

variable (r : Rule) (d : Direction) (e : Formula)

/-- The first of all matches stands at the first position where the rule matches. -/
theorem position_head?_allMatches :
    (r.allMatches d e).head?.map (·.position) = e.positions.find? (r.matchesAt d e) := by
  unfold allMatches matchesAt
  cases ho : r.oriented d with
  | error err =>
    rw [List.find?_eq_none.mpr (by simp)]
    rfl
  | ok o =>
    simp only
    rw [Formula.head?_allMatches, Formula.firstMatch_eq_bind]
    cases hfind : e.positions.find? fun p => (e.matchAt o.pattern p).isSome with
    | none => rfl
    | some p =>
      have hsome : (e.matchAt o.pattern p).isSome := by simpa using List.find?_some hfind
      obtain ⟨m, hm⟩ := Option.isSome_iff_exists.mp hsome
      rw [Option.bind_some, hm, Option.map_some, (Formula.matchAt_eq_some_iff.mp hm).1]

/-- Without a position a rule is used at the first one where it matches. -/
theorem apply_first (given : Substitution) :
    r.apply d none given e =
      (e.positions.find? (r.matchesAt d e)).bind fun p => r.apply d (some p) given e := by
  cases ho : r.oriented d with
  | error err =>
    rw [apply_of_error ho]
    simp [apply_of_error ho]
  | ok o =>
    have hmatches : r.matchesAt d e = fun p => (e.matchAt o.pattern p).isSome := by
      funext p
      unfold matchesAt
      rw [ho]
    have hnone : r.apply d none given e = (e.firstMatch o.pattern).bind fun m =>
        o.putAt e m.position (m.substitution.merge given) := apply_of_oriented ho none given e
    have hat : (fun p => r.apply d (some p) given e) = fun p =>
        (e.matchAt o.pattern p).bind fun m =>
          o.putAt e m.position (m.substitution.merge given) := by
      funext p
      exact apply_at ho p given e
    rw [hnone, hat, hmatches, Formula.firstMatch_eq_bind, Option.bind_assoc]

end Rule

namespace Chain

/-! ## Using rules in turn -/

/-- Uses the rule of a step, at the position that is given or else at its first match. -/
def applyStep (c : Catalog) (e : Formula) (spec : StepSpec) : Option Formula :=
  (c.get? spec.rule).bind fun r => r.apply spec.direction spec.position ∅ e

/-- Uses the rules of the steps in turn. -/
def applyAll (c : Catalog) (e : Formula) (specs : List StepSpec) : Option Formula :=
  specs.foldlM (applyStep c) e

/-- The step with index `i` is the first that cannot be taken: the steps before it lead to `mid`,
    and there its rule `r` does not apply. -/
structure StopsAt (c : Catalog) (e : Formula) (specs : List StepSpec) (i : Nat)
    (spec : StepSpec) (r : Rule) (mid : Formula) : Prop where
  asked : specs[i]? = some spec
  rule : c.get? spec.rule = some r
  before : applyAll c e (specs.take i) = some mid
  stops : r.apply spec.direction spec.position ∅ mid = none

/-- The recorded step is what was asked for. It uses the rule with the given id in the given
    direction, at the given position or else at the first one in pre-order where the rule matches,
    and used there the rule leads from its source to its target. -/
structure Certifies (c : Catalog) (spec : StepSpec) (s : Step) : Prop where
  rule : c.get? spec.rule = some s.rule
  direction : s.direction = spec.direction
  position : spec.position.or (s.source.positions.find? (s.rule.matchesAt s.direction s.source)) =
    some s.position
  target : s.rule.apply s.direction (some s.position) ∅ s.source = some s.target

variable {c : Catalog} {time n : Nat} {d d' : Derivation} {e mid final next : Formula}
  {spec : StepSpec} {specs front rest : List StepSpec} {r : Rule}

theorem applyAll_cons (hr : c.get? spec.rule = some r) :
    applyAll c e (spec :: specs) =
      (r.apply spec.direction spec.position ∅ e).bind fun next => applyAll c next specs := by
  unfold applyAll
  rw [List.foldlM_cons, applyStep, hr]
  rfl

/-- Rules that cannot all be used in turn come to a step that cannot be taken. -/
theorem exists_stopsAt (hids : ∀ spec ∈ specs, (c.get? spec.rule).isSome)
    (h : applyAll c e specs = none) : ∃ i spec r mid, StopsAt c e specs i spec r mid := by
  induction specs generalizing e with
  | nil => exact absurd h (by simp [applyAll])
  | cons spec specs ih =>
    obtain ⟨r, hr⟩ := Option.isSome_iff_exists.mp (hids spec List.mem_cons_self)
    cases hnext : r.apply spec.direction spec.position ∅ e with
    | none => exact ⟨0, spec, r, e, rfl, hr, rfl, hnext⟩
    | some next =>
      rw [applyAll_cons hr, hnext, Option.bind_some] at h
      obtain ⟨i, spec', r', mid, hstop⟩ := ih (fun s hs => hids s (List.mem_cons_of_mem _ hs)) h
      refine ⟨i + 1, spec', r', mid, hstop.asked, hstop.rule, ?_, hstop.stops⟩
      rw [List.take_succ_cons, applyAll_cons hr, hnext, Option.bind_some, hstop.before]

/-! ## The position of a step -/

theorem positionOf_eq (spec : StepSpec) (r : Rule) (e : Formula) :
    positionOf spec r e =
      (spec.position.or (e.positions.find? (r.matchesAt spec.direction e))).getD [] := by
  unfold positionOf
  cases spec.position with
  | none => rw [Rule.position_head?_allMatches, Option.none_or]
  | some p => rfl

/-- At the position that a run takes a rule does what it does at the given position, or at its
    first match if none is given. -/
theorem apply_positionOf (spec : StepSpec) (r : Rule) (e : Formula) :
    r.apply spec.direction (some (positionOf spec r e)) ∅ e =
      r.apply spec.direction spec.position ∅ e := by
  rw [positionOf_eq]
  cases spec.position with
  | some p => rfl
  | none =>
    rw [Rule.apply_first, Option.none_or]
    cases hfind : e.positions.find? (r.matchesAt spec.direction e) with
    | some p => rfl
    | none =>
      -- the root stands for a missing match, and there is none at the root
      have hroot : ([] : Path) ∈ e.positions :=
        Formula.mem_positions_iff.mpr ⟨e, Formula.subformula_root e⟩
      have hnot : r.matchesAt spec.direction e [] = false := by
        simpa using List.find?_eq_none.mp hfind [] hroot
      have happly : (r.apply spec.direction (some []) ∅ e).isSome = false := by
        rw [Rule.isSome_apply_at, hnot]
      exact Option.not_isSome_iff_eq_none.mp (by simp [happly])

theorem certifies_of_apply (hr : c.get? spec.rule = some r)
    (h : r.apply spec.direction spec.position ∅ e = some next) (time : Nat) :
    Certifies c spec ⟨e, next, r, spec.direction, positionOf spec r e, time⟩ where
  rule := hr
  direction := rfl
  position := by
    show spec.position.or (e.positions.find? (r.matchesAt spec.direction e)) =
      some (positionOf spec r e)
    rw [positionOf_eq]
    cases hposition : spec.position with
    | some p => rfl
    | none =>
      rw [hposition, Rule.apply_first] at h
      obtain ⟨p, hp, -⟩ := Option.bind_eq_some_iff.mp h
      rw [Option.none_or, hp, Option.getD_some]
  target := by
    show r.apply spec.direction (some (positionOf spec r e)) ∅ e = some next
    rw [apply_positionOf, h]

/-! ## One step of a run -/

theorem runFrom_cons_of_apply (hr : c.get? spec.rule = some r)
    (h : r.apply spec.direction spec.position ∅ d.current = some next) :
    runFrom c time n d (spec :: specs) =
      runFrom c time (n + 1)
        (d.record next r spec.direction (positionOf spec r d.current) time) specs := by
  rw [runFrom, hr]
  simp only
  rw [apply_positionOf, h]

theorem runFrom_cons_of_stop (hr : c.get? spec.rule = some r)
    (h : r.apply spec.direction spec.position ∅ d.current = none) :
    runFrom c time n d (spec :: specs) = .error (.notApplicable n r spec.direction d) := by
  rw [runFrom, hr]
  simp only
  rw [apply_positionOf, h]

/-! ## A run -/

/-- The derivation goes on from another one by the steps that were asked for. -/
structure Continues (c : Catalog) (specs : List StepSpec) (d d' : Derivation) : Prop where
  start : d'.start = d.start
  steps : ∃ steps, d'.steps = d.steps ++ steps ∧ List.Forall₂ (Certifies c) specs steps
  linked : d.Linked → d'.Linked

theorem continues_refl (c : Catalog) (d : Derivation) : Continues c [] d d :=
  ⟨rfl, ⟨[], (List.append_nil _).symm, .nil⟩, id⟩

theorem Continues.record {direction : Direction} {position : Path}
    (hs : Certifies c spec ⟨d.current, next, r, direction, position, time⟩)
    (h : Continues c specs (d.record next r direction position time) d') :
    Continues c (spec :: specs) d d' := by
  obtain ⟨steps, hsteps, hall⟩ := h.steps
  refine ⟨h.start, ⟨_ :: steps, ?_, .cons hs hall⟩, fun hlinked => h.linked ?_⟩
  · rw [hsteps, Derivation.record, List.append_assoc, List.singleton_append]
  · exact hlinked.editedAll [.record next r direction position time]

/-- Where the rules can be used in turn a run records a step for each, and comes to the same
    formula. -/
theorem runFrom_of_applyAll (hids : ∀ spec ∈ specs, (c.get? spec.rule).isSome)
    (h : applyAll c d.current specs = some final) :
    ∃ d', runFrom c time n d specs = .ok d' ∧ d'.current = final ∧ Continues c specs d d' := by
  induction specs generalizing n d with
  | nil =>
    have hfinal : d.current = final := by simpa [applyAll] using h
    exact ⟨d, rfl, hfinal, continues_refl c d⟩
  | cons spec specs ih =>
    obtain ⟨r, hr⟩ := Option.isSome_iff_exists.mp (hids spec List.mem_cons_self)
    rw [applyAll_cons hr] at h
    obtain ⟨next, hnext, hrest⟩ := Option.bind_eq_some_iff.mp h
    rw [← d.current_record next r spec.direction (positionOf spec r d.current) time] at hrest
    obtain ⟨d', hrun, hfinal, hcontinues⟩ :=
      ih (fun s hs => hids s (List.mem_cons_of_mem _ hs)) hrest
    refine ⟨d', ?_, hfinal, hcontinues.record (certifies_of_apply hr hnext time)⟩
    rw [runFrom_cons_of_apply hr hnext, hrun]

/-- A run that goes through goes on with what is added to it. -/
theorem runFrom_append (h : runFrom c time n d front = .ok d') :
    runFrom c time n d (front ++ rest) = runFrom c time (n + front.length) d' rest := by
  induction front generalizing n d with
  | nil =>
    have hd : d = d' := by simpa [runFrom] using h
    rw [hd]
    rfl
  | cons spec front ih =>
    cases hr : c.get? spec.rule with
    | none => exact absurd h (by simp [runFrom, hr])
    | some r =>
      cases hnext : r.apply spec.direction spec.position ∅ d.current with
      | none =>
        rw [runFrom_cons_of_stop hr hnext] at h
        exact absurd h (by simp)
      | some next =>
        rw [runFrom_cons_of_apply hr hnext] at h
        rw [List.cons_append, runFrom_cons_of_apply hr hnext, ih h, List.length_cons,
          Nat.add_assoc, Nat.add_comm 1]

/-- At the first step that cannot be taken a run ends, with the steps before it. -/
theorem run_of_stopsAt {i : Nat} (hids : ∀ spec ∈ specs, (c.get? spec.rule).isSome)
    (h : StopsAt c e specs i spec r mid) :
    ∃ d, run c time e (specs.take i) = .ok d ∧ d.current = mid ∧
      Continues c (specs.take i) (.begin e) d ∧
      run c time e specs = .error (.notApplicable (i + 1) r spec.direction d) := by
  obtain ⟨hlt, hget⟩ := List.getElem?_eq_some_iff.mp h.asked
  have hfront : ∀ spec ∈ specs.take i, (c.get? spec.rule).isSome :=
    fun s hs => hids s (List.mem_of_mem_take hs)
  have hreached : ∃ d, run c time e (specs.take i) = .ok d ∧ d.current = mid ∧
      Continues c (specs.take i) (.begin e) d := runFrom_of_applyAll hfront h.before
  obtain ⟨d, hrun, hmid, hcontinues⟩ := hreached
  refine ⟨d, hrun, hmid, hcontinues, ?_⟩
  have hsplit : specs = specs.take i ++ spec :: specs.drop (i + 1) := by
    rw [← hget, ← List.drop_eq_getElem_cons hlt, List.take_append_drop]
  have hlength : (specs.take i).length = i := by
    rw [List.length_take, Nat.min_eq_left (Nat.le_of_lt hlt)]
  have hstop : r.apply spec.direction spec.position ∅ d.current = none := by
    rw [hmid]
    exact h.stops
  unfold run
  rw [hsplit, runFrom_append hrun, runFrom_cons_of_stop h.rule hstop, hlength, Nat.add_comm]

/-- A derivation from `e` that has been made by a chain: a certified step for each step that was
    asked for, and each one where the one before it ended. -/
structure Recorded (c : Catalog) (e : Formula) (specs : List StepSpec) (d : Derivation) :
    Prop where
  start : d.start = e
  steps : List.Forall₂ (Certifies c) specs d.steps
  linked : d.Linked

theorem Continues.recorded (h : Continues c specs (.begin e) d) : Recorded c e specs d := by
  obtain ⟨steps, hsteps, hall⟩ := h.steps
  have hsame : d.steps = steps := hsteps
  refine ⟨h.start, ?_, h.linked (Derivation.linked_begin e)⟩
  rw [hsame]
  exact hall

end Chain

/-! ## The command -/

namespace Command

open Chain (applyAll StopsAt Recorded)

variable {c : Catalog} {text : String} {e : Formula} {specs : List StepSpec} {d : Derivation}

theorem runChain_of_ok (he : Formula.parse text = .ok e)
    (h : Chain.run c untimed e specs = .ok d) :
    runChain c text specs = ⟨d.text ++ "\n", none⟩ := by
  unfold runChain withFormula
  rw [he]
  simp only
  rw [h]
  simp [Outcome.lines]

theorem runChain_of_notApplicable {n : Nat} {r : Rule} {direction : Direction}
    (he : Formula.parse text = .ok e)
    (h : Chain.run c untimed e specs = .error (.notApplicable n r direction d)) :
    runChain c text specs = ⟨d.text ++ "\n", some (.chain (.notApplicable n r direction d))⟩ := by
  unfold runChain withFormula
  rw [he]
  simp only
  rw [h]

/-- The command for chains does what using the rules of its steps in turn does. It succeeds exactly
    if each of them can be used where the ones before it have led, and then it ends at the formula
    that they lead to; what it prints is a derivation that certifies itself. At the first step that
    cannot be taken it fails, names that step, and prints the derivation of those before it. -/
theorem runChain_exact (he : Formula.parse text = .ok e)
    (hids : ∀ spec ∈ specs, (c.get? spec.rule).isSome) :
    ((runChain c text specs).failure = none ↔ ∃ final, applyAll c e specs = some final) ∧
    (∀ final, applyAll c e specs = some final →
      ∃ d, Chain.run c untimed e specs = .ok d ∧ d.current = final ∧ Recorded c e specs d ∧
        RunResult.ofOutcome (runChain c text specs) = ⟨0, d.text ++ "\n", none⟩) ∧
    (∀ i spec r mid, StopsAt c e specs i spec r mid →
      ∃ d, Chain.run c untimed e (specs.take i) = .ok d ∧ d.current = mid ∧
        Recorded c e (specs.take i) d ∧
        RunResult.ofOutcome (runChain c text specs) = ⟨1, d.text ++ "\n",
          some ("Error: " ++ (s!"step {i + 1}: rule " ++ Failure.ruleText r spec.direction ++
            " does not apply to `" ++ mid.text ++ "`"))⟩) := by
  have hsuccess : ∀ final, applyAll c e specs = some final →
      ∃ d, Chain.run c untimed e specs = .ok d ∧ d.current = final ∧ Recorded c e specs d ∧
        runChain c text specs = ⟨d.text ++ "\n", none⟩ := by
    intro final hfinal
    have hrun : ∃ d, Chain.run c untimed e specs = .ok d ∧ d.current = final ∧
        Chain.Continues c specs (.begin e) d := Chain.runFrom_of_applyAll hids hfinal
    obtain ⟨d, hd, hcurrent, hcontinues⟩ := hrun
    exact ⟨d, hd, hcurrent, hcontinues.recorded, runChain_of_ok he hd⟩
  have hstop : ∀ i spec r mid, StopsAt c e specs i spec r mid →
      ∃ d, Chain.run c untimed e (specs.take i) = .ok d ∧ d.current = mid ∧
        Recorded c e (specs.take i) d ∧ runChain c text specs =
          ⟨d.text ++ "\n", some (.chain (.notApplicable (i + 1) r spec.direction d))⟩ := by
    intro i spec r mid h
    obtain ⟨d, hd, hcurrent, hcontinues, herror⟩ := Chain.run_of_stopsAt hids h
    exact ⟨d, hd, hcurrent, hcontinues.recorded, runChain_of_notApplicable he herror⟩
  refine ⟨⟨fun hnone => ?_, ?_⟩, fun final hfinal => ?_, fun i spec r mid h => ?_⟩
  · cases hall : applyAll c e specs with
    | some final => exact ⟨final, rfl⟩
    | none =>
      obtain ⟨i, spec, r, mid, h⟩ := Chain.exists_stopsAt hids hall
      obtain ⟨d, -, -, -, houtcome⟩ := hstop i spec r mid h
      rw [houtcome] at hnone
      exact absurd hnone (by simp)
  · rintro ⟨final, hfinal⟩
    obtain ⟨d, -, -, -, houtcome⟩ := hsuccess final hfinal
    rw [houtcome]
  · obtain ⟨d, hd, hcurrent, hrecorded, houtcome⟩ := hsuccess final hfinal
    refine ⟨d, hd, hcurrent, hrecorded, ?_⟩
    rw [houtcome]
    rfl
  · obtain ⟨d, hd, hcurrent, hrecorded, houtcome⟩ := hstop i spec r mid h
    refine ⟨d, hd, hcurrent, hrecorded, ?_⟩
    rw [houtcome, ← hcurrent]
    rfl

/-- A conjunction that is denied twice, below the root. -/
def deniedTwice : Formula := .bin .or (.var "c") (.neg (.neg (.bin .and (.var "a") (.var "b"))))

/-- The double negation is dropped where it is found, the operands of the conjunction are
    exchanged, and the last step finds no place. -/
def mistakenChain : List StepSpec :=
  [⟨"double-negation", .leftToRight, none⟩, ⟨"commutativity-and", .leftToRight, some [1]⟩,
    ⟨"complement-or", .leftToRight, none⟩]

theorem runChain_mistakenChain :
    Formula.parse "c ∨ ¬¬(a ∧ b)" = .ok deniedTwice ∧
    (∀ spec ∈ mistakenChain, (Catalog.standard.get? spec.rule).isSome) ∧
    RunResult.ofOutcome (runChain .standard "c ∨ ¬¬(a ∧ b)" mistakenChain) = ⟨1,
      "  c ∨ ¬¬(a ∧ b)\n" ++
      "≡ c ∨ (a ∧ b)    [double-negation, left-to-right at [1]]\n" ++
      "≡ c ∨ (b ∧ a)    [commutativity-and, left-to-right at [1]]\n",
      some ("Error: step 3: rule `complement-or` (left-to-right) does not apply to " ++
        "`c ∨ (b ∧ a)`")⟩ := by
  have he : Formula.parse "c ∨ ¬¬(a ∧ b)" = .ok deniedTwice := by rfl
  have hids : ∀ spec ∈ mistakenChain, (Catalog.standard.get? spec.rule).isSome := by
    decide +kernel
  have hstop : StopsAt .standard deniedTwice mistakenChain 2
      ⟨"complement-or", .leftToRight, none⟩ Rule.standard[28]
      (.bin .or (.var "c") (.bin .and (.var "b") (.var "a"))) := by
    constructor <;> decide +kernel
  obtain ⟨-, -, hfailure⟩ := runChain_exact he hids
  obtain ⟨d, hrun, -, -, hresult⟩ := hfailure 2 _ _ _ hstop
  have htext : (Chain.run .standard untimed deniedTwice (mistakenChain.take 2)).map
      (·.text ++ "\n") = .ok ("  c ∨ ¬¬(a ∧ b)\n" ++
        "≡ c ∨ (a ∧ b)    [double-negation, left-to-right at [1]]\n" ++
        "≡ c ∨ (b ∧ a)    [commutativity-and, left-to-right at [1]]\n") := by
    decide +kernel
  rw [hrun] at htext
  have houtput : d.text ++ "\n" = _ := Except.ok.inj htext
  refine ⟨he, hids, ?_⟩
  rw [hresult, houtput]
  decide +kernel

end Command

end PropCalc
