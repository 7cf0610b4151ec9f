/-
  What is listed can be used again from what the list shows of it.

  The id of the rule, a suffix for the direction and the path after an `@` make the text of a step,
  which is read back (`StepSpec.read_parts`). In a valid catalog the id leads to the rule that was
  listed, and used at its position that rule does what the list shows
  (`Catalog.applications_replay`).
-/
import PropCalc.Proofs.Catalog.Validation
import PropCalc.Proofs.Chain.Certified
import PropCalc.Proofs.Chain.StepText
import PropCalc.Proofs.Rule.HandOver

namespace PropCalc

/-! ## The application as a step -/

namespace StepSpec

theorem read_parts {rule : String} {p : Path} (hid : rule ≠ "") (hcolon : ':' ∉ rule.toList)
    (hat : '@' ∉ rule.toList) (d : Direction) (hp : p.InWords) :
    read (rule ++ d.suffix ++ "@" ++ p.text) = .ok ⟨rule, d, some p⟩ := by
  have hposition : ∀ p', some p = some p' → p'.InWords := by
    rintro _ ⟨⟩
    exact hp
  rw [String.append_assoc]
  exact read_text ⟨rule, d, some p⟩ hid hcolon hat hposition

end StepSpec

namespace Chain

variable {c : Catalog} {time : Nat} {e : Formula} {a : Application}

/-- Used as the only step of a chain, an application does what performing it does. -/
theorem run_application {result : Formula} (hrule : c.get? a.rule.id = some a.rule)
    (h : a.perform ∅ e = some result) :
    run c time e [⟨a.rule.id, a.direction, some a.position⟩] =
      .ok ((Derivation.begin e).record result a.rule a.direction a.position time) := by
  have happly : a.rule.apply a.direction (some a.position) ∅ (Derivation.begin e).current =
      some result := h
  exact runFrom_cons_of_apply hrule happly

end Chain

namespace Catalog

variable {c : Catalog} {text : String} {e : Formula} {a : Application}

/-- Whatever a valid catalog lists for a formula that has been read can be used again from the text
    of a step: the id of the rule, the direction, and the position as it is shown. If the id is
    there and has no `:` and no `@`, this text is read as a step, and the chain of that step alone
    goes through on the text of the formula. It comes to the preview and records the position. -/
theorem applications_replay (hc : c.validate = .ok ()) (he : Formula.parse text = .ok e)
    (ha : a ∈ c.applications e) (hid : a.rule.id ≠ "") (hcolon : ':' ∉ a.rule.id.toList)
    (hat : '@' ∉ a.rule.id.toList) :
    ∃ spec d,
      StepSpec.read (a.rule.id ++ a.direction.suffix ++ "@" ++ a.position.text) = .ok spec ∧
      Formula.parse e.text = .ok e ∧
      Chain.run c Command.untimed e [spec] = .ok d ∧
      d.current.text = a.preview ∧
      d.steps.map (fun s => (s.rule, s.direction, s.position)) =
        [(a.rule, a.direction, a.position)] ∧
      RunResult.ofOutcome (Command.runChain c e.text [spec]) = ⟨0, d.text ++ "\n", none⟩ := by
  obtain ⟨result, old, new, hperform, hpreview, hold, -, -⟩ := perform_of_mem_applications ha
  have hrule : c.get? a.rule.id = some a.rule :=
    get?_of_mem (validate_eq_ok_iff.mp hc).1 (rule_mem_of_mem_applications ha)
  have hback : Formula.parse e.text = .ok e :=
    Formula.parse_text_of_valid (Formula.valid_of_parse he)
  have hread := StepSpec.read_parts hid hcolon hat a.direction
    (Path.inWords_of_subformula hold)
  have hrun : Chain.run c Command.untimed e [⟨a.rule.id, a.direction, some a.position⟩] =
      .ok ((Derivation.begin e).record result a.rule a.direction a.position Command.untimed) :=
    Chain.run_application hrule hperform
  refine ⟨_, _, hread, hback, hrun, ?_, rfl, ?_⟩
  · rw [Derivation.current_record, hpreview]
  · rw [Command.runChain_of_ok hback hrun]
    rfl

/-- Contraposition below a negation. -/
def contraposed : Application where
  rule := Rule.standard[16]
  direction := .leftToRight
  position := [0]
  description := "p → q → ¬q → ¬p"
  preview := "¬(¬q → ¬p)"

theorem applications_replay_contraposed :
    standard.validate = .ok () ∧
    Formula.parse "¬(p→q)" = .ok (.neg (.bin .implies (.var "p") (.var "q"))) ∧
    contraposed ∈ standard.applications (.neg (.bin .implies (.var "p") (.var "q"))) ∧
    ∃ spec d, StepSpec.read "contraposition:ltr@[0]" = .ok spec ∧
      Chain.run standard Command.untimed (.neg (.bin .implies (.var "p") (.var "q"))) [spec] =
        .ok d ∧
      d.current.text = "¬(¬q → ¬p)" ∧ d.steps.map (·.position) = [[0]] := by
  have hc : standard.validate = .ok () := by decide +kernel
  have he : Formula.parse "¬(p→q)" = .ok (.neg (.bin .implies (.var "p") (.var "q"))) := by rfl
  have ha : contraposed ∈ standard.applications (.neg (.bin .implies (.var "p") (.var "q"))) := by
    decide +kernel
  obtain ⟨spec, d, hread, -, hrun, hpreview, hsteps, -⟩ :=
    applications_replay hc he ha (by decide) (by decide) (by decide)
  have hpositions := congrArg (List.map (·.2.2)) hsteps
  rw [List.map_map] at hpositions
  exact ⟨hc, he, ha, spec, d, hread, hrun, hpreview, hpositions⟩

end Catalog

end PropCalc
