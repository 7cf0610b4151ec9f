/-
  The JSON form of derivations is read back up to the nesting limit.

  The same limit cuts at different heights. The start of a derivation stands inside one bracket,
  the formulas of a step inside three: those of the derivation, of the list of its steps and of
  the step. All other fields of a step need fewer brackets than are left there. So a saved
  derivation loads as the same derivation if its start has a height of at most 62 and the formulas
  of its steps have one of at most 61, and does not load otherwise (`decode_saved`). Nothing is
  asked of the steps beyond that: they need not be connected, and their rules need not be rules
  that could be used.
-/
import PropCalc.Proofs.Json.Formula
import PropCalc.Proofs.Json.Rule

namespace PropCalc

/-- Each two brackets more are room for one more connective. -/
theorem Formula.ofJson_toJson_of_height (e : Formula) (room : Nat) :
    ofJson (room + 1) e.toJson = if e.height ≤ room / 2 then some e else none := by
  have hroom : 2 * e.height + 1 ≤ room + 1 ↔ e.height ≤ room / 2 := by omega
  rw [ofJson_toJson]
  simp only [hroom]

/-! ## Steps -/

namespace Step

/-- The indices of the position and the time are below the bound of words. -/
def InWords (s : Step) : Prop := s.position.InWords ∧ s.time < Text.wordBound

instance (s : Step) : Decidable s.InWords := inferInstanceAs (Decidable (_ ∧ _))

/-- The formulas that the step leads from and to are not higher than this. -/
def WithinHeight (n : Nat) (s : Step) : Prop := s.source.height ≤ n ∧ s.target.height ≤ n

instance (n : Nat) (s : Step) : Decidable (s.WithinHeight n) := inferInstanceAs (Decidable (_ ∧ _))

/-- A step is read back exactly if there is room for the brackets of its formulas. The rule needs
    two inside the step's own. -/
theorem ofJson_toJson {s : Step} (hs : s.InWords) (room : Nat) :
    ofJson (room + 3) s.toJson =
      if s.WithinHeight ((room + 1) / 2) then some s else none := by
  have hnames : fieldNames.Nodup := by decide
  have hfields : Json.fields fieldNames (room + 3) s.toJson =
      some [s.source.toJson, s.target.toJson, s.rule.toJson, s.direction.toJson,
        Path.toJson s.position, .ofNat s.time] :=
    Json.fields_record hnames rfl (room + 2)
  have hrule := s.rule.ofJson_toJson room
  have hdirection := s.direction.ofJson_toJson (room + 2)
  have hposition := Path.ofJson_toJson hs.1 (room + 1)
  have htime := Json.word?_ofNat hs.2
  unfold ofJson
  simp only [hfields, Nat.pred_succ, Formula.ofJson_toJson_of_height, hrule, hdirection, hposition,
    htime, Option.bind_eq_bind, Option.bind_some, Option.pure_def]
  exact Json.bind_bind_of_guards

end Step

/-! ## Derivations -/

namespace Derivation

/-- All indices and times are below the bound of words. -/
def InWords (d : Derivation) : Prop := ∀ s ∈ d.steps, s.InWords

instance (d : Derivation) : Decidable d.InWords :=
  inferInstanceAs (Decidable (∀ s ∈ d.steps, s.InWords))

/-- The start and the formulas of the steps are not higher than these two numbers. -/
def WithinHeights (first others : Nat) (d : Derivation) : Prop :=
  d.start.height ≤ first ∧ ∀ s ∈ d.steps, s.WithinHeight others

instance (first others : Nat) (d : Derivation) : Decidable (d.WithinHeights first others) :=
  inferInstanceAs (Decidable (_ ∧ ∀ s ∈ d.steps, s.WithinHeight others))

/-- A derivation is read back exactly if there is room for the brackets of its formulas, and those
    of its steps have two fewer than its start. -/
theorem ofJson_toJson {d : Derivation} (hd : d.InWords) (room : Nat) :
    ofJson (room + 5) d.toJson =
      if d.WithinHeights ((room + 3) / 2) ((room + 1) / 2) then some d else none := by
  have hnames : ["start", "steps"].Nodup := by decide
  have hfields : Json.fields ["start", "steps"] (room + 5) d.toJson =
      some [d.start.toJson, .arr (d.steps.map Step.toJson)] :=
    Json.fields_record hnames rfl (room + 4)
  have hsteps := Json.listOf_map fun s hs => Step.ofJson_toJson (hd s hs) room
  unfold ofJson
  simp only [hfields, Nat.pred_succ, Formula.ofJson_toJson_of_height, hsteps, Option.bind_eq_bind,
    Option.bind_some, Option.pure_def]
  exact Json.bind_bind_of_guards

/-- Whichever way a derivation has been saved, it loads as the same derivation if its start has a
    height of at most 62 and the formulas of its steps have heights of at most 61, and otherwise it
    does not load. -/
theorem decode_saved {d : Derivation} (hd : d.InWords) :
    (Json.decodeText ofJson d.toJson.pretty =
      if d.start.height ≤ 62 ∧ ∀ s ∈ d.steps, s.source.height ≤ 61 ∧ s.target.height ≤ 61
      then some d else none) ∧
    (Json.decodeText ofJson d.toJson.compact =
      if d.start.height ≤ 62 ∧ ∀ s ∈ d.steps, s.source.height ≤ 61 ∧ s.target.height ≤ 61
      then some d else none) := by
  have hlimit : ofJson Json.nestingLimit d.toJson =
      if d.WithinHeights 62 61 then some d else none := ofJson_toJson hd 122
  rw [Json.decodeText_pretty, Json.decodeText_compact]
  exact ⟨hlimit, hlimit⟩

/-- A step from `n` negations at the last position and the last time, which does not end where it
    says and uses a rule without formulas. -/
def strangeStep (n : Nat) : Step :=
  ⟨.negated n (.var "\"\\𝜑"), .const false, ⟨"", "\n", "\x00", .deMorgan, "(", "→", ["?", ""]⟩,
    .rightToLeft, [0, 18446744073709551615], 18446744073709551615⟩

/-- Disconnected steps, and formulas that are as high as can be. -/
def highest : Derivation := ⟨.negated 62 (.var ""), [strangeStep 61, strangeStep 60]⟩

/-- At the start this height would not be too much. -/
def tooHigh : Derivation := ⟨.negated 62 (.var ""), [strangeStep 61, strangeStep 62]⟩

theorem decode_saved_highest :
    highest.InWords ∧ Json.decodeText ofJson highest.toJson.pretty = some highest ∧
      Json.decodeText ofJson highest.toJson.compact = some highest ∧
    tooHigh.InWords ∧ Json.decodeText ofJson tooHigh.toJson.pretty = none ∧
      Json.decodeText ofJson tooHigh.toJson.compact = none := by
  have hwords : highest.InWords := by decide +kernel
  have hpretty := (decode_saved hwords).1
  have hcompact := (decode_saved hwords).2
  rw [if_pos (by decide +kernel)] at hpretty hcompact
  have hwords' : tooHigh.InWords := by decide +kernel
  have hpretty' := (decode_saved hwords').1
  have hcompact' := (decode_saved hwords').2
  rw [if_neg (by decide +kernel)] at hpretty' hcompact'
  exact ⟨hwords, hpretty, hcompact, hwords', hpretty', hcompact'⟩

end Derivation

end PropCalc
