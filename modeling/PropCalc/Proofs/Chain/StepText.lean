/-
  Which texts specify which step, and what is wrong with the others.

  A step is written as the id of its rule, a suffix for the direction, and the path after an `@`.
  The position starts at the first `@` and the direction at the first `:` before it, so an id has
  neither of them in it; the direction can be left out if it is the one from left to right, and so
  can the position (`readChars_eq_ok_iff`). What is wrong with the position is reported first, then
  what is wrong with the direction (`readChars_eq_error_iff`). Any step with such an id is read back
  from its own text, and no text specifies a step with another id (`spelling_exact`).
-/
import PropCalc.Chain.StepSpec
import PropCalc.Proofs.Formula.PathText

namespace PropCalc

/-- How a step names its direction. -/
def Direction.suffix : Direction → String
  | leftToRight => ":ltr"
  | rightToLeft => ":rtl"

namespace StepSpec

variable {cs head rule : List Char} {d : Direction} {q : Option Path} {e : StepSpecError}

/-- What follows the id names the direction. -/
inductive NamesDirection : List Char → Direction → Prop
  | unsaid : NamesDirection [] .leftToRight
  | suffix (d : Direction) : NamesDirection d.suffix.toList d

/-- What follows the direction names the position. -/
inductive NamesPosition : List Char → Option Path → Prop
  | unsaid : NamesPosition [] none
  | path {text : List Char} {p : Path} (hread : Path.readChars text = .ok p) :
      NamesPosition ('@' :: text) (some p)

/-! ## The position -/

theorem readPosition_eq_ok_iff :
    readPosition cs = .ok (head, q) ↔
      '@' ∉ head ∧ ∃ rest, cs = head ++ rest ∧ NamesPosition rest q := by
  unfold readPosition
  constructor
  · intro h
    split at h
    · next hcut =>
      cases h
      exact ⟨Text.cutAt_eq_none_iff.mp hcut, [], (List.append_nil _).symm, .unsaid⟩
    · next before position hcut =>
      obtain ⟨rfl, hat⟩ := Text.cutAt_eq_some_iff.mp hcut
      split at h
      · next p hp =>
        cases h
        exact ⟨hat, _, rfl, .path hp⟩
      · cases h
  · rintro ⟨hat, rest, rfl, hrest⟩
    cases hrest with
    | unsaid => rw [List.append_nil, Text.cutAt_eq_none_iff.mpr hat]
    | path hp =>
      rw [Text.cutAt_eq_some_iff.mpr ⟨rfl, hat⟩]
      simp only
      rw [hp]

theorem readPosition_eq_error_iff :
    readPosition cs = .error e ↔ ∃ head text reason, '@' ∉ head ∧ cs = head ++ '@' :: text ∧
      Path.readChars text = .error reason ∧ e = .badPosition (String.ofList text) reason := by
  unfold readPosition
  constructor
  · intro h
    split at h
    · cases h
    · next before position hcut =>
      obtain ⟨rfl, hat⟩ := Text.cutAt_eq_some_iff.mp hcut
      split at h
      · cases h
      · next reason hreason =>
        cases h
        exact ⟨before, position, reason, hat, rfl, hreason, rfl⟩
  · rintro ⟨head, text, reason, hat, rfl, hreason, rfl⟩
    rw [Text.cutAt_eq_some_iff.mpr ⟨rfl, hat⟩]
    simp only
    rw [hreason]

/-! ## The direction -/

theorem readDirection_eq_ok_iff :
    readDirection cs = .ok (rule, d) ↔
      ':' ∉ rule ∧ ∃ suffix, cs = rule ++ suffix ∧ NamesDirection suffix d := by
  unfold readDirection
  constructor
  · intro h
    split at h
    · next hcut =>
      cases h
      exact ⟨Text.cutAt_eq_none_iff.mp hcut, [], (List.append_nil _).symm, .unsaid⟩
    · next before text hcut =>
      obtain ⟨rfl, hcolon⟩ := Text.cutAt_eq_some_iff.mp hcut
      split at h
      · next htext =>
        cases h
        exact ⟨hcolon, _, by rw [htext]; rfl, .suffix .leftToRight⟩
      · split at h
        · next htext =>
          cases h
          exact ⟨hcolon, _, by rw [htext]; rfl, .suffix .rightToLeft⟩
        · cases h
  · rintro ⟨hcolon, suffix, rfl, hsuffix⟩
    cases hsuffix with
    | unsaid => rw [List.append_nil, Text.cutAt_eq_none_iff.mpr hcolon]
    | suffix =>
      have hcut : Text.cutAt ':' (rule ++ d.suffix.toList) =
          some (rule, d.suffix.toList.tail) := by
        rw [Text.cutAt_eq_some_iff]
        exact ⟨by cases d <;> rfl, hcolon⟩
      rw [hcut]
      cases d <;> rfl

theorem readDirection_eq_error_iff :
    readDirection cs = .error e ↔ ∃ rule text, ':' ∉ rule ∧ cs = rule ++ ':' :: text ∧
      text ≠ ['l', 't', 'r'] ∧ text ≠ ['r', 't', 'l'] ∧
      e = .unknownDirection (String.ofList text) := by
  unfold readDirection
  constructor
  · intro h
    split at h
    · cases h
    · next before text hcut =>
      obtain ⟨rfl, hcolon⟩ := Text.cutAt_eq_some_iff.mp hcut
      split at h
      · cases h
      · next hltr =>
        split at h
        · cases h
        · next hrtl =>
          cases h
          exact ⟨before, text, hcolon, rfl, hltr, hrtl, rfl⟩
  · rintro ⟨rule, text, hcolon, rfl, hltr, hrtl, rfl⟩
    rw [Text.cutAt_eq_some_iff.mpr ⟨rfl, hcolon⟩]
    simp only
    rw [if_neg hltr, if_neg hrtl]

/-! ## The step -/

/-- A text that specifies no step, and what is reported of it. -/
inductive Misspelt : List Char → StepSpecError → Prop
  | badPosition {head text : List Char} {reason : Text.IndexError} (hat : '@' ∉ head)
      (hread : Path.readChars text = .error reason) :
      Misspelt (head ++ '@' :: text) (.badPosition (String.ofList text) reason)
  | unknownDirection {rule text rest : List Char} {q : Option Path} (hcolon : ':' ∉ rule)
      (hat : '@' ∉ rule ++ ':' :: text) (hltr : text ≠ ['l', 't', 'r'])
      (hrtl : text ≠ ['r', 't', 'l']) (hrest : NamesPosition rest q) :
      Misspelt (rule ++ ':' :: text ++ rest) (.unknownDirection (String.ofList text))
  | missingRule {suffix rest : List Char} {d : Direction} {q : Option Path}
      (hsuffix : NamesDirection suffix d) (hrest : NamesPosition rest q) :
      Misspelt (suffix ++ rest) .missingRule

theorem NamesDirection.not_at_mem {suffix : List Char} (h : NamesDirection suffix d) :
    '@' ∉ suffix := by
  cases h with
  | unsaid => exact List.not_mem_nil
  | suffix => cases d <;> decide

theorem readChars_eq (cs : List Char) :
    readChars cs = readPosition cs >>= fun (head, q) => readDirection head >>= fun (rule, d) =>
      if rule = [] then .error .missingRule else .ok ⟨String.ofList rule, d, q⟩ := by
  simp only [readChars, List.isEmpty_iff]

theorem readChars_eq_ok_iff {spec : StepSpec} :
    readChars cs = .ok spec ↔
      spec.rule ≠ "" ∧ ':' ∉ spec.rule.toList ∧ '@' ∉ spec.rule.toList ∧
      ∃ suffix rest, cs = spec.rule.toList ++ suffix ++ rest ∧
        NamesDirection suffix spec.direction ∧ NamesPosition rest spec.position := by
  simp only [readChars_eq, bind_eq_ok_iff, Prod.exists, readPosition_eq_ok_iff,
    readDirection_eq_ok_iff]
  constructor
  · rintro ⟨head, q, ⟨hat, rest, rfl, hrest⟩, rule, d, ⟨hcolon, suffix, rfl, hsuffix⟩, h⟩
    by_cases hrule : rule = []
    · rw [if_pos hrule] at h
      cases h
    · rw [if_neg hrule] at h
      cases h
      simp only [String.toList_ofList]
      refine ⟨by simpa using hrule, hcolon, ?_, suffix, rest, rfl, hsuffix, hrest⟩
      exact fun hmem => hat (List.mem_append_left suffix hmem)
  · rintro ⟨hrule, hcolon, hat, suffix, rest, rfl, hsuffix, hrest⟩
    have hhead : '@' ∉ spec.rule.toList ++ suffix :=
      List.mem_append.not.mpr (not_or.mpr ⟨hat, hsuffix.not_at_mem⟩)
    refine ⟨_, _, ⟨hhead, rest, rfl, hrest⟩, _, _, ⟨hcolon, suffix, rfl, hsuffix⟩, ?_⟩
    rw [if_neg (by simpa using hrule), String.ofList_toList]

theorem readChars_eq_error_iff : readChars cs = .error e ↔ Misspelt cs e := by
  simp only [readChars_eq, bind_eq_error_iff, Prod.exists, readPosition_eq_ok_iff,
    readPosition_eq_error_iff, readDirection_eq_ok_iff, readDirection_eq_error_iff]
  constructor
  · rintro (⟨head, text, reason, hat, rfl, hread, rfl⟩ |
      ⟨head, q, ⟨hat, rest, rfl, hrest⟩, ⟨rule, text, hcolon, rfl, hltr, hrtl, rfl⟩ |
        ⟨rule, d, ⟨-, suffix, rfl, hsuffix⟩, h⟩⟩)
    · exact .badPosition hat hread
    · exact .unknownDirection hcolon hat hltr hrtl hrest
    · by_cases hrule : rule = []
      · subst hrule
        cases h
        exact .missingRule hsuffix hrest
      · rw [if_neg hrule] at h
        cases h
  · intro h
    cases h with
    | badPosition hat hread => exact .inl ⟨_, _, _, hat, rfl, hread, rfl⟩
    | unknownDirection hcolon hat hltr hrtl hrest =>
      exact .inr ⟨_, _, ⟨hat, _, rfl, hrest⟩, .inl ⟨_, _, hcolon, rfl, hltr, hrtl, rfl⟩⟩
    | missingRule hsuffix hrest =>
      exact .inr ⟨_, _, ⟨hsuffix.not_at_mem, _, rfl, hrest⟩,
        .inr ⟨[], _, ⟨List.not_mem_nil, _, rfl, hsuffix⟩, rfl⟩⟩

/-! ## Reading back -/

/-- The text of a step, with its direction named. -/
def text (spec : StepSpec) : String :=
  spec.rule ++ spec.direction.suffix ++
    match spec.position with
    | none => ""
    | some p => "@" ++ p.text

theorem read_text (spec : StepSpec) (hrule : spec.rule ≠ "") (hcolon : ':' ∉ spec.rule.toList)
    (hat : '@' ∉ spec.rule.toList) (hposition : ∀ p, spec.position = some p → p.InWords) :
    read spec.text = .ok spec := by
  refine readChars_eq_ok_iff.mpr ⟨hrule, hcolon, hat, ?_⟩
  obtain ⟨rule, d, q⟩ := spec
  cases q with
  | none => exact ⟨_, [], by simp [text, String.toList_append], .suffix d, .unsaid⟩
  | some p =>
    refine ⟨_, _, ?_, .suffix d, .path (Path.readChars_chars (hposition p rfl))⟩
    simp [text, Path.text, String.toList_append]

/-- Reading steps is exact. A text specifies a step exactly if it is the id of the rule, which is
    there and has no `:` and no `@`, then what names the direction, where nothing means left to
    right, then nothing or an `@` and a text that is read as the position. What is wrong with any
    other text is known too: the position after the first `@` comes first, then the direction, then
    the missing id. So each step with such an id and a path of indices below the bound is read back
    from its text, and no text specifies a step with another id. -/
theorem spelling_exact :
    (∀ text spec, read text = .ok spec ↔
      spec.rule ≠ "" ∧ ':' ∉ spec.rule.toList ∧ '@' ∉ spec.rule.toList ∧
      ∃ suffix rest, text.toList = spec.rule.toList ++ suffix ++ rest ∧
        NamesDirection suffix spec.direction ∧ NamesPosition rest spec.position) ∧
    (∀ text e, read text = .error e ↔ Misspelt text.toList e) ∧
    (∀ spec : StepSpec, spec.rule ≠ "" → ':' ∉ spec.rule.toList → '@' ∉ spec.rule.toList →
      (∀ p, spec.position = some p → p.InWords) → read spec.text = .ok spec) ∧
    ∀ rule : String, rule = "" ∨ ':' ∈ rule.toList ∨ '@' ∈ rule.toList →
      ¬ ∃ text spec, read text = .ok spec ∧ spec.rule = rule := by
  refine ⟨fun _ _ => readChars_eq_ok_iff, fun _ _ => readChars_eq_error_iff,
    read_text, ?_⟩
  rintro _ hrule ⟨text, spec, hread, rfl⟩
  obtain ⟨hne, hcolon, hat, -⟩ := readChars_eq_ok_iff.mp hread
  rcases hrule with h | h | h
  · exact hne h
  · exact hcolon h
  · exact hat h

/-- A position, a direction and an id that are all wrong, then the last two, then the id alone. -/
example : read ":up@[1" = .error (.badPosition "[1" .invalidDigit) ∧
    read ":up@[1]" = .error (.unknownDirection "up") ∧ read ":rtl@[1]" = .error .missingRule := by
  decide +kernel

end StepSpec

end PropCalc
