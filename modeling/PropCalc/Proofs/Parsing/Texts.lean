/-
  Which texts are formulas.

  A text is a formula exactly if, cut into tokens, it is an implication of the grammar, and then
  it is the formula that the tokens stand for (`parse_eq_ok_iff`). So spacing, the choice between
  the two spellings of a sign and needless parentheses do not matter (`parse_exact`).
-/
import PropCalc.Proofs.Parsing.Lexing
import PropCalc.Proofs.Parsing.Reader

namespace PropCalc.Formula

theorem ofChars_eq_ok_iff (cs : List Char) (e : Formula) :
    ofChars cs = .ok e ↔ ∃ ts, Lexed cs ts ∧ Derives .implication ts e := by
  constructor
  · intro h
    unfold ofChars at h
    cases hls : Lexeme.ofChars cs with
    | error _ =>
      rw [hls] at h
      simp [Except.bind] at h
    | ok ls =>
      rw [hls] at h
      have hlexed : Lexed cs (ls.map Lexeme.token) := Lexeme.lexed_iff.mpr ⟨ls, hls, rfl⟩
      exact ⟨_, hlexed, (ofLexemes_eq_ok_iff ls e).mp h⟩
  · rintro ⟨ts, hlexed, hderives⟩
    obtain ⟨ls, hls, rfl⟩ := Lexeme.lexed_iff.mp hlexed
    unfold ofChars
    rw [hls]
    exact (ofLexemes_eq_ok_iff ls e).mpr hderives

/-- Once a text has been cut into lexemes they decide, errors included. -/
theorem parse_of_ofChars {text : String} {ls : List Lexeme}
    (hls : Lexeme.ofChars text.toList = .ok ls) : parse text = ofLexemes ls := by
  unfold parse ofChars
  rw [hls]
  rfl

theorem parse_eq_ok_iff (text : String) (e : Formula) :
    parse text = .ok e ↔ ∃ ts, Lexed text.toList ts ∧ Derives .implication ts e :=
  ofChars_eq_ok_iff text.toList e

/-- Once a text has been cut into tokens they alone decide. -/
theorem parse_eq_ok_iff_of_lexed {text : String} {ts : List Token} (h : Lexed text.toList ts)
    (e : Formula) : parse text = .ok e ↔ Derives .implication ts e := by
  rw [parse_eq_ok_iff]
  constructor
  · rintro ⟨ts', h', hderives⟩
    rw [h.unique h']
    exact hderives
  · exact fun hderives => ⟨ts, h, hderives⟩

/-- Reading accepts exactly the grammar and builds the tree that it prescribes. Tokens have one
    tree at most; texts with the same tokens are read alike; and more parentheses around phrases
    leave the tree as it is. -/
theorem parse_exact :
    (∀ text e, parse text = .ok e ↔
      ∃ ts, Lexed text.toList ts ∧ Derives .implication ts e) ∧
    (∀ ts e e', Derives .implication ts e → Derives .implication ts e' → e = e') ∧
    (∀ text text' ts, Lexed text.toList ts → Lexed text'.toList ts →
      ∀ e, parse text = .ok e ↔ parse text' = .ok e) ∧
    (∀ text text' ts ts', Lexed text.toList ts → Lexed text'.toList ts' →
      Regrouped .implication ts ts' → ∃ e, parse text = .ok e ∧ parse text' = .ok e) := by
  refine ⟨parse_eq_ok_iff, fun _ _ _ => Derives.unique, ?_, ?_⟩
  · intro text text' ts h h' e
    rw [parse_eq_ok_iff_of_lexed h, parse_eq_ok_iff_of_lexed h']
  · intro text text' ts ts' h h' hgroup
    obtain ⟨e, he, he'⟩ := hgroup.derives
    refine ⟨e, ?_, ?_⟩
    · exact (parse_eq_ok_iff_of_lexed h e).mpr he
    · exact (parse_eq_ok_iff_of_lexed h' e).mpr he'

example : parse "(a) /\\ !true -> ?x" = parse "a∧¬⊤→?x" := by rfl

end PropCalc.Formula
