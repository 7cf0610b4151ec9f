/-
  Rewriting stays among the formulas that can be written down, and writing one down loses
  nothing.

  A formula is writable if all its names are names that a text can hold; those are the formulas
  that some text spells, and they are read back from their canonical text. The names of a result
  come from the formula, from the bindings that are given, or from the rule (`apply_writable`),
  whose sides have been read from texts themselves.

  So at any point of a sequence of rewrites the formula can be handed over as text, and what is
  read there goes on as the formula would have (`rewriteAll_eq_filter`, `rewriting_hands_over`).
-/
import PropCalc.Proofs.Application.Enumeration
import PropCalc.Proofs.Parsing.RoundTrip
import PropCalc.Proofs.Rule.Names

namespace PropCalc

/-- All names are names that a text can hold. -/
def Formula.Writable (e : Formula) : Prop := ∀ x ∈ e.names, Name.Valid x

/-- The names that are bound go to writable formulas. -/
def Substitution.Writable (σ : Substitution) : Prop := ∀ x e, σ.get? x = some e → e.Writable

theorem Substitution.Writable.empty : Writable ∅ := by
  intro x e h
  exact absurd h (by simp)

/-! ## The formulas that rewriting makes -/

namespace Rule

theorem writable_replacement {r : Rule} {d : Direction} {o : Oriented}
    (ho : r.oriented d = .ok o) : o.replacement.Writable := by
  obtain ⟨left, right, hl, hr, rfl⟩ := oriented_eq_ok_iff.mp ho
  cases d with
  | leftToRight => exact Formula.valid_of_parse hr
  | rightToLeft => exact Formula.valid_of_parse hl

/-- Using a rule on a writable formula with writable bindings gives a writable formula. -/
theorem apply_writable {r : Rule} {d : Direction} {position : Option Path}
    {given : Substitution} {e e' : Formula} (he : e.Writable) (hgiven : given.Writable)
    (h : r.apply d position given e = some e') : e'.Writable := by
  obtain ⟨o, _, ho, -, -, -⟩ := apply_eq_some h
  intro y hy
  rcases mem_names_of_apply ho h hy with hy | ⟨x, f, hf, hy⟩ | ⟨hy, -, -⟩
  · exact he y hy
  · exact hgiven x f hf y hy
  · exact writable_replacement ho y hy

end Rule

/-! ## Sequences of rewrites -/

/-- One thing that is done with a formula. -/
inductive Rewrite
  /-- Use a rule. -/
  | use (r : Rule) (d : Direction) (position : Option Path) (given : Substitution)
  /-- Perform an application. -/
  | perform (a : Application) (given : Substitution)
  /-- Write the formula down and go on with what is read from the text. -/
  | handOver

namespace Rewrite

/-- What becomes of a formula. -/
def on (e : Formula) : Rewrite → Option Formula
  | use r d position given => r.apply d position given e
  | perform a given => a.perform given e
  | handOver => (Formula.parse e.text).toOption

def isHandOver : Rewrite → Bool
  | handOver => true
  | _ => false

theorem eq_handOver {w : Rewrite} (h : w.isHandOver = true) : w = handOver := by
  cases w with
  | handOver => rfl
  | use => cases h
  | perform => cases h

/-- The bindings that are given are writable. -/
def Writable : Rewrite → Prop
  | use _ _ _ given => given.Writable
  | perform _ given => given.Writable
  | handOver => True

end Rewrite

namespace Formula

variable {e : Formula}

/-- What becomes of the formula when all this is done in turn. -/
def rewriteAll (e : Formula) (ws : List Rewrite) : Option Formula := ws.foldlM Rewrite.on e

theorem rewriteAll_cons (e : Formula) (w : Rewrite) (ws : List Rewrite) :
    e.rewriteAll (w :: ws) = (w.on e).bind fun e' => e'.rewriteAll ws := by
  unfold rewriteAll
  rw [List.foldlM_cons]
  rfl

/-- What is read is the formula that has been written down. -/
theorem Writable.on_handOver (h : e.Writable) : Rewrite.handOver.on e = some e := by
  unfold Rewrite.on
  rw [parse_text_of_valid h]
  rfl

theorem Writable.on {w : Rewrite} {e' : Formula} (h : e.Writable) (hw : w.Writable)
    (he' : w.on e = some e') : e'.Writable := by
  cases w with
  | use r d position given => exact Rule.apply_writable h hw he'
  | perform a given =>
    have happly : a.rule.apply a.direction (some a.position) given e = some e' := he'
    exact Rule.apply_writable h hw happly
  | handOver =>
    rw [h.on_handOver] at he'
    rw [← Option.some.inj he']
    exact h

/-- Handing formulas over changes nothing in what a sequence of rewrites leads to. -/
theorem rewriteAll_eq_filter {ws : List Rewrite} (h : e.Writable) (hws : ∀ w ∈ ws, w.Writable) :
    e.rewriteAll ws = e.rewriteAll (ws.filter fun w => !w.isHandOver) := by
  induction ws generalizing e with
  | nil => rfl
  | cons w ws ih =>
    have hrest : ∀ w ∈ ws, w.Writable := fun w hw => hws w (List.mem_cons_of_mem _ hw)
    rw [rewriteAll_cons]
    by_cases hover : w.isHandOver
    · rw [Rewrite.eq_handOver hover, h.on_handOver, Option.bind_some, ih h hrest]
      rfl
    · rw [List.filter_cons_of_pos (by simp [hover]), rewriteAll_cons]
      cases he' : w.on e with
      | none => rfl
      | some e' =>
        have hwritable := h.on (hws w List.mem_cons_self) he'
        rw [Option.bind_some, Option.bind_some, ih hwritable hrest]

/-- Texts hand formulas over faithfully. From a formula whose names a text can hold, such as any
    that has been read, with bindings to such formulas: whatever using a rule leads to is such a
    formula and is read back from its canonical text; the preview of a listed application is read
    as what performing it gives; and a sequence of rewrites that is interrupted anywhere, as often
    as one likes, to write the formula down and to read it again, leads where it would have led
    without. -/
theorem rewriting_hands_over (he : e.Writable) :
    (∀ (r : Rule) d position (given : Substitution) result, given.Writable →
      r.apply d position given e = some result →
        result.Writable ∧ parse result.text = .ok result) ∧
    (∀ c : Catalog, ∀ a ∈ c.applications e, ∃ result, a.perform ∅ e = some result ∧
      parse a.preview = .ok result) ∧
    (∀ ws, (∀ w ∈ ws, Rewrite.Writable w) →
      e.rewriteAll ws = e.rewriteAll (ws.filter fun w => !w.isHandOver)) := by
  have hback : ∀ (r : Rule) d position (given : Substitution) result, given.Writable →
      r.apply d position given e = some result →
        result.Writable ∧ parse result.text = .ok result := by
    intro r d position given result hgiven h
    have hresult := Rule.apply_writable he hgiven h
    exact ⟨hresult, parse_text_of_valid hresult⟩
  refine ⟨hback, fun c a ha => ?_, fun ws hws => rewriteAll_eq_filter he hws⟩
  obtain ⟨result, _, _, hperform, hpreview, -⟩ := Catalog.perform_of_mem_applications ha
  refine ⟨result, hperform, ?_⟩
  rw [← hpreview]
  exact (hback a.rule a.direction (some a.position) ∅ result .empty hperform).2

/-- A formula with a Greek letter and a marked name. -/
def mixedNames : Formula := .bin .and (.var "φ1") (.bin .or (.var "b") (.neg (.var "?x")))

/-- Absorption has the index 17. -/
theorem absorption_lt_length : 17 < Rule.standard.length := by decide

/-- The operands are exchanged and one of them is blown up with a new name bound to `¬?y`, and
    after each of the two the formula is handed over. -/
def interrupted : List Rewrite :=
  [.use Rule.standard[0] .leftToRight (some []) ∅, .handOver,
    .use (Rule.standard.get ⟨17, absorption_lt_length⟩) .rightToLeft (some [1])
      (.ofList [("B", .neg (.var "?y"))]), .handOver]

theorem rewriting_hands_over_interrupted :
    parse "φ1 ∧ (b ∨ ¬?x)" = .ok mixedNames ∧ mixedNames.Writable ∧
    (∀ w ∈ interrupted, w.Writable) ∧
    mixedNames.rewriteAll interrupted =
      mixedNames.rewriteAll (interrupted.filter fun w => !w.isHandOver) ∧
    (mixedNames.rewriteAll interrupted).map text = some "(b ∨ ¬?x) ∧ (φ1 ∧ (φ1 ∨ ¬?y))" := by
  have hread : parse "φ1 ∧ (b ∨ ¬?x)" = .ok mixedNames := by rfl
  have hwritable : mixedNames.Writable := valid_of_parse hread
  have hbindings : (Substitution.Writable (.ofList [("B", .neg (.var "?y"))])) := by
    intro x f hx
    have hread : parse "¬?y" = .ok (.neg (.var "?y")) := by rfl
    have hmem := (NameMap.get?_eq_some_iff _ x f).mp hx
    have hf : f = .neg (.var "?y") := (Prod.mk.inj (List.mem_singleton.mp hmem)).2
    rw [hf]
    exact valid_of_parse hread
  have hws : ∀ w ∈ interrupted, w.Writable := by
    simp only [interrupted, List.mem_cons, List.not_mem_nil, or_false, forall_eq_or_imp,
      forall_eq, Rewrite.Writable]
    exact ⟨.empty, trivial, hbindings, trivial⟩
  refine ⟨hread, hwritable, hws, (rewriting_hands_over hwritable).2.2 interrupted hws, ?_⟩
  decide +kernel

end Formula

end PropCalc
