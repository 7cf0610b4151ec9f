/-
  The grammar of formulas.

    implication := term (→ term)*
    term        := factor (∨ factor)*
    factor      := primary (∧ primary)*
    primary     := ¬ primary | ( implication ) | constant | variable

  `Derives n ts e` says that the tokens are a phrase of kind `n` and stand for `e`: chains fold to
  the left, and parentheses leave no trace. `Regrouped n ts ts'` says that `ts'` is the phrase
  `ts` with more parentheses around phrases in it.
-/
import PropCalc.Parsing.Token

namespace PropCalc

/-- The kinds of phrases: the chains of each connective, and what they are made of at last. -/
inductive Nonterminal
  | chain (op : Connective)
  | primary
  deriving DecidableEq, Repr

namespace Nonterminal

abbrev implication : Nonterminal := chain .implies

abbrev term : Nonterminal := chain .or

abbrev factor : Nonterminal := chain .and

end Nonterminal

/-- The kind of the operands in a chain. -/
def Connective.operand : Connective → Nonterminal
  | implies => .term
  | or => .factor
  | and => .primary

/-- The tokens that follow the first operand of a chain: each further operand after the
    connective. -/
def tailTokens (op : Connective) (operands : List (List Token)) : List Token :=
  operands.flatMap fun ts => .op op :: ts

/-- The tokens are a phrase of a kind, and it stands for the formula. -/
inductive Derives : Nonterminal → List Token → Formula → Prop
  | const (b) : Derives .primary [.const b] (.const b)
  | var (x) : Derives .primary [.var x] (.var x)
  | neg {ts e} : Derives .primary ts e → Derives .primary (.neg :: ts) (.neg e)
  | group {ts e} : Derives .implication ts e → Derives .primary (.lparen :: (ts ++ [.rparen])) e
  | chain {op ts e} (rest : List (List Token × Formula)) :
      Derives op.operand ts e → (∀ a ∈ rest, Derives op.operand a.1 a.2) →
      Derives (.chain op) (ts ++ tailTokens op (rest.map (·.1)))
        (rest.foldl (fun left a => .bin op left a.2) e)

/-- The second phrase is the first one with more parentheses around phrases in it, or with none
    more. -/
inductive Regrouped : Nonterminal → List Token → List Token → Prop
  | const (b) : Regrouped .primary [.const b] [.const b]
  | var (x) : Regrouped .primary [.var x] [.var x]
  | neg {ts ts'} : Regrouped .primary ts ts' → Regrouped .primary (.neg :: ts) (.neg :: ts')
  | group {ts ts'} : Regrouped .implication ts ts' →
      Regrouped .primary (.lparen :: (ts ++ [.rparen])) (.lparen :: (ts' ++ [.rparen]))
  | chain {op ts ts'} (rest : List (List Token × List Token)) :
      Regrouped op.operand ts ts' → (∀ a ∈ rest, Regrouped op.operand a.1 a.2) →
      Regrouped (.chain op) (ts ++ tailTokens op (rest.map (·.1)))
        (ts' ++ tailTokens op (rest.map (·.2)))
  | wrap {n ts ts'} : Regrouped n ts ts' → Regrouped n ts (.lparen :: (ts' ++ [.rparen]))

namespace Derives

/-! ## Chains of one operand, and of one more -/

theorem single (op : Connective) {ts : List Token} {e : Formula}
    (h : Derives op.operand ts e) : Derives (.chain op) ts e := by
  have hchain := Derives.chain [] h (by simp)
  simpa [tailTokens] using hchain

theorem snoc {op : Connective} {ts us : List Token} {l r : Formula}
    (hl : Derives (.chain op) ts l) (hr : Derives op.operand us r) :
    Derives (.chain op) (ts ++ .op op :: us) (.bin op l r) := by
  cases hl with
  | @chain _ ts e rest hfirst hrest =>
    have hall : ∀ a ∈ rest ++ [(us, r)], Derives op.operand a.1 a.2 := by
      intro a ha
      rcases List.mem_append.mp ha with ha | ha
      · exact hrest a ha
      · rw [List.mem_singleton.mp ha]
        exact hr
    have hchain := Derives.chain (rest ++ [(us, r)]) hfirst hall
    simpa [tailTokens] using hchain

/-! ## Every phrase is an implication, and a primary is a phrase of any kind -/

theorem implication_of_chain {op : Connective} {ts : List Token} {e : Formula}
    (h : Derives (.chain op) ts e) : Derives .implication ts e := by
  cases op with
  | implies => exact h
  | or => exact single .implies h
  | and => exact single .implies (single .or h)

theorem implication {n : Nonterminal} {ts : List Token} {e : Formula} (h : Derives n ts e) :
    Derives .implication ts e := by
  cases n with
  | chain op => exact h.implication_of_chain
  | primary => exact (single .and h).implication_of_chain

theorem of_primary {ts : List Token} {e : Formula} (h : Derives .primary ts e) :
    (n : Nonterminal) → Derives n ts e
  | .primary => h
  | .factor => single .and h
  | .term => single .or (single .and h)
  | .implication => (single .and h).implication_of_chain

/-- A phrase of any kind in parentheses is a phrase of every kind, and stands for the same. -/
theorem wrap {n : Nonterminal} {ts : List Token} {e : Formula} (h : Derives n ts e)
    (m : Nonterminal) : Derives m (.lparen :: (ts ++ [.rparen])) e :=
  (Derives.group h.implication).of_primary m

/-! ## Names -/

theorem mem_tailTokens {op : Connective} {operands : List (List Token)} {us : List Token}
    (hus : us ∈ operands) {t : Token} (ht : t ∈ us) : t ∈ tailTokens op operands :=
  List.mem_flatMap.mpr ⟨us, hus, List.mem_cons_of_mem _ ht⟩

theorem mem_names_foldl {op : Connective} {x : String} (rest : List (List Token × Formula))
    {e : Formula} (hx : x ∈ (rest.foldl (fun left a => .bin op left a.2) e).names) :
    x ∈ e.names ∨ ∃ a ∈ rest, x ∈ a.2.names := by
  induction rest generalizing e with
  | nil => exact .inl hx
  | cons a rest ih =>
    rcases ih hx with h | ⟨b, hb, hxb⟩
    · rcases List.mem_append.mp h with h | h
      · exact .inl h
      · exact .inr ⟨a, List.mem_cons_self, h⟩
    · exact .inr ⟨b, List.mem_cons_of_mem _ hb, hxb⟩

/-- The names of the formula stand among the tokens. -/
theorem var_mem_of_mem_names {n : Nonterminal} {ts : List Token} {e : Formula}
    (h : Derives n ts e) {x : String} (hx : x ∈ e.names) : .var x ∈ ts := by
  induction h with
  | const b => cases hx
  | var y =>
    rw [List.mem_singleton.mp hx]
    exact List.mem_singleton_self _
  | neg _ ih => exact List.mem_cons_of_mem _ (ih hx)
  | group _ ih => exact List.mem_cons_of_mem _ (List.mem_append_left _ (ih hx))
  | chain rest _ _ ih ihrest =>
    rcases mem_names_foldl rest hx with h | ⟨a, ha, hxa⟩
    · exact List.mem_append_left _ (ih h)
    · exact List.mem_append_right _
        (mem_tailTokens (List.mem_map_of_mem ha) (ihrest a ha hxa))

end Derives

/-- More parentheses around phrases do not change what the whole phrase stands for. -/
theorem Regrouped.derives {n : Nonterminal} {ts ts' : List Token} (h : Regrouped n ts ts') :
    ∃ e, Derives n ts e ∧ Derives n ts' e := by
  induction h with
  | const b => exact ⟨_, .const b, .const b⟩
  | var x => exact ⟨_, .var x, .var x⟩
  | neg _ ih =>
    obtain ⟨e, h, h'⟩ := ih
    exact ⟨_, .neg h, .neg h'⟩
  | group _ ih =>
    obtain ⟨e, h, h'⟩ := ih
    exact ⟨_, .group h, .group h'⟩
  | @chain op ts ts' rest _ _ ih ihrest =>
    obtain ⟨e, h, h'⟩ := ih
    -- one formula for each further operand, as a function of the two phrases
    have hone : ∀ a, ∃ f, a ∈ rest → Derives op.operand a.1 f ∧ Derives op.operand a.2 f := by
      intro a
      by_cases ha : a ∈ rest
      · obtain ⟨f, hf⟩ := ihrest a ha
        exact ⟨f, fun _ => hf⟩
      · exact ⟨.const true, fun hmem => absurd hmem ha⟩
    obtain ⟨f, hf⟩ := Classical.skolem.mp hone
    have hleft := Derives.chain (rest.map fun a => (a.1, f a)) h (by
      intro b hb
      obtain ⟨a, ha, rfl⟩ := List.mem_map.mp hb
      exact (hf a ha).1)
    have hright := Derives.chain (rest.map fun a => (a.2, f a)) h' (by
      intro b hb
      obtain ⟨a, ha, rfl⟩ := List.mem_map.mp hb
      exact (hf a ha).2)
    rw [List.map_map, List.foldl_map] at hleft hright
    exact ⟨_, hleft, hright⟩
  | @wrap n _ _ _ ih =>
    obtain ⟨e, h, h'⟩ := ih
    exact ⟨e, h, h'.wrap n⟩

end PropCalc
