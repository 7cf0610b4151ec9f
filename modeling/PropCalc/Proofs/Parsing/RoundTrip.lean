/-
  The canonical text and reading are inverse to each other.

  The canonical text of a formula spells `tokens e` (`lexed_write`), provided that its names are
  names that a text can hold; no other name could be read back, and the reader gives no other
  (`valid_of_parse`). The tokens stand for the formula (`derives_tokens`). So a formula is what some
  text spells exactly if its own canonical text spells it (`parse_text_iff_valid`).
-/
import PropCalc.Formula.Canonical
import PropCalc.Proofs.Parsing.Texts

namespace PropCalc

open Name (Ended)

/-- A sign that starts no word stands for itself before any text. -/
theorem Lexed.sign {c : Char} {t : Token} (h : Token.Spells [c] t)
    (hc : Name.starts c = false) {rest : List Char} {us : List Token} (hrest : Lexed rest us) :
    Lexed (c :: rest) (t :: us) := by
  have hlong : Token.Longest [c] rest := by
    rw [Token.longest_iff h]
    intro hword
    have hnot : ¬ Name.IsWord [c] := Name.not_isWord_of_not_starts (by simp [hc])
    exact absurd hword hnot
  exact .token h hlong hrest

theorem Lexed.blank_sign_blank (op : Connective) {rest : List Char} {us : List Token}
    (h : Lexed rest us) : Lexed (' ' :: op.sign :: ' ' :: rest) (.op op :: us) := by
  have hsign : Token.Spells [op.sign] (.op op) := by
    cases op with
    | and => exact .andSign
    | or => exact .orSign
    | implies => exact .impliesSign
  have hstarts : Name.starts op.sign = false := by
    cases op <;> decide
  exact .blank (by decide) (.sign hsign hstarts (.blank (by decide) h))

namespace Formula

/-! ## The tokens of the canonical text -/

/-- The tokens of an operand: in parentheses if it is binary. -/
def enclosed (e : Formula) (ts : List Token) : List Token :=
  if e.isBinary then .lparen :: (ts ++ [.rparen]) else ts

/-- The tokens of the canonical text. -/
def tokens : Formula → List Token
  | var x => [.var x]
  | const b => [.const b]
  | neg e => .neg :: enclosed e e.tokens
  | bin op l r => enclosed l l.tokens ++ .op op :: enclosed r r.tokens

/-- The canonical text of an operand in front of other characters. -/
def writeOperand (e : Formula) (rest : List Char) : List Char :=
  if e.isBinary then '(' :: e.write (')' :: rest) else e.write rest

theorem write_neg (e : Formula) (rest : List Char) :
    (neg e).write rest = '¬' :: e.writeOperand rest := rfl

theorem write_bin (op : Connective) (l r : Formula) (rest : List Char) :
    (bin op l r).write rest =
      l.writeOperand (' ' :: op.sign :: ' ' :: r.writeOperand rest) := rfl

/-! ## The canonical text is cut into its tokens -/

/-- In front of any text that does not go on with a character of a word, the formula is cut
    into its tokens. -/
def Cuts (e : Formula) : Prop :=
  ∀ rest us, Ended rest → Lexed rest us → Lexed (e.write rest) (e.tokens ++ us)

theorem Cuts.operand {e : Formula} (h : e.Cuts) {rest : List Char} {us : List Token}
    (hended : Ended rest) (hrest : Lexed rest us) :
    Lexed (e.writeOperand rest) (enclosed e e.tokens ++ us) := by
  unfold writeOperand enclosed
  split
  · have hclose : Lexed (')' :: rest) (.rparen :: us) := .sign .rparen (by decide) hrest
    have hinner := h _ _ (Name.ended_cons (by decide)) hclose
    have hopen := Lexed.sign .lparen (by decide) hinner
    simpa using hopen
  · exact h _ _ hended hrest

theorem lexed_write {e : Formula} (h : ∀ x ∈ e.names, Name.Valid x) : e.Cuts := by
  induction e with
  | var x =>
    intro rest us hended hrest
    have hspells : Token.Spells x.toList (.var x) := by
      have hname := Token.Spells.name (h x (by simp [names]))
      rwa [String.ofList_toList] at hname
    have hlong : Token.Longest x.toList rest := (Token.longest_iff hspells).mpr fun _ => hended
    exact .token hspells hlong hrest
  | const b =>
    intro rest us _ hrest
    cases b with
    | true => exact .sign .top (by decide) hrest
    | false => exact .sign .bottom (by decide) hrest
  | neg e ih =>
    intro rest us hended hrest
    rw [write_neg, tokens, List.cons_append]
    exact .sign .notSign (by decide) ((ih h).operand hended hrest)
  | bin op l r ihl ihr =>
    intro rest us hended hrest
    have hl := ihl fun x hx => h x (by simp [names, hx])
    have hr := ihr fun x hx => h x (by simp [names, hx])
    have hright := Lexed.blank_sign_blank op (hr.operand hended hrest)
    have hboth := hl.operand (Name.ended_cons (by decide)) hright
    rw [write_bin, tokens, List.append_assoc, List.cons_append]
    exact hboth

/-! ## The tokens stand for the formula -/

theorem derives_bin {op : Connective} {ts us : List Token} {l r : Formula}
    (hl : Derives .primary ts l) (hr : Derives .primary us r) :
    Derives .implication (ts ++ .op op :: us) (.bin op l r) :=
  ((hl.of_primary (.chain op)).snoc (hr.of_primary op.operand)).implication

theorem derives_enclosed (e : Formula) : Derives .primary (enclosed e e.tokens) e := by
  induction e with
  | var x => exact .var x
  | const b => exact .const b
  | neg e ih => exact .neg ih
  | bin op l r ihl ihr => exact .group (derives_bin ihl ihr)

theorem derives_tokens (e : Formula) : Derives .implication e.tokens e := by
  cases e with
  | var x => exact (Derives.var x).implication
  | const b => exact (Derives.const b).implication
  | neg e => exact (Derives.neg e.derives_enclosed).implication
  | bin op l r => exact derives_bin l.derives_enclosed r.derives_enclosed

/-! ## Round trips -/

theorem parse_text_of_valid {e : Formula} (h : ∀ x ∈ e.names, Name.Valid x) :
    parse e.text = .ok e := by
  have hcut : Lexed (e.write []) (e.tokens ++ []) :=
    lexed_write h [] [] (by simp [Ended]) .done
  rw [List.append_nil] at hcut
  rw [parse_eq_ok_iff]
  refine ⟨e.tokens, ?_, e.derives_tokens⟩
  unfold text
  rw [String.toList_ofList]
  exact hcut

/-- Reading gives only names that a text can hold. -/
theorem valid_of_parse {s : String} {e : Formula} (h : parse s = .ok e) :
    ∀ x ∈ e.names, Name.Valid x := by
  obtain ⟨ts, hlexed, hderives⟩ := (parse_eq_ok_iff s e).mp h
  exact fun x hx => hlexed.valid_of_mem (hderives.var_mem_of_mem_names hx)

/-- A formula has only names that a text can hold exactly if some text spells it, and exactly if
    its canonical text does. So whatever text it was read from, the canonical text is read back
    as the same formula. -/
theorem parse_text_iff_valid (e : Formula) :
    ((∀ x ∈ e.names, Name.Valid x) ↔ ∃ s, parse s = .ok e) ∧
    ((∃ s, parse s = .ok e) ↔ parse e.text = .ok e) ∧
    (∀ s, parse s = .ok e → parse e.text = .ok e) := by
  have hback : ∀ s, parse s = .ok e → parse e.text = .ok e :=
    fun _ hs => parse_text_of_valid (valid_of_parse hs)
  refine ⟨⟨fun h => ⟨e.text, parse_text_of_valid h⟩, ?_⟩, ⟨?_, fun h => ⟨e.text, h⟩⟩, hback⟩
  · rintro ⟨s, hs⟩
    exact valid_of_parse hs
  · rintro ⟨s, hs⟩
    exact hback s hs

end Formula

end PropCalc
