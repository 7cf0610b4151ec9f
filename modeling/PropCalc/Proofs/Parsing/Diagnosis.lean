/-
  What is said of a text that is no formula.

  The reader stops at the first token that no formula has at its place. From any state it has
  reached, a formula can still be finished (`steps_closing`), and a formula never leads it to a
  stop (`steps_of_viable`); so the tokens it has taken are the longest start of the text that
  some formula starts with too (`isGreatest_of_run`). Whether an operand must come there, and how
  many parentheses are open, can be seen from those tokens alone (`isAwaiting_of_steps`,
  `count_lparen_of_steps`). Hence where they end decides the error
  (`parse_error_of_longest_viable`).
-/
import Mathlib.Order.Bounds.Defs
import PropCalc.Proofs.Parsing.Texts

namespace PropCalc

open Name (Ended)

/-! ## Texts for tokens -/

theorem Token.exists_spells {t : Token} (h : ∀ x, t = .var x → Name.Valid x) :
    ∃ w, Spells w t := by
  cases t with
  | neg => exact ⟨_, .notSign⟩
  | op op =>
    cases op with
    | and => exact ⟨_, .andSign⟩
    | or => exact ⟨_, .orSign⟩
    | implies => exact ⟨_, .impliesSign⟩
  | lparen => exact ⟨_, .lparen⟩
  | rparen => exact ⟨_, .rparen⟩
  | const b =>
    cases b with
    | true => exact ⟨_, .top⟩
    | false => exact ⟨_, .bottom⟩
  | var x =>
    have hname := Spells.name (h x rfl)
    rw [String.ofList_toList] at hname
    exact ⟨_, hname⟩

/-- With a blank after each token, any tokens are those of a text. -/
theorem Lexed.exists_of_valid {ts : List Token} (h : ∀ x, .var x ∈ ts → Name.Valid x) :
    ∃ cs, Lexed cs ts := by
  induction ts with
  | nil => exact ⟨[], .done⟩
  | cons t ts ih =>
    obtain ⟨cs, hcs⟩ := ih fun x hx => h x (List.mem_cons_of_mem _ hx)
    obtain ⟨w, hw⟩ := Token.exists_spells fun x hx => h x (hx ▸ List.mem_cons_self)
    have hended : Ended (' ' :: cs) := Name.ended_cons (by decide)
    have hlong : Token.Longest w (' ' :: cs) := (Token.longest_iff hw).mpr fun _ => hended
    exact ⟨w ++ ' ' :: cs, .token hw hlong (.blank (by decide) hcs)⟩

/-- Some text that is a formula starts with these tokens. -/
def Viable (ts : List Token) : Prop :=
  ∃ (s : String) (us : List Token) (e : Formula),
    Lexed s.toList (ts ++ us) ∧ Derives .implication (ts ++ us) e

namespace Parser

/-! ## Every state can be led to a formula -/

namespace State

/-- An operand must come. -/
def isAwaiting : State → Bool
  | awaiting .. => true
  | complete .. => false

/-- The levels of the open parentheses. -/
def outer : State → List Level
  | awaiting _ outer => outer
  | complete _ _ outer => outer

/-- The tokens that finish a formula: an operand if one must come, and the missing parentheses. -/
def closing : State → List Token
  | awaiting _ outer => .const true :: List.replicate outer.length .rparen
  | complete _ _ outer => List.replicate outer.length .rparen

end State

theorem steps_replicate_rparen (l : Level) (e : Formula) (outer : List Level) :
    ∃ l' e', steps (.complete l e outer) (List.replicate outer.length .rparen) =
      some (.complete l' e' []) := by
  induction outer generalizing l e with
  | nil => exact ⟨l, e, rfl⟩
  | cons m outer ih => exact ih m (m.factor (l.whole e))

theorem steps_closing (s : State) :
    ∃ l e, steps s s.closing = some (.complete l e []) := by
  cases s with
  | awaiting l outer => exact steps_replicate_rparen l (l.factor (.const true)) outer
  | complete l e outer => exact steps_replicate_rparen l e outer

theorem not_var_mem_closing (s : State) (x : String) : .var x ∉ s.closing := by
  cases s <;> simp [State.closing]

/-! ## The tokens taken are those that some formula starts with -/

theorem steps_of_viable {ts : List Token} (h : Viable ts) : ∃ s, steps start ts = some s := by
  obtain ⟨_, us, e, -, hderives⟩ := h
  obtain ⟨l, f, hsteps, -⟩ := steps_of_derives hderives
  rw [steps_append] at hsteps
  obtain ⟨s, hs, -⟩ := Option.bind_eq_some_iff.mp hsteps
  exact ⟨s, hs⟩

theorem viable_of_steps {ts : List Token} {s : State} (h : steps start ts = some s)
    (hnames : ∀ x, .var x ∈ ts → Name.Valid x) : Viable ts := by
  obtain ⟨l, e, hclosing⟩ := steps_closing s
  have hall : steps start (ts ++ s.closing) = some (.complete l e []) := by
    rw [steps_append_of_eq h, hclosing]
  have hvalid : ∀ x, .var x ∈ ts ++ s.closing → Name.Valid x := by
    intro x hx
    rcases List.mem_append.mp hx with hx | hx
    · exact hnames x hx
    · exact absurd hx (not_var_mem_closing s x)
  obtain ⟨cs, hcs⟩ := Lexed.exists_of_valid hvalid
  refine ⟨String.ofList cs, s.closing, l.whole e, ?_, derives_of_steps hall⟩
  rw [String.toList_ofList]
  exact hcs

/-- A run takes lexemes as long as their tokens fit. -/
theorem run_stops {s s' : State} {ls left : List Lexeme} (h : run s ls = (s', left)) :
    ∃ read, ls = read ++ left ∧ steps s (read.map Lexeme.token) = some s' ∧
      ∀ l left', left = l :: left' → step s' l.token = none := by
  induction ls generalizing s with
  | nil =>
    obtain ⟨rfl, rfl⟩ := Prod.mk.inj h
    exact ⟨[], rfl, rfl, by simp⟩
  | cons l ls ih =>
    rw [run] at h
    split at h
    · next s₁ hs₁ =>
      obtain ⟨read, rfl, hsteps, hstop⟩ := ih h
      refine ⟨l :: read, rfl, ?_, hstop⟩
      rw [List.map_cons, steps, hs₁, Option.bind_some, hsteps]
    · next hnone =>
      obtain ⟨rfl, rfl⟩ := Prod.mk.inj h
      refine ⟨[], rfl, rfl, fun l' left' heq => ?_⟩
      obtain ⟨rfl, -⟩ := List.cons.inj heq
      exact hnone

/-- What a run has taken is the longest start of the lexemes that some formula starts with. -/
theorem isGreatest_of_run {s : State} {read left : List Lexeme}
    (hnames : ∀ x, .var x ∈ (read ++ left).map Lexeme.token → Name.Valid x)
    (hsteps : steps start (read.map Lexeme.token) = some s)
    (hstop : ∀ l left', left = l :: left' → step s l.token = none) :
    IsGreatest {k | k ≤ (read ++ left).length ∧
      Viable (((read ++ left).take k).map Lexeme.token)} read.length := by
  constructor
  · refine ⟨by simp, ?_⟩
    rw [List.take_left]
    exact viable_of_steps hsteps fun x hx =>
      hnames x (by rw [List.map_append]; exact List.mem_append_left _ hx)
  · -- a longer start would have the token that does not fit
    rintro k ⟨hk, hviable⟩
    apply Nat.le_of_not_lt
    intro hlt
    obtain ⟨n, rfl⟩ : ∃ n, k = read.length + (n + 1) := ⟨k - read.length - 1, by omega⟩
    rw [List.take_length_add_append, List.map_append] at hviable
    obtain ⟨s', hs'⟩ := steps_of_viable hviable
    rw [steps_append_of_eq hsteps] at hs'
    match left with
    | [] =>
      rw [List.append_nil] at hk
      omega
    | l :: left =>
      rw [List.take_succ_cons, List.map_cons, steps, hstop l left rfl] at hs'
      exact absurd hs' (by simp)

/-! ## What the tokens say about the state -/

/-- After a token an operand must come unless it ends one, and a parenthesis more or less is
    open. -/
theorem isAwaiting_and_count_of_step {s s' : State} {t : Token} (h : step s t = some s') :
    s'.isAwaiting = !t.endsOperand ∧
      s.outer.length + [t].count .lparen = s'.outer.length + [t].count .rparen := by
  cases takes_of_step h with
  | neg => exact ⟨rfl, rfl⟩
  | lparen => exact ⟨rfl, rfl⟩
  | const b => exact ⟨rfl, rfl⟩
  | var x => exact ⟨rfl, rfl⟩
  | op op => exact ⟨rfl, rfl⟩
  | rparen => exact ⟨rfl, rfl⟩

end Parser

/-- After these tokens an operand must come: there are none, or the last one ends no operand. -/
def awaitsOperand (ts : List Token) : Bool :=
  match ts.getLast? with
  | none => true
  | some t => !t.endsOperand

namespace Parser

theorem isAwaiting_of_steps {ts : List Token} {s : State} (h : steps start ts = some s) :
    s.isAwaiting = awaitsOperand ts := by
  unfold awaitsOperand
  rcases List.eq_nil_or_concat ts with rfl | ⟨us, t, rfl⟩
  · rw [← Option.some.inj h]
    rfl
  · rw [List.concat_eq_append, steps_append] at h
    obtain ⟨s₁, -, hlast⟩ := Option.bind_eq_some_iff.mp h
    obtain ⟨s₂, hstep, hs₂⟩ := Option.bind_eq_some_iff.mp hlast
    rw [List.concat_eq_append, List.getLast?_concat, ← Option.some.inj hs₂]
    exact (isAwaiting_and_count_of_step hstep).1

/-- The open parentheses are those that have not been closed. -/
theorem count_lparen_of_steps {ts : List Token} {s s' : State} (h : steps s ts = some s') :
    s.outer.length + ts.count .lparen = s'.outer.length + ts.count .rparen := by
  induction ts generalizing s with
  | nil => rw [← Option.some.inj h]; rfl
  | cons t ts ih =>
    obtain ⟨s₁, hstep, hsteps⟩ := Option.bind_eq_some_iff.mp h
    have hone := (isAwaiting_and_count_of_step hstep).2
    have hrest := ih hsteps
    rw [← List.singleton_append, List.count_append, List.count_append]
    omega

end Parser

/-! ## The diagnosis -/

/-- What is wrong with lexemes of which some formula starts with `read`, but none with more. -/
def diagnosis (read left : List Lexeme) : ParseError :=
  let ts := read.map Lexeme.token
  match left with
  | [] => if awaitsOperand ts then .unexpectedEnd else .missingClosingParenthesis
  | l :: _ =>
    if awaitsOperand ts then .unexpectedToken l.text
    else if ts.count .rparen < ts.count .lparen then .missingClosingParenthesis
    else .trailingTokens (left.map Lexeme.text)

theorem Parser.outcome_eq_diagnosis {s : State} {read : List Lexeme}
    (h : steps start (read.map Lexeme.token) = some s) (left : List Lexeme) :
    outcome (s, left) = .error (diagnosis read left) ∨ ∃ e, outcome (s, left) = .ok e := by
  have hawaits := isAwaiting_of_steps h
  have hcount : (read.map Lexeme.token).count .lparen =
      s.outer.length + (read.map Lexeme.token).count .rparen := by
    have hall := count_lparen_of_steps h
    rw [← hall]
    exact (Nat.zero_add _).symm
  simp only [diagnosis, ← hawaits, hcount]
  match s, left with
  | .awaiting _ _, [] => exact .inl rfl
  | .awaiting _ _, _ :: _ => exact .inl rfl
  | .complete _ _ (_ :: _), [] => exact .inl rfl
  | .complete _ _ (_ :: _), _ :: _ => simp [outcome, State.isAwaiting, State.outer]
  | .complete _ _ [], _ :: _ => simp [outcome, State.isAwaiting, State.outer]
  | .complete l e [], [] => exact .inr ⟨l.whole e, rfl⟩

namespace Formula

/-- A text without unknown characters that is no formula is reported by the place where its tokens
    stop being the start of some formula. Tokens that are left over a whole formula are listed with
    one blank between two of them. -/
theorem parse_error_of_longest_viable {text : String} {ls : List Lexeme}
    (hls : Lexeme.ofChars text.toList = .ok ls)
    (hno : ¬ ∃ e, Derives .implication (ls.map Lexeme.token) e) :
    ∃ k, IsGreatest {k | k ≤ ls.length ∧ Viable ((ls.take k).map Lexeme.token)} k ∧
      parse text = .error (diagnosis (ls.take k) (ls.drop k)) ∧
      (ParseError.trailingTokens ((ls.drop k).map Lexeme.text)).message =
        "unexpected tokens after expression: " ++ " ".intercalate ((ls.drop k).map Lexeme.text) := by
  have hnames : ∀ x, .var x ∈ ls.map Lexeme.token → Name.Valid x :=
    fun x => (Lexeme.lexed_iff.mpr ⟨ls, hls, rfl⟩).valid_of_mem
  have hparse : parse text = Parser.outcome (Parser.run Parser.start ls) :=
    parse_of_ofChars hls
  rcases hrun : Parser.run Parser.start ls with ⟨s, left⟩
  obtain ⟨read, rfl, hsteps, hstop⟩ := Parser.run_stops hrun
  refine ⟨read.length, Parser.isGreatest_of_run hnames hsteps hstop, ?_, rfl⟩
  rw [List.take_left, List.drop_left, hparse, hrun]
  rcases Parser.outcome_eq_diagnosis hsteps left with herror | ⟨e, he⟩
  · exact herror
  · refine absurd ⟨e, ?_⟩ hno
    rw [← ofLexemes_eq_ok_iff, ofLexemes, hrun, he]

/-- The lexemes of `(a ∧ b) c ∨`. -/
def twoOperands : List Lexeme :=
  [⟨.lparen, ['('], 0⟩, ⟨.var "a", ['a'], 1⟩, ⟨.op .and, ['∧'], 3⟩, ⟨.var "b", ['b'], 7⟩,
    ⟨.rparen, [')'], 8⟩, ⟨.var "c", ['c'], 10⟩, ⟨.op .or, ['∨'], 12⟩]

theorem parse_error_twoOperands :
    Lexeme.ofChars "(a ∧ b) c ∨".toList = .ok twoOperands ∧
    (¬ ∃ e, Derives .implication (twoOperands.map Lexeme.token) e) ∧
    ∃ k, IsGreatest {k | k ≤ 7 ∧ Viable ((twoOperands.take k).map Lexeme.token)} k ∧
      diagnosis (twoOperands.take k) (twoOperands.drop k) = .trailingTokens ["c", "∨"] := by
  have hls : Lexeme.ofChars "(a ∧ b) c ∨".toList = .ok twoOperands := by rfl
  have hno : ¬ ∃ e, Derives .implication (twoOperands.map Lexeme.token) e := by
    rintro ⟨e, he⟩
    have hok := (ofLexemes_eq_ok_iff twoOperands e).mpr he
    have herror : ofLexemes twoOperands = .error (.trailingTokens ["c", "∨"]) := by rfl
    rw [herror] at hok
    exact absurd hok (by simp)
  obtain ⟨k, hk, hparse, -⟩ := parse_error_of_longest_viable hls hno
  refine ⟨hls, hno, k, hk, ?_⟩
  have hread : parse "(a ∧ b) c ∨" = .error (.trailingTokens ["c", "∨"]) := by rfl
  exact Except.error.inj (hparse.symm.trans hread)

end Formula

end PropCalc
