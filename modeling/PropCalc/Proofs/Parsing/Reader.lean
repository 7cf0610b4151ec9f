/-
  The token reader reads exactly the phrases of the grammar.

  `takes_of_step` says once what each token does to the reader. Completeness (`reads_of_derives`):
  from any place where a phrase may stand, the reader takes all its tokens and has then read its
  formula; what waited before the phrase still waits. Soundness (`tracks_steps`): what the reader
  remembers after any tokens is what a derivation of them would have found.
  `ofLexemes_eq_ok_iff` puts the two together.
-/
import PropCalc.Parsing.Parser
import PropCalc.Proofs.Parsing.Grammar

namespace PropCalc

theorem Formula.negated_neg (n : Nat) (e : Formula) : negated n (neg e) = neg (negated n e) := by
  induction n with
  | zero => rfl
  | succ n ih => rw [negated, ih, negated]

namespace Parser

open Formula (joined negated)

/-! ## One token -/

/-- What each token does to a state where it fits. -/
inductive Takes : State → Token → State → Prop
  | neg {l outer} :
    Takes (.awaiting l outer) .neg (.awaiting { l with negations := l.negations + 1 } outer)
  | lparen {l outer} : Takes (.awaiting l outer) .lparen (.awaiting .fresh (l :: outer))
  | const {l outer} (b) :
    Takes (.awaiting l outer) (.const b) (.complete l (l.factor (.const b)) outer)
  | var {l outer} (x) : Takes (.awaiting l outer) (.var x) (.complete l (l.factor (.var x)) outer)
  | op {l e outer} (op) : Takes (.complete l e outer) (.op op) (.awaiting (l.continued e op) outer)
  | rparen {l e m outer} :
    Takes (.complete l e (m :: outer)) .rparen (.complete m (m.factor (l.whole e)) outer)

theorem takes_of_step {s s' : State} {t : Token} (h : step s t = some s') : Takes s t s' := by
  unfold step at h
  split at h
  · rw [← Option.some.inj h]; exact .neg
  · rw [← Option.some.inj h]; exact .lparen
  · rw [← Option.some.inj h]; exact .const _
  · rw [← Option.some.inj h]; exact .var _
  · rw [← Option.some.inj h]; exact .op _
  · rw [← Option.some.inj h]; exact .rparen
  · exact absurd h (by simp)

/-! ## Runs over tokens -/

/-- The state after tokens, or `none` if one of them does not fit. -/
def steps : State → List Token → Option State
  | s, [] => some s
  | s, t :: ts => (step s t).bind fun s' => steps s' ts

theorem steps_append (s : State) (ts us : List Token) :
    steps s (ts ++ us) = (steps s ts).bind fun s' => steps s' us := by
  induction ts generalizing s with
  | nil => rfl
  | cons t ts ih =>
    simp only [List.cons_append, steps, ih, Option.bind_assoc]

theorem steps_append_of_eq {s s' : State} {ts us : List Token} (h : steps s ts = some s') :
    steps s (ts ++ us) = steps s' us := by
  rw [steps_append, h, Option.bind_some]

/-- The reader takes all lexemes exactly if all their tokens fit. -/
theorem run_eq_nil_iff (s s' : State) (ls : List Lexeme) :
    run s ls = (s', []) ↔ steps s (ls.map Lexeme.token) = some s' := by
  induction ls generalizing s with
  | nil => simp [run, steps]
  | cons l ls ih =>
    rw [run, List.map_cons, steps]
    cases step s l.token with
    | none => simp
    | some s₁ => exact ih s₁

/-- The only outcome that is a formula: everything has been read, and no parenthesis is open. -/
theorem outcome_eq_ok_iff (r : State × List Lexeme) (e : Formula) :
    outcome r = .ok e ↔ ∃ l f, r = (.complete l f [], []) ∧ l.whole f = e := by
  obtain ⟨s, left⟩ := r
  match s, left with
  | .awaiting _ _, [] => simp [outcome]
  | .awaiting _ _, _ :: _ => simp [outcome]
  | .complete _ _ (_ :: _), _ => simp [outcome]
  | .complete _ _ [], _ :: _ => simp [outcome]
  | .complete l f [], [] =>
    constructor
    · intro h
      exact ⟨l, f, rfl, Except.ok.inj h⟩
    · rintro ⟨_, _, heq, rfl⟩
      cases heq
      rfl

/-! ## Levels -/

namespace Level

/-- The level where an operand of the connective must come, and `left` waits for it. -/
def waiting (l : Level) (left : Option Formula) : Connective → Level
  | .and => ⟨l.implying, l.disjunct, left, 0⟩
  | .or => ⟨l.implying, left, none, 0⟩
  | .implies => ⟨left, none, none, 0⟩

/-- The chain of the connective that ends with the factor `e`. -/
def chain (l : Level) (e : Formula) : Connective → Formula
  | .and => e
  | .or => l.term e
  | .implies => l.whole e

/-- The same waits in both levels for what contains the chain of the connective. -/
def SameAbove (op : Connective) (l m : Level) : Prop :=
  ∀ left, l.waiting left op = m.waiting left op

theorem continued_eq (l : Level) (e : Formula) (op : Connective) :
    l.continued e op = l.waiting (some (l.chain e op)) op := by
  cases op <;> rfl

end Level

open Level (SameAbove)

/-! ## Completeness -/

/-- Whatever waits for it, the tokens are read as a primary. -/
def ReadsPrimary (ts : List Token) (e : Formula) : Prop :=
  ∀ l outer, ∃ k, steps (.awaiting l outer) ts =
    some (.complete { l with negations := k } (l.factor e) outer)

/-- The tokens are read as an operand of the connective, and joined to what waits for it. -/
def ReadsOperand (op : Connective) (ts : List Token) (e : Formula) : Prop :=
  ∀ l left outer, ∃ l' f, steps (.awaiting (l.waiting left op) outer) ts =
    some (.complete l' f outer) ∧ SameAbove op l' l ∧ l'.chain f op = joined op left e

/-- Where no operand of the connective waits, the tokens are read as a chain of it. -/
def ReadsChain (op : Connective) (ts : List Token) (e : Formula) : Prop :=
  ∀ l outer, ∃ l' f, steps (.awaiting (l.waiting none op) outer) ts =
    some (.complete l' f outer) ∧ SameAbove op l' l ∧ l'.chain f op = e

def Reads : Nonterminal → List Token → Formula → Prop
  | .chain op, ts, e => ReadsChain op ts e
  | .primary, ts, e => ReadsPrimary ts e

/-- A chain that binds more tightly is an operand: it is read where nothing of its own
    connective waits yet. -/
theorem readsOperand_of_reads {op : Connective} {ts : List Token} {e : Formula}
    (h : Reads op.operand ts e) : ReadsOperand op ts e := by
  intro l left outer
  cases op with
  | and =>
    obtain ⟨k, hk⟩ := h (l.waiting left .and) outer
    exact ⟨_, _, hk, fun _ => rfl, rfl⟩
  | or =>
    obtain ⟨l', f, hsteps, hsame, hf⟩ := h (l.waiting left .or) outer
    have heq := hsame none
    simp only [Level.waiting, Level.mk.injEq, and_true] at heq
    refine ⟨l', f, hsteps, fun left' => ?_, ?_⟩
    · simp only [Level.waiting, heq.1]
    · have hfactor : f = e := hf
      simp only [Level.chain, Level.term, heq.2, hfactor]
  | implies =>
    obtain ⟨l', f, hsteps, hsame, hf⟩ := h (l.waiting left .implies) outer
    have heq := hsame none
    simp only [Level.waiting, Level.mk.injEq, and_true] at heq
    have hterm : l'.term f = e := hf
    refine ⟨l', f, hsteps, fun _ => rfl, ?_⟩
    simp only [Level.chain, Level.whole, heq, hterm]

/-- After the first operand of a chain the further ones are folded to it from the left. -/
theorem reads_tailTokens {op : Connective} (rest : List (List Token × Formula))
    (hrest : ∀ a ∈ rest, ReadsOperand op a.1 a.2) (l : Level) (f : Formula)
    (outer : List Level) :
    ∃ l' f', steps (.complete l f outer) (tailTokens op (rest.map (·.1))) =
        some (.complete l' f' outer) ∧ SameAbove op l' l ∧
      l'.chain f' op = rest.foldl (fun left a => .bin op left a.2) (l.chain f op) := by
  induction rest generalizing l f with
  | nil => exact ⟨l, f, rfl, fun _ => rfl, rfl⟩
  | cons a rest ih =>
    obtain ⟨l₁, f₁, hsteps₁, hsame₁, hf₁⟩ :=
      hrest a List.mem_cons_self l (some (l.chain f op)) outer
    obtain ⟨l₂, f₂, hsteps₂, hsame₂, hf₂⟩ :=
      ih (fun b hb => hrest b (List.mem_cons_of_mem _ hb)) l₁ f₁
    refine ⟨l₂, f₂, ?_, fun left => (hsame₂ left).trans (hsame₁ left), ?_⟩
    · rw [List.map_cons, tailTokens, List.flatMap_cons, List.cons_append, steps]
      simp only [step, Option.bind_some, Level.continued_eq]
      rw [steps_append_of_eq hsteps₁]
      exact hsteps₂
    · rw [hf₂, hf₁]
      rfl

theorem reads_of_derives {n : Nonterminal} {ts : List Token} {e : Formula}
    (h : Derives n ts e) : Reads n ts e := by
  induction h with
  | const b => exact fun l outer => ⟨l.negations, rfl⟩
  | var x => exact fun l outer => ⟨l.negations, rfl⟩
  | @neg ts e _ ih =>
    intro l outer
    obtain ⟨k, hk⟩ := ih { l with negations := l.negations + 1 } outer
    refine ⟨k, ?_⟩
    have hfactor : l.factor e.neg = Level.factor { l with negations := l.negations + 1 } e := by
      simp only [Level.factor, Formula.negated_neg]
      rfl
    rw [hfactor]
    exact hk
  | @group ts e _ ih =>
    intro l outer
    obtain ⟨l', f, hsteps, -, hf⟩ := ih .fresh (l :: outer)
    refine ⟨l.negations, ?_⟩
    show steps (.awaiting (Level.fresh.waiting none .implies) (l :: outer)) (ts ++ [.rparen]) = _
    rw [steps_append_of_eq hsteps, ← hf]
    rfl
  | @chain op ts e rest _ _ ih ihrest =>
    intro l outer
    obtain ⟨l₁, f₁, hsteps₁, hsame₁, hf₁⟩ := readsOperand_of_reads ih l none outer
    obtain ⟨l₂, f₂, hsteps₂, hsame₂, hf₂⟩ :=
      reads_tailTokens rest (fun a ha => readsOperand_of_reads (ihrest a ha)) l₁ f₁ outer
    refine ⟨l₂, f₂, ?_, fun left => (hsame₂ left).trans (hsame₁ left), ?_⟩
    · rw [steps_append_of_eq hsteps₁]
      exact hsteps₂
    · rw [hf₂, hf₁]
      rfl

/-- A whole implication is read from the start. -/
theorem steps_of_derives {ts : List Token} {e : Formula} (h : Derives .implication ts e) :
    ∃ l f, steps start ts = some (.complete l f []) ∧ l.whole f = e := by
  obtain ⟨l, f, hsteps, -, hf⟩ := reads_of_derives h .fresh []
  exact ⟨l, f, hsteps, hf⟩

/-! ## Soundness -/

/-- The tokens of what waits at a connective: nothing, or a chain of it and the connective. -/
def Pending (op : Connective) : Option Formula → List Token → Prop
  | none, ts => ts = []
  | some e, ts => ∃ us, ts = us ++ [.op op] ∧ Derives (.chain op) us e

theorem Pending.join (op : Connective) {left : Option Formula} {ts us : List Token} {e : Formula}
    (h : Pending op left ts) (he : Derives op.operand us e) :
    Derives (.chain op) (ts ++ us) (joined op left e) := by
  cases left with
  | none =>
    have hnil : ts = [] := h
    rw [hnil, List.nil_append]
    exact .single op he
  | some f =>
    obtain ⟨vs, rfl, hf⟩ := h
    rw [List.append_assoc]
    exact hf.snoc he

theorem derives_negated {ts : List Token} {e : Formula} (n : Nat) (h : Derives .primary ts e) :
    Derives .primary (List.replicate n .neg ++ ts) (negated n e) := by
  induction n with
  | zero => exact h
  | succ n ih =>
    rw [List.replicate_succ, List.cons_append]
    exact .neg ih

namespace Level

/-- The tokens of what waits for the factor that is being read. -/
def Before (l : Level) (ts : List Token) : Prop :=
  ∃ us vs, ts = us ++ vs ∧ Pending .implies l.implying us ∧ Pending .or l.disjunct vs

/-- The tokens since the parenthesis that was opened last, where an operand must come. -/
def Tracks (l : Level) (ts : List Token) : Prop :=
  ∃ us vs, ts = us ++ (vs ++ List.replicate l.negations .neg) ∧ l.Before us ∧
    Pending .and l.conjunct vs

theorem tracks_fresh : fresh.Tracks [] :=
  ⟨[], [], rfl, ⟨[], [], rfl, rfl, rfl⟩, rfl⟩

theorem Tracks.negate {l : Level} {ts : List Token} (h : l.Tracks ts) :
    Tracks { l with negations := l.negations + 1 } (ts ++ [.neg]) := by
  obtain ⟨us, vs, rfl, hus, hvs⟩ := h
  refine ⟨us, vs, ?_, hus, hvs⟩
  simp [List.replicate_succ']

/-- An operand completes the factor. -/
theorem Tracks.factor {l : Level} {ts us : List Token} {e : Formula} (h : l.Tracks ts)
    (he : Derives .primary us e) :
    ∃ vs ws, ts ++ us = vs ++ ws ∧ l.Before vs ∧ Derives .factor ws (l.factor e) := by
  obtain ⟨vs, ws, rfl, hvs, hws⟩ := h
  have hoperand := derives_negated l.negations he
  refine ⟨vs, _, ?_, hvs, hws.join .and hoperand⟩
  simp only [List.append_assoc]

/-- A factor completes the whole implication. -/
theorem Before.whole {l : Level} {ts us : List Token} {e : Formula} (h : l.Before ts)
    (he : Derives .factor us e) : Derives .implication (ts ++ us) (l.whole e) := by
  obtain ⟨vs, ws, rfl, hvs, hws⟩ := h
  have hterm : Derives .term (ws ++ us) (l.term e) := hws.join .or he
  rw [List.append_assoc]
  exact hvs.join .implies hterm

/-- After a factor and a connective, the chain that ends with the factor waits. -/
theorem Before.continued {l : Level} {ts us : List Token} {e : Formula} (h : l.Before ts)
    (he : Derives .factor us e) (op : Connective) :
    (l.continued e op).Tracks (ts ++ us ++ [.op op]) := by
  cases op with
  | and =>
    have hwaits : Pending .and (some e) (us ++ [.op .and]) := ⟨us, rfl, he⟩
    refine ⟨ts, _, ?_, h, hwaits⟩
    simp [Level.continued]
  | or =>
    obtain ⟨vs, ws, rfl, hvs, hws⟩ := h
    have hterm : Derives .term (ws ++ us) (l.term e) := hws.join .or he
    have hwaits : Pending .or (some (l.term e)) (ws ++ us ++ [.op .or]) := ⟨_, rfl, hterm⟩
    refine ⟨_, [], ?_, ⟨vs, _, rfl, hvs, hwaits⟩, rfl⟩
    simp [Level.continued]
  | implies =>
    have hwaits : Pending .implies (some (l.whole e)) (ts ++ us ++ [.op .implies]) :=
      ⟨_, rfl, h.whole he⟩
    have hbefore : Before ⟨some (l.whole e), none, none, 0⟩ (ts ++ us ++ [.op .implies]) :=
      ⟨_, [], (List.append_nil _).symm, hwaits, rfl⟩
    refine ⟨_, [], ?_, hbefore, rfl⟩
    simp [Level.continued]

end Level

/-- The tokens up to the parenthesis that was opened last. -/
def Enclosing : List Level → List Token → Prop
  | [], ts => ts = []
  | l :: outer, ts => ∃ us vs, ts = us ++ (vs ++ [.lparen]) ∧ Enclosing outer us ∧ l.Tracks vs

/-- The tokens that lead to a state: what the state holds is what they derive. -/
def Tracks : State → List Token → Prop
  | .awaiting l outer, ts => ∃ us vs, ts = us ++ vs ∧ Enclosing outer us ∧ l.Tracks vs
  | .complete l e outer, ts =>
    ∃ us vs ws, ts = us ++ (vs ++ ws) ∧ Enclosing outer us ∧ l.Before vs ∧ Derives .factor ws e

theorem tracks_start : Tracks start [] := ⟨[], [], rfl, rfl, Level.tracks_fresh⟩

/-- An operand is read: a leaf, or a group that ends. -/
theorem tracks_operand {l : Level} {outer : List Level} {ts us vs : List Token} {e : Formula}
    (houter : Enclosing outer ts) (hl : l.Tracks us) (he : Derives .primary vs e) :
    Tracks (.complete l (l.factor e) outer) (ts ++ (us ++ vs)) := by
  obtain ⟨as, bs, heq, has, hbs⟩ := hl.factor he
  rw [heq]
  exact ⟨ts, as, bs, rfl, houter, has, hbs⟩

theorem tracks_step {s s' : State} {t : Token} {ts : List Token} (h : Tracks s ts)
    (hs : step s t = some s') : Tracks s' (ts ++ [t]) := by
  cases takes_of_step hs with
  | neg =>
    obtain ⟨us, vs, rfl, hus, hvs⟩ := h
    rw [List.append_assoc]
    exact ⟨us, vs ++ [.neg], rfl, hus, hvs.negate⟩
  | @lparen l outer =>
    obtain ⟨us, vs, rfl, hus, hvs⟩ := h
    have hopen : Enclosing (l :: outer) (us ++ (vs ++ [.lparen])) := ⟨us, vs, rfl, hus, hvs⟩
    rw [List.append_assoc]
    exact ⟨_, [], (List.append_nil _).symm, hopen, Level.tracks_fresh⟩
  | const b =>
    obtain ⟨us, vs, rfl, hus, hvs⟩ := h
    rw [List.append_assoc]
    exact tracks_operand hus hvs (.const b)
  | var x =>
    obtain ⟨us, vs, rfl, hus, hvs⟩ := h
    rw [List.append_assoc]
    exact tracks_operand hus hvs (.var x)
  | @op l e outer op =>
    obtain ⟨us, vs, ws, rfl, hus, hvs, hws⟩ := h
    have hnext : (l.continued e op).Tracks (vs ++ ws ++ [.op op]) := hvs.continued hws op
    rw [List.append_assoc]
    exact ⟨us, _, rfl, hus, hnext⟩
  | @rparen l e m outer =>
    obtain ⟨_, vs, ws, rfl, ⟨as, bs, rfl, has, hbs⟩, hvs, hws⟩ := h
    have hgroup : Derives .primary (.lparen :: (vs ++ ws ++ [.rparen])) (l.whole e) :=
      .group (hvs.whole hws)
    have htracks := tracks_operand has hbs hgroup
    simpa using htracks

theorem tracks_steps {s s' : State} {us ts : List Token} (h : Tracks s ts)
    (hs : steps s us = some s') : Tracks s' (ts ++ us) := by
  induction us generalizing s ts with
  | nil =>
    rw [List.append_nil, ← Option.some.inj hs]
    exact h
  | cons t us ih =>
    obtain ⟨s₁, hstep, hsteps⟩ := Option.bind_eq_some_iff.mp hs
    have hnext := ih (tracks_step h hstep) hsteps
    rw [List.append_assoc] at hnext
    exact hnext

/-- What has been read from the start with no parenthesis open is an implication. -/
theorem derives_of_steps {ts : List Token} {l : Level} {e : Formula}
    (h : steps start ts = some (.complete l e [])) : Derives .implication ts (l.whole e) := by
  obtain ⟨us, vs, ws, heq, hus, hvs, hws⟩ := tracks_steps tracks_start h
  have hnil : us = [] := hus
  rw [List.nil_append, hnil, List.nil_append] at heq
  rw [heq]
  exact hvs.whole hws

end Parser

/-! ## The two together -/

theorem Formula.ofLexemes_eq_ok_iff (ls : List Lexeme) (e : Formula) :
    ofLexemes ls = .ok e ↔ Derives .implication (ls.map Lexeme.token) e := by
  unfold ofLexemes
  rw [Parser.outcome_eq_ok_iff]
  constructor
  · rintro ⟨l, f, hrun, rfl⟩
    exact Parser.derives_of_steps ((Parser.run_eq_nil_iff _ _ _).mp hrun)
  · intro h
    obtain ⟨l, f, hsteps, hf⟩ := Parser.steps_of_derives h
    exact ⟨l, f, (Parser.run_eq_nil_iff _ _ _).mpr hsteps, hf⟩

/-- Tokens stand for one formula at most, whatever kind of phrase they are taken for: they
    decide what the reader does. -/
theorem Derives.unique {n m : Nonterminal} {ts : List Token} {e e' : Formula}
    (h : Derives n ts e) (h' : Derives m ts e') : e = e' := by
  obtain ⟨l, f, hsteps, rfl⟩ := Parser.steps_of_derives h.implication
  obtain ⟨l', f', hsteps', rfl⟩ := Parser.steps_of_derives h'.implication
  have hstate := Option.some.inj (hsteps.symm.trans hsteps')
  obtain ⟨rfl, rfl, -⟩ := Parser.State.complete.inj hstate
  rfl

end PropCalc
