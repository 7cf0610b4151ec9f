/-
  How tokens are spelled, and that the reader of one token takes the longest spelling.

  `Spells w t` lists the spellings of each token. Only words can go on: a spelling is the
  longest one at its place exactly if, should it be a word, the text after it does not go on
  with a character of a word (`longest_iff`). `Token.read?` gives such a spelling
  (`spells_of_read?`) and finds every one (`read?_of_spells`).
-/
import PropCalc.Parsing.Token

namespace PropCalc

namespace Name

/-- An ASCII or Greek letter, then ASCII letters, digits and Greek letters. -/
def IsWord (cs : List Char) : Prop :=
  ∃ c tail, cs = c :: tail ∧ starts c = true ∧ ∀ d ∈ tail, continues d = true

/-- A question mark and one small ASCII letter. -/
def IsMark (cs : List Char) : Prop := ∃ c, cs = ['?', c] ∧ c.isLower = true

/-- A word that is no constant, or a mark. -/
def IsName (cs : List Char) : Prop :=
  (IsWord cs ∧ cs ≠ ['t', 'r', 'u', 'e'] ∧ cs ≠ ['f', 'a', 'l', 's', 'e']) ∨ IsMark cs

/-- A name that a formula text can hold. -/
def Valid (x : String) : Prop := IsName x.toList

/-- The text does not go on with a character of a word. -/
def Ended (rest : List Char) : Prop := ∀ d, rest.head? = some d → continues d = false

/-- Being a word can be checked, character by character. -/
theorem isWord_cons_iff {c : Char} {tail : List Char} :
    IsWord (c :: tail) ↔ starts c = true ∧ tail.all continues = true := by
  rw [List.all_eq_true]
  constructor
  · rintro ⟨c', tail', heq, hc, htail⟩
    cases heq
    exact ⟨hc, htail⟩
  · rintro ⟨hc, htail⟩
    exact ⟨c, tail, rfl, hc, htail⟩

theorem not_isWord_of_not_starts {c : Char} {tail : List Char} (hc : ¬ starts c = true) :
    ¬ IsWord (c :: tail) := by
  intro hw
  exact hc (isWord_cons_iff.mp hw).1

theorem isWord_snoc {w : List Char} {d : Char} (hw : IsWord w) (hd : continues d = true) :
    IsWord (w ++ [d]) := by
  obtain ⟨c, tail, rfl, hc, htail⟩ := hw
  refine ⟨c, tail ++ [d], rfl, hc, fun e he => ?_⟩
  rcases List.mem_append.mp he with he | he
  · exact htail e he
  · rw [List.mem_singleton.mp he]
    exact hd

/-- What a word starts with is a word, and goes on with characters of a word. -/
theorem isWord_append {w more : List Char} (h : IsWord (w ++ more)) (hw : w ≠ []) :
    IsWord w ∧ ∀ d ∈ more, continues d = true := by
  obtain ⟨c, tail, heq, hc, htail⟩ := h
  match w with
  | [] => exact absurd rfl hw
  | _ :: front =>
    cases heq
    exact ⟨⟨c, front, rfl, hc, fun d hd => htail d (List.mem_append_left _ hd)⟩,
      fun d hd => htail d (List.mem_append_right _ hd)⟩

theorem ended_cons {c : Char} {cs : List Char} (h : continues c = false) : Ended (c :: cs) := by
  intro d hd
  cases hd
  exact h

theorem takeWhile_continues {tail rest : List Char} (htail : ∀ d ∈ tail, continues d = true)
    (hrest : Ended rest) : (tail ++ rest).takeWhile continues = tail := by
  rw [List.takeWhile_append_of_pos htail]
  cases rest with
  | nil => simp
  | cons d rest => simp [hrest d rfl]

theorem ended_dropWhile (cs : List Char) : Ended (cs.dropWhile continues) := by
  intro d hd
  have h := List.head?_dropWhile_not continues cs
  rw [hd] at h
  simpa using h

end Name

namespace Token

open Name (IsWord IsMark IsName Ended)

/-- The spellings of the tokens. -/
inductive Spells : List Char → Token → Prop
  | notSign : Spells ['¬'] .neg
  | notAscii : Spells ['!'] .neg
  | andSign : Spells ['∧'] (.op .and)
  | andAscii : Spells ['/', '\\'] (.op .and)
  | orSign : Spells ['∨'] (.op .or)
  | orAscii : Spells ['\\', '/'] (.op .or)
  | impliesSign : Spells ['→'] (.op .implies)
  | impliesAscii : Spells ['-', '>'] (.op .implies)
  | lparen : Spells ['('] .lparen
  | rparen : Spells [')'] .rparen
  | top : Spells ['⊤'] (.const true)
  | trueWord : Spells ['t', 'r', 'u', 'e'] (.const true)
  | bottom : Spells ['⊥'] (.const false)
  | falseWord : Spells ['f', 'a', 'l', 's', 'e'] (.const false)
  | name {w} : IsName w → Spells w (.var (String.ofList w))

/-- Of all spellings that `w ++ rest` starts with, none is longer than `w`. -/
def Longest (w rest : List Char) : Prop :=
  ∀ w' t', Spells w' t' → w' <+: w ++ rest → w'.length ≤ w.length

/-! ## Words -/

theorem spells_ofWord {w : List Char} (hw : IsWord w) : Spells w (ofWord w) := by
  unfold ofWord
  split
  · next h =>
    subst h
    exact .trueWord
  · next ht =>
    split
    · next h =>
      subst h
      exact .falseWord
    · next hf => exact .name (.inl ⟨hw, ht, hf⟩)

theorem ne_nil_of_spells {w : List Char} {t : Token} (h : Spells w t) : w ≠ [] := by
  cases h with
  | name hn =>
    rcases hn with ⟨⟨_, _, rfl, -⟩, -⟩ | ⟨_, rfl, -⟩ <;> simp
  | _ => simp

/-! ## The reader finds every longest spelling -/

theorem read?_word {w rest : List Char} (hw : IsWord w) (hrest : Ended rest) :
    read? (w ++ rest) = some (ofWord w, w.length) := by
  obtain ⟨c, tail, rfl, hc, htail⟩ := hw
  simp only [List.cons_append, read?, if_pos hc, Name.takeWhile_continues htail hrest]

theorem ofWord_name {w : List Char} (ht : w ≠ ['t', 'r', 'u', 'e'])
    (hf : w ≠ ['f', 'a', 'l', 's', 'e']) : ofWord w = .var (String.ofList w) := by
  unfold ofWord
  rw [if_neg ht, if_neg hf]

theorem read?_mark {c : Char} (hc : c.isLower = true) (rest : List Char) :
    read? ('?' :: c :: rest) = some (.var (String.ofList ['?', c]), 2) := by
  have hpair : ofPair? '?' c = some (.var (String.ofList ['?', c])) := by
    simp [ofPair?, hc]
  have hstarts : Name.starts '?' = false := by decide
  have hsign : ofSign? '?' = none := by decide
  simp [read?, hstarts, hsign, hpair]

theorem read?_of_spells {w rest : List Char} {t : Token} (h : Spells w t)
    (hrest : IsWord w → Ended rest) : read? (w ++ rest) = some (t, w.length) := by
  cases h with
  | trueWord =>
    have hw : IsWord ['t', 'r', 'u', 'e'] := Name.isWord_cons_iff.mpr (by decide)
    exact read?_word hw (hrest hw)
  | falseWord =>
    have hw : IsWord ['f', 'a', 'l', 's', 'e'] := Name.isWord_cons_iff.mpr (by decide)
    exact read?_word hw (hrest hw)
  | name hn =>
    rcases hn with ⟨hw, ht, hf⟩ | ⟨c, rfl, hc⟩
    · rw [read?_word hw (hrest hw), ofWord_name ht hf]
    · exact read?_mark hc rest
  | _ => rfl

/-! ## What the reader gives is spelled so -/

theorem spells_of_ofSign? {c : Char} {t : Token} (h : ofSign? c = some t) : Spells [c] t := by
  unfold ofSign? at h
  repeat' split at h
  · next hc => rw [hc, ← Option.some.inj h]; exact .andSign
  · next hc => rw [hc, ← Option.some.inj h]; exact .orSign
  · next hc => rw [hc, ← Option.some.inj h]; exact .impliesSign
  · next hc =>
    rw [← Option.some.inj h]
    rcases hc with rfl | rfl
    · exact .notSign
    · exact .notAscii
  · next hc => rw [hc, ← Option.some.inj h]; exact .lparen
  · next hc => rw [hc, ← Option.some.inj h]; exact .rparen
  · next hc => rw [hc, ← Option.some.inj h]; exact .top
  · next hc => rw [hc, ← Option.some.inj h]; exact .bottom
  · exact absurd h (by simp)

theorem spells_of_ofPair? {c d : Char} {t : Token} (h : ofPair? c d = some t) :
    Spells [c, d] t := by
  unfold ofPair? at h
  repeat' split at h
  · next hc => rw [hc.1, hc.2, ← Option.some.inj h]; exact .andAscii
  · next hc => rw [hc.1, hc.2, ← Option.some.inj h]; exact .orAscii
  · next hc => rw [hc.1, hc.2, ← Option.some.inj h]; exact .impliesAscii
  · next hc =>
    have hmark : IsMark ['?', d] := ⟨d, rfl, hc.2⟩
    rw [← Option.some.inj h, hc.1]
    exact .name (.inr hmark)
  · exact absurd h (by simp)

theorem spells_of_read? {cs : List Char} {t : Token} {n : Nat} (h : read? cs = some (t, n)) :
    ∃ w rest, cs = w ++ rest ∧ w.length = n ∧ Spells w t ∧ (IsWord w → Ended rest) := by
  cases cs with
  | nil => exact absurd h (by simp [read?])
  | cons c cs =>
    simp only [read?] at h
    split at h
    · next hc =>
      have hw : IsWord (c :: cs.takeWhile Name.continues) :=
        Name.isWord_cons_iff.mpr ⟨hc, List.all_takeWhile⟩
      obtain ⟨rfl, rfl⟩ := Prod.mk.inj (Option.some.inj h)
      refine ⟨_, cs.dropWhile Name.continues, ?_, rfl, spells_ofWord hw, ?_⟩
      · rw [List.cons_append, List.takeWhile_append_dropWhile]
      · intro _
        exact Name.ended_dropWhile cs
    · next hc =>
      have hno : ∀ tail, ¬ IsWord (c :: tail) := fun tail => Name.not_isWord_of_not_starts hc
      split at h
      · next hs =>
        obtain ⟨rfl, rfl⟩ := Prod.mk.inj (Option.some.inj h)
        refine ⟨[c], cs, rfl, rfl, spells_of_ofSign? hs, ?_⟩
        intro hw
        exact absurd hw (hno [])
      · obtain ⟨d, hd, h⟩ := Option.bind_eq_some_iff.mp h
        obtain ⟨t', ht', h⟩ := Option.map_eq_some_iff.mp h
        obtain ⟨rfl, rfl⟩ := Prod.mk.inj h
        obtain ⟨rest, rfl⟩ := List.head?_eq_some_iff.mp hd
        refine ⟨[c, d], rest, rfl, rfl, spells_of_ofPair? ht', ?_⟩
        intro hw
        exact absurd hw (hno [d])

/-! ## Longest spellings -/

/-- Only a word can be cut short, and it is where the text goes on with its characters. -/
theorem longest_iff {w rest : List Char} {t : Token} (h : Spells w t) :
    Longest w rest ↔ (IsWord w → Ended rest) := by
  constructor
  · intro hlong hw d hd
    obtain ⟨rest', rfl⟩ := List.head?_eq_some_iff.mp hd
    cases hcont : Name.continues d with
    | false => rfl
    | true =>
      have hprefix : w ++ [d] <+: w ++ d :: rest' := ⟨rest', by simp⟩
      have hle := hlong _ _ (spells_ofWord (Name.isWord_snoc hw hcont)) hprefix
      rw [List.length_append, List.length_singleton] at hle
      omega
  · rintro hended w' t' h' ⟨rest', heq⟩
    by_cases hw' : IsWord w'
    · rcases List.append_eq_append_iff.mp heq with ⟨more, rfl, -⟩ | ⟨more, rfl, rfl⟩
      · simp
      · obtain ⟨hw, hmore⟩ := Name.isWord_append hw' (ne_nil_of_spells h)
        match more with
        | [] => simp
        | d :: more =>
          have hno : Name.continues d = false := hended hw d rfl
          have hyes : Name.continues d = true := hmore d List.mem_cons_self
          rw [hno] at hyes
          exact absurd hyes (by simp)
    · have hread := read?_of_spells h hended
      rw [← heq, read?_of_spells h' fun hw => absurd hw hw'] at hread
      have hlength : w'.length = w.length := congrArg Prod.snd (Option.some.inj hread)
      exact Nat.le_of_eq hlength

end Token

end PropCalc
