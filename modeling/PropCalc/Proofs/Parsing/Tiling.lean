/-
  Where the lexemes of a text stand.

  `Tiles start front rest ls` says of the text `front`, which begins at the byte `start` and goes
  on with `rest`, that the lexemes `ls` stand in it one after the other, each spelled at its offset
  as long as can be, and that all else in it is blank. A blank or a lexeme can be put in front of a
  tiling and taken off again (`Tiles.cons_token`, `Tiles.tail_token`), and what is no blank is the
  start of the first lexeme (`Tiles.exists_first`). So each text is tiled up to its end or up to a
  place where no token starts (`exists_tiles`), and the scan ends as any such tiling says
  (`scan_of_tiles`). The lexemes lose nothing of a text, and the character that is reported as
  unknown is the one where they end (`lexing_exact`).
-/
import PropCalc.Parsing.Parser
import PropCalc.Proofs.Parsing.Lexing

namespace PropCalc

open Token (Spells Longest)
open Name (IsWord Ended)

/-- Neither a blank nor a token starts the text. -/
def Stuck (rest : List Char) : Prop :=
  ∀ c tail, rest = c :: tail → Text.isBlank c = false ∧ ∀ w t, Spells w t → ¬ w <+: rest

theorem stuck_nil : Stuck [] := nofun

theorem stuck_cons {c : Char} {tail : List Char} :
    Stuck (c :: tail) ↔ Text.isBlank c = false ∧ ∀ w t, Spells w t → ¬ w <+: c :: tail := by
  constructor
  · intro h
    exact h c tail rfl
  · intro h d tail' heq
    rw [← (List.cons.inj heq).1]
    exact h

theorem Token.read?_eq_none_iff {cs : List Char} :
    read? cs = none ↔ ∀ w t, Spells w t → ¬ w <+: cs := by
  constructor
  · intro hnone w t hw hprefix
    obtain ⟨rest, rfl⟩ := hprefix
    by_cases hword : IsWord w
    · -- a longer word may start there, but then some word does
      obtain ⟨c, tail, rfl, hc, -⟩ := hword
      rw [List.cons_append, read?, if_pos hc] at hnone
      cases hnone
    · rw [read?_of_spells hw fun h => absurd h hword] at hnone
      cases hnone
  · intro hno
    cases hread : read? cs with
    | none => rfl
    | some found =>
      obtain ⟨w, rest, rfl, -, hw, -⟩ := spells_of_read? hread
      exact absurd (List.prefix_append w rest) (hno w found.1 hw)

namespace Lexeme

/-- Of two starts of a text the one with fewer bytes starts the other. -/
theorem exists_append_of_bytes_le {before front after rest : List Char}
    (h : before ++ after = front ++ rest) (hle : bytes front ≤ bytes before) :
    ∃ between, before = front ++ between ∧ rest = between ++ after := by
  rcases List.append_eq_append_iff.mp h with ⟨more, rfl, rfl⟩ | ⟨between, rfl, rfl⟩
  · rw [bytes_append] at hle
    match more with
    | [] => exact ⟨[], by simp, by simp⟩
    | c :: more =>
      have hpos := bytes_pos (List.cons_ne_nil c more)
      omega
  · exact ⟨between, rfl, rfl⟩

/-- The lexemes stand in the text `front`, which begins at the byte `start` and has `rest` after
    it, and nothing else but blanks does. -/
structure Tiles (start : Nat) (front rest : List Char) (ls : List Lexeme) : Prop where
  /-- Each lexeme is the text at its offset, and no longer token starts there. -/
  placed : ∀ l ∈ ls, ∃ before after, front = before ++ l.chars ++ after ∧
    l.offset = start + bytes before ∧ Spells l.chars l.token ∧ Longest l.chars (after ++ rest)
  /-- The offsets increase, and no lexeme reaches into the next one. -/
  ordered : ls.Pairwise fun a b => a.offset < b.offset ∧ a.offset + bytes a.chars ≤ b.offset
  /-- A character that is no blank belongs to a lexeme. -/
  covers : ∀ before c after, front = before ++ c :: after → Text.isBlank c = true ∨
    ∃ l ∈ ls, l.offset ≤ start + bytes before ∧
      start + bytes before < l.offset + bytes l.chars

variable {start : Nat} {front rest : List Char} {ls : List Lexeme}

theorem Tiles.start_le (h : Tiles start front rest ls) {l : Lexeme} (hl : l ∈ ls) :
    start ≤ l.offset := by
  obtain ⟨before, _, -, hoffset, -, -⟩ := h.placed l hl
  omega

theorem Tiles.bytes_pos (h : Tiles start front rest ls) {l : Lexeme} (hl : l ∈ ls) :
    0 < bytes l.chars := by
  obtain ⟨_, _, -, -, hspells, -⟩ := h.placed l hl
  exact Lexeme.bytes_pos (Token.ne_nil_of_spells hspells)

/-! ## Taking something off the front -/

theorem tiles_nil : Tiles start [] rest ls ↔ ls = [] := by
  constructor
  · intro h
    apply List.eq_nil_iff_forall_not_mem.mpr
    intro l hl
    obtain ⟨before, after, hfront, -, hspells, -⟩ := h.placed l hl
    have hpos := List.length_pos_iff.mpr (Token.ne_nil_of_spells hspells)
    have hlength := congrArg List.length hfront
    simp only [List.length_nil, List.length_append] at hlength
    omega
  · intro h
    subst h
    exact ⟨by simp, .nil, by simp⟩

/-- No lexeme starts at a blank. -/
theorem Tiles.tail_blank {c : Char} (hc : Text.isBlank c = true)
    (h : Tiles start (c :: front) rest ls) : Tiles (start + c.utf8Size) front rest ls := by
  refine ⟨fun l hl => ?_, h.ordered, fun before d after hfront => ?_⟩
  · obtain ⟨before, after, hfront, hoffset, hspells, hlong⟩ := h.placed l hl
    match before with
    | [] =>
      match hchars : l.chars with
      | [] => exact absurd hchars (Token.ne_nil_of_spells hspells)
      | d :: w =>
        rw [hchars] at hfront hspells
        have hd := Token.isBlank_of_spells hspells
        rw [← (List.cons.inj hfront).1, hc] at hd
        cases hd
    | d :: before =>
      obtain ⟨rfl, rfl⟩ := List.cons.inj hfront
      rw [bytes_cons] at hoffset
      exact ⟨before, after, rfl, by omega, hspells, hlong⟩
  · subst hfront
    have hcovers := h.covers (c :: before) d after rfl
    rw [bytes_cons, ← Nat.add_assoc] at hcovers
    exact hcovers

theorem Tiles.cons_blank {c : Char} (hc : Text.isBlank c = true)
    (h : Tiles (start + c.utf8Size) front rest ls) : Tiles start (c :: front) rest ls := by
  refine ⟨fun l hl => ?_, h.ordered, fun before d after hfront => ?_⟩
  · obtain ⟨before, after, rfl, hoffset, hspells, hlong⟩ := h.placed l hl
    refine ⟨c :: before, after, rfl, ?_, hspells, hlong⟩
    rw [bytes_cons]
    omega
  · match before with
    | [] =>
      obtain ⟨rfl, -⟩ := List.cons.inj hfront
      exact .inl hc
    | _ :: before =>
      obtain ⟨rfl, rfl⟩ := List.cons.inj hfront
      rw [bytes_cons, ← Nat.add_assoc]
      exact h.covers before d after rfl

/-- After the first lexeme come the others. -/
theorem Tiles.tail_token {w : List Char} {t : Token} (hw : Spells w t)
    (h : Tiles start (w ++ front) rest (⟨t, w, start⟩ :: ls)) :
    Tiles (start + bytes w) front rest ls := by
  have hpos : 0 < bytes w := Lexeme.bytes_pos (Token.ne_nil_of_spells hw)
  obtain ⟨hfirst, hothers⟩ := List.pairwise_cons.mp h.ordered
  refine ⟨fun l hl => ?_, hothers, fun before c after hfront => ?_⟩
  · obtain ⟨before, after, hsplit, hoffset, hspells, hlong⟩ :=
      h.placed l (List.mem_cons_of_mem _ hl)
    have hle : bytes w ≤ bytes before := by
      have hend : start + bytes w ≤ l.offset := (hfirst l hl).2
      omega
    rw [List.append_assoc] at hsplit
    obtain ⟨between, rfl, hrest⟩ := exists_append_of_bytes_le hsplit.symm hle
    rw [bytes_append] at hoffset
    exact ⟨between, after, by rw [hrest, List.append_assoc], by omega, hspells, hlong⟩
  · subst hfront
    rcases h.covers (w ++ before) c after (by simp) with hc | ⟨l, hl, hfrom, hto⟩
    · exact .inl hc
    · rw [bytes_append] at hfrom hto
      rcases List.mem_cons.mp hl with rfl | hl
      · -- the first lexeme ends where the others begin
        simp only at hto
        omega
      · exact .inr ⟨l, hl, by omega, by omega⟩

theorem Tiles.cons_token {w : List Char} {t : Token} (hw : Spells w t)
    (hlong : Longest w (front ++ rest)) (h : Tiles (start + bytes w) front rest ls) :
    Tiles start (w ++ front) rest (⟨t, w, start⟩ :: ls) := by
  have hpos : 0 < bytes w := Lexeme.bytes_pos (Token.ne_nil_of_spells hw)
  refine ⟨fun l hl => ?_, List.pairwise_cons.mpr ⟨fun l hl => ?_, h.ordered⟩,
    fun before c after hfront => ?_⟩
  · rcases List.mem_cons.mp hl with rfl | hl
    · exact ⟨[], front, rfl, rfl, hw, hlong⟩
    · obtain ⟨before, after, rfl, hoffset, hspells, hl'⟩ := h.placed l hl
      refine ⟨w ++ before, after, by simp, ?_, hspells, hl'⟩
      rw [bytes_append]
      omega
  · show start < l.offset ∧ start + bytes w ≤ l.offset
    have hle := h.start_le hl
    omega
  · -- the character stands in the first lexeme or after it
    by_cases hle : bytes w ≤ bytes before
    · obtain ⟨between, rfl, rfl⟩ := exists_append_of_bytes_le hfront.symm hle
      rcases h.covers between c after rfl with hc | ⟨l, hl, hfrom, hto⟩
      · exact .inl hc
      · rw [bytes_append]
        exact .inr ⟨l, List.mem_cons_of_mem _ hl, by omega, by omega⟩
    · refine .inr ⟨_, List.mem_cons_self, ?_, ?_⟩
      · show start ≤ start + bytes before
        omega
      · show start + bytes before < start + bytes w
        omega

/-- What is no blank starts the first lexeme. -/
theorem Tiles.exists_first {c : Char} (h : Tiles start (c :: front) rest ls)
    (hc : Text.isBlank c = false) :
    ∃ w t front' ls', c :: front = w ++ front' ∧ Spells w t ∧ Longest w (front' ++ rest) ∧
      ls = ⟨t, w, start⟩ :: ls' := by
  rcases h.covers [] c front rfl with hblank | ⟨l, hl, hfrom, hto⟩
  · rw [hc] at hblank
    cases hblank
  · rw [bytes_nil] at hfrom
    -- another lexeme before it would end before the text begins
    match ls with
    | [] => cases hl
    | a :: ls' =>
      rcases List.mem_cons.mp hl with rfl | hl'
      · obtain ⟨before, after, hfront, hoffset, hspells, hlong⟩ := h.placed l List.mem_cons_self
        match before with
        | [] =>
          refine ⟨l.chars, l.token, after, ls', hfront, hspells, hlong, ?_⟩
          rw [bytes_nil] at hoffset
          obtain ⟨t, w, offset⟩ := l
          simp only at hoffset
          rw [hoffset]
          rfl
        | d :: before =>
          have hd := d.utf8Size_pos
          rw [bytes_cons] at hoffset
          omega
      · have hend := ((List.pairwise_cons.mp h.ordered).1 l hl').2
        have hstart := h.start_le List.mem_cons_self
        have hpos := h.bytes_pos List.mem_cons_self
        omega

/-! ## The whole text -/

/-- Each text is tiled up to its end or to a place where no token starts. -/
theorem exists_tiles (cs : List Char) (start : Nat) :
    ∃ front rest ls, cs = front ++ rest ∧ Tiles start front rest ls ∧ Stuck rest := by
  -- on the length, since a token takes several characters at once
  induction hn : cs.length using Nat.strongRecOn generalizing cs start with
  | ind n ih =>
    match cs with
    | [] => exact ⟨[], [], [], rfl, tiles_nil.mpr rfl, stuck_nil⟩
    | c :: cs =>
      rw [List.length_cons] at hn
      by_cases hc : Text.isBlank c = true
      · obtain ⟨front, rest, ls, rfl, htiles, hstuck⟩ :=
          ih cs.length (by omega) cs (start + c.utf8Size) rfl
        exact ⟨c :: front, rest, ls, rfl, htiles.cons_blank hc, hstuck⟩
      · cases hread : Token.read? (c :: cs) with
        | none =>
          refine ⟨[], c :: cs, [], rfl, tiles_nil.mpr rfl, fun d tail heq => ?_⟩
          obtain ⟨rfl, -⟩ := List.cons.inj heq
          exact ⟨Bool.eq_false_iff.mpr hc, Token.read?_eq_none_iff.mp hread⟩
        | some found =>
          obtain ⟨w, rest, heq, -, hw, hended⟩ := Token.spells_of_read? hread
          have hpos := List.length_pos_iff.mpr (Token.ne_nil_of_spells hw)
          have hlength := congrArg List.length heq
          rw [List.length_cons, List.length_append] at hlength
          obtain ⟨front, rest', ls, rfl, htiles, hstuck⟩ :=
            ih rest.length (by omega) rest (start + bytes w) rfl
          have hlong := (Token.longest_iff hw).mpr hended
          refine ⟨w ++ front, rest', ⟨found.1, w, start⟩ :: ls, ?_, ?_, hstuck⟩
          · rw [heq, List.append_assoc]
          · exact htiles.cons_token hw hlong

/-- How a scan ends that has taken these lexemes and stops at the byte `offset`. -/
def ending (offset : Nat) (ls : List Lexeme) : List Char → Except ParseError (List Lexeme)
  | [] => .ok ls
  | c :: _ => .error (.unknownCharacter c offset)

theorem map_cons_ending (l : Lexeme) (offset : Nat) (ls : List Lexeme) (rest : List Char) :
    (ending offset ls rest).map (l :: ·) = ending offset (l :: ls) rest := by
  cases rest <;> rfl

theorem scan_of_stuck (hstuck : Stuck rest) (offset : Nat) :
    scan offset 0 rest = ending offset [] rest := by
  match rest with
  | [] => rfl
  | c :: tail =>
    obtain ⟨hc, hno⟩ := hstuck c tail rfl
    simp [scan, hc, Token.read?_eq_none_iff.mpr hno, ending]

/-- The scan follows a tiling as far as it goes. -/
theorem scan_of_tiles (h : Tiles start front rest ls) (hstuck : Stuck rest) :
    scan start 0 (front ++ rest) = ending (start + bytes front) ls rest := by
  induction hn : front.length using Nat.strongRecOn generalizing front start ls with
  | ind n ih =>
    match front with
    | [] =>
      rw [tiles_nil.mp h]
      exact scan_of_stuck hstuck start
    | c :: front =>
      rw [List.length_cons] at hn
      by_cases hc : Text.isBlank c = true
      · rw [List.cons_append, scan_blank hc,
          ih front.length (by omega) (h.tail_blank hc) rfl, bytes_cons, Nat.add_assoc]
      · obtain ⟨w, t, front', ls', heq, hw, hlong, rfl⟩ :=
          h.exists_first (Bool.eq_false_iff.mpr hc)
        rw [heq] at h ⊢
        have hpos := List.length_pos_iff.mpr (Token.ne_nil_of_spells hw)
        have hlength := congrArg List.length heq
        rw [List.length_cons, List.length_append] at hlength
        rw [List.append_assoc, scan_token hw ((Token.longest_iff hw).mp hlong),
          ih front'.length (by omega) (h.tail_token hw) rfl, map_cons_ending,
          bytes_append, Nat.add_assoc]

/-- The lexemes of a text are those that tile it, and the scan succeeds exactly if there are
    some. -/
theorem ofChars_eq_ok_iff {cs : List Char} : ofChars cs = .ok ls ↔ Tiles 0 cs [] ls := by
  unfold ofChars
  constructor
  · intro h
    obtain ⟨front, rest, ls', rfl, htiles, hstuck⟩ := exists_tiles cs 0
    rw [scan_of_tiles htiles hstuck] at h
    match rest with
    | [] =>
      obtain rfl : ls' = ls := Except.ok.inj h
      rw [List.append_nil]
      exact htiles
    | c :: rest => cases h
  · intro h
    have hscan := scan_of_tiles h stuck_nil
    rw [List.append_nil] at hscan
    exact hscan

/-- The scan fails exactly where lexemes tile the text up to a place where no token starts. -/
theorem ofChars_eq_error_iff {cs : List Char} {c : Char} {n : Nat} :
    ofChars cs = .error (.unknownCharacter c n) ↔
      ∃ front rest ls, cs = front ++ c :: rest ∧ bytes front = n ∧
        Tiles 0 front (c :: rest) ls ∧ Stuck (c :: rest) := by
  unfold ofChars
  constructor
  · intro h
    obtain ⟨front, rest, ls, rfl, htiles, hstuck⟩ := exists_tiles cs 0
    rw [scan_of_tiles htiles hstuck, Nat.zero_add] at h
    match rest with
    | [] => cases h
    | d :: rest =>
      obtain ⟨rfl, rfl⟩ := ParseError.unknownCharacter.inj (Except.error.inj h)
      exact ⟨front, rest, ls, rfl, rfl, htiles, hstuck⟩
  · intro ⟨front, rest, ls, heq, hn, htiles, hstuck⟩
    rw [heq, scan_of_tiles htiles hstuck, Nat.zero_add, hn]
    rfl

theorem ofChars_eq_ok_or_error (cs : List Char) :
    (∃ ls, ofChars cs = .ok ls) ∨ ∃ c n, ofChars cs = .error (.unknownCharacter c n) := by
  obtain ⟨front, rest, ls, rfl, htiles, hstuck⟩ := exists_tiles cs 0
  unfold ofChars
  rw [scan_of_tiles htiles hstuck]
  match rest with
  | [] => exact .inl ⟨ls, rfl⟩
  | c :: rest => exact .inr ⟨c, _, rfl⟩

end Lexeme

/-! ## Unknown characters -/

/-- Lexemes are never refused for a character. -/
theorem Parser.outcome_ne_unknownCharacter (stop : State × List Lexeme) (c : Char) (n : Nat) :
    outcome stop ≠ .error (.unknownCharacter c n) := by
  match stop with
  | (.awaiting _ _, []) => simp [outcome]
  | (.awaiting _ _, _ :: _) => simp [outcome]
  | (.complete _ _ (_ :: _), _) => simp [outcome]
  | (.complete _ _ [], []) => simp [outcome]
  | (.complete _ _ [], _ :: _) => simp [outcome]

namespace Formula

/-- An unknown character is reported before anything else. -/
theorem parse_eq_unknownCharacter_iff {text : String} {c : Char} {n : Nat} :
    parse text = .error (.unknownCharacter c n) ↔
      Lexeme.ofChars text.toList = .error (.unknownCharacter c n) := by
  unfold parse ofChars
  cases hls : Lexeme.ofChars text.toList with
  | ok ls =>
    constructor
    · intro h
      exact absurd h (Parser.outcome_ne_unknownCharacter _ c n)
    · intro h
      cases h
  | error reason => simp [Except.bind]

/-- Cutting a text into lexemes loses nothing. Either lexemes tile the whole text: they stand in it
    one after the other, each at its offset and as long as can be, and all else is blank. Or there
    is a first place that is no blank and where no token starts, up to which lexemes tile the text,
    and then its character and offset are reported, whatever else is wrong with the text, and only
    then. -/
theorem lexing_exact (text : String) :
    (∀ ls, Lexeme.ofChars text.toList = .ok ls ↔ Lexeme.Tiles 0 text.toList [] ls) ∧
    (∀ c n, parse text = .error (.unknownCharacter c n) ↔
      ∃ front rest ls, text.toList = front ++ c :: rest ∧ Lexeme.bytes front = n ∧
        Lexeme.Tiles 0 front (c :: rest) ls ∧ Text.isBlank c = false ∧
        ∀ w t, Spells w t → ¬ w <+: c :: rest) ∧
    ((∃ c n, parse text = .error (.unknownCharacter c n)) ↔
      ¬ ∃ ls, Lexeme.ofChars text.toList = .ok ls) := by
  refine ⟨fun ls => Lexeme.ofChars_eq_ok_iff, fun c n => ?_, ?_⟩
  · rw [parse_eq_unknownCharacter_iff, Lexeme.ofChars_eq_error_iff]
    simp only [stuck_cons]
  · simp only [parse_eq_unknownCharacter_iff]
    constructor
    · intro ⟨c, n, herror⟩ ⟨ls, hok⟩
      rw [herror] at hok
      cases hok
    · intro hno
      exact (Lexeme.ofChars_eq_ok_or_error text.toList).resolve_left hno

/-- The offset counts bytes, and the operand that is missing before it does not matter. -/
example : parse "φ ∧ ∧ ?B" = .error (.unknownCharacter '?' 11) := by rfl

end Formula

end PropCalc
