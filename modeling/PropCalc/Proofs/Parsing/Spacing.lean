/-
  Blanks between lexemes do not matter.

  A text with the spellings of lexemes in it, at least one blank between two of them and any blanks
  at its ends, is cut into the same lexemes again, but for their offsets (`scan_spaced`). The reader
  does not look at offsets (`ofLexemes_unplaced`). So it gives the same formula, or the same error
  (`parse_spaced`). Tokens left over a formula are listed with one blank between two of them, and
  that list is such a text too (`spacing_does_not_matter`).
-/
import PropCalc.Proofs.Parsing.Diagnosis
import PropCalc.Proofs.Parsing.Tiling

namespace PropCalc

open Token (Spells)
open Name (Ended)

/-! ## Offsets -/

/-- The lexeme without its place. -/
def Lexeme.unplaced (l : Lexeme) : Lexeme := { l with offset := 0 }

theorem Lexeme.token_unplaced (l : Lexeme) : l.unplaced.token = l.token := rfl

namespace Parser

theorem run_unplaced (s : State) (ls : List Lexeme) :
    run s (ls.map Lexeme.unplaced) = ((run s ls).1, (run s ls).2.map Lexeme.unplaced) := by
  induction ls generalizing s with
  | nil => rfl
  | cons l ls ih =>
    rw [List.map_cons, run, run, Lexeme.token_unplaced]
    cases step s l.token with
    | none => rfl
    | some s' => exact ih s'

theorem outcome_unplaced (s : State) (left : List Lexeme) :
    outcome (s, left.map Lexeme.unplaced) = outcome (s, left) := by
  match s, left with
  | .awaiting _ _, [] => rfl
  | .awaiting _ _, _ :: _ => rfl
  | .complete _ _ (_ :: _), _ => rfl
  | .complete _ _ [], [] => rfl
  | .complete _ _ [], l :: left =>
    have htexts : ((l :: left).map Lexeme.unplaced).map Lexeme.text =
        (l :: left).map Lexeme.text := by
      rw [List.map_map]
      rfl
    show Except.error (ParseError.trailingTokens
      (((l :: left).map Lexeme.unplaced).map Lexeme.text)) = _
    rw [htexts]
    rfl

end Parser

/-- What lexemes spell does not depend on where they stand. -/
theorem Formula.ofLexemes_unplaced (ls : List Lexeme) :
    ofLexemes (ls.map Lexeme.unplaced) = ofLexemes ls := by
  unfold ofLexemes
  rw [Parser.run_unplaced, Parser.outcome_unplaced]

/-! ## Texts with other blanks -/

namespace Lexeme

/-- The words with `gap 0` in front and after each of them the next gap. -/
def spaced (gap : Nat → List Char) : List (List Char) → List Char
  | [] => gap 0
  | w :: ws => gap 0 ++ (w ++ spaced (fun i => gap (i + 1)) ws)

variable {gap : Nat → List Char}

theorem scan_blanks {blanks : List Char} (h : Text.allBlank blanks = true) (offset : Nat)
    (cs : List Char) : scan offset 0 (blanks ++ cs) = scan (offset + bytes blanks) 0 cs := by
  induction blanks generalizing offset with
  | nil => rfl
  | cons c blanks ih =>
    have hall : (Text.isBlank c && Text.allBlank blanks) = true := h
    obtain ⟨hc, hblanks⟩ := Bool.and_eq_true_iff.mp hall
    rw [List.cons_append, scan_blank hc, ih hblanks, bytes_cons, Nat.add_assoc]

/-- No word goes on over blanks. -/
theorem ended_of_allBlank {blanks cs : List Char} (h : Text.allBlank blanks = true)
    (hcs : blanks = [] → cs = []) : Ended (blanks ++ cs) := by
  match blanks with
  | [] =>
    rw [hcs rfl]
    exact nofun
  | c :: blanks =>
    have hc : Text.isBlank c = true := List.all_eq_true.mp h c List.mem_cons_self
    apply Name.ended_cons
    apply Bool.eq_false_iff.mpr
    intro hcontinues
    rw [Name.isBlank_of_continues hcontinues] at hc
    cases hc

/-- After a word the text goes on with a blank, or it ends. -/
theorem ended_spaced {ws : List (List Char)} (hblank : Text.allBlank (gap 0) = true)
    (hbetween : ws ≠ [] → gap 0 ≠ []) : Ended (spaced gap ws) := by
  match ws with
  | [] =>
    have hended : Ended (gap 0 ++ []) := ended_of_allBlank hblank fun _ => rfl
    rw [List.append_nil] at hended
    exact hended
  | w :: ws => exact ended_of_allBlank hblank fun h => absurd h (hbetween (by simp))

/-- Spellings with blanks between them are the lexemes that have been spelled. -/
theorem scan_spaced {ls : List Lexeme} (hspells : ∀ l ∈ ls, Spells l.chars l.token)
    (hblank : ∀ i, i ≤ ls.length → Text.allBlank (gap i) = true)
    (hbetween : ∀ i, 0 < i → i < ls.length → gap i ≠ []) (offset : Nat) :
    ∃ ls', scan offset 0 (spaced gap (ls.map chars)) = .ok ls' ∧
      ls'.map unplaced = ls.map unplaced := by
  induction ls generalizing gap offset with
  | nil =>
    have hscan := scan_blanks (hblank 0 (Nat.le_refl 0)) offset []
    rw [List.append_nil] at hscan
    exact ⟨[], hscan, rfl⟩
  | cons l ls ih =>
    obtain ⟨hl, hrest⟩ := List.forall_mem_cons.mp hspells
    rw [List.length_cons] at hblank hbetween
    have hended : Ended (spaced (fun i => gap (i + 1)) (ls.map chars)) := by
      apply ended_spaced (hblank 1 (by omega))
      intro hne
      have hpos := List.length_pos_iff.mpr hne
      rw [List.length_map] at hpos
      exact hbetween 1 (by omega) (by omega)
    have hnext : offset + bytes (gap 0) + bytes l.chars = offset + bytes (gap 0 ++ l.chars) := by
      rw [bytes_append, Nat.add_assoc]
    obtain ⟨ls', hscan, hsame⟩ := ih hrest (fun i hi => hblank (i + 1) (by omega))
      (fun i _ hi => hbetween (i + 1) (by omega) (by omega)) (offset + bytes (gap 0 ++ l.chars))
    refine ⟨⟨l.token, l.chars, offset + bytes (gap 0)⟩ :: ls', ?_, ?_⟩
    · rw [List.map_cons, spaced, scan_blanks (hblank 0 (by omega)), scan_token hl fun _ => hended,
        hnext, hscan]
      rfl
    · rw [List.map_cons, List.map_cons, hsame]
      rfl

/-- The lexemes of a text are spelled as it has them. -/
theorem spells_of_ofChars {cs : List Char} {ls : List Lexeme} (h : ofChars cs = .ok ls) :
    ∀ l ∈ ls, Spells l.chars l.token := by
  intro l hl
  obtain ⟨_, _, -, -, hspells, -⟩ := (ofChars_eq_ok_iff.mp h).placed l hl
  exact hspells

/-- The blanks in a list of words with one blank between two of them. -/
def single (n i : Nat) : List Char := if 0 < i ∧ i < n then [' '] else []

theorem allBlank_single (n i : Nat) : Text.allBlank (single n i) = true := by
  unfold single
  split <;> decide

/-- One blank before each of the words. -/
theorem spaced_before (ws : List (List Char)) :
    spaced (fun i => if i < ws.length then [' '] else []) ws = ws.flatMap (' ' :: ·) := by
  induction ws with
  | nil => rfl
  | cons w ws ih =>
    have hgap : (fun i => if i + 1 < (w :: ws).length then [' '] else []) =
        fun i => if i < ws.length then [' '] else [] := by
      funext i
      rw [List.length_cons]
      simp
    rw [spaced, hgap, ih]
    simp

theorem intercalate_cons (w : List Char) (ws : List (List Char)) :
    [' '].intercalate (w :: ws) = w ++ ws.flatMap (' ' :: ·) := by
  induction ws generalizing w with
  | nil => simp
  | cons w' ws ih =>
    rw [List.intercalate_cons_cons, ih, List.flatMap_cons]
    simp

/-- Words with one blank between two of them. -/
theorem intercalate_eq_spaced (ws : List (List Char)) :
    [' '].intercalate ws = spaced (single ws.length) ws := by
  match ws with
  | [] => rfl
  | w :: ws =>
    have hgap : (fun i => single (w :: ws).length (i + 1)) =
        fun i => if i < ws.length then [' '] else [] := by
      funext i
      simp [single]
    rw [intercalate_cons, spaced, hgap, spaced_before]
    rfl

/-- The spellings with one blank between two of them are the lexemes again. -/
theorem ofChars_intercalate {ls : List Lexeme} (hspells : ∀ l ∈ ls, Spells l.chars l.token) :
    ∃ ls', ofChars (" ".intercalate (ls.map text)).toList = .ok ls' ∧
      ls'.map unplaced = ls.map unplaced := by
  have hchars : (ls.map text).map String.toList = ls.map chars := by
    rw [List.map_map]
    apply List.map_congr_left
    intro l _
    exact String.toList_ofList
  rw [String.toList_intercalate, hchars]
  show ∃ ls', scan 0 0 ([' '].intercalate (ls.map chars)) = .ok ls' ∧ _
  rw [intercalate_eq_spaced, List.length_map]
  apply scan_spaced hspells (fun i _ => allBlank_single _ i)
  intro i hpos hlt
  unfold single
  rw [if_pos ⟨hpos, hlt⟩]
  simp

end Lexeme

namespace Parser

/-- What is reported to be left over are the spellings of the lexemes that are left. -/
theorem left_of_outcome {stop : State × List Lexeme} {texts : List String}
    (h : outcome stop = .error (.trailingTokens texts)) : texts = stop.2.map Lexeme.text := by
  match stop, h with
  | (.awaiting _ _, []), h => cases h
  | (.awaiting _ _, _ :: _), h => cases h
  | (.complete _ _ (_ :: _), _), h => cases h
  | (.complete _ _ [], []), h => cases h
  | (.complete _ _ [], l :: left), h => cases h; rfl

end Parser

namespace Formula

variable {text : String} {ls : List Lexeme}

/-- Texts that are cut into the same lexemes, wherever these stand, are read alike. -/
theorem parse_spaced {gap : Nat → List Char} (hls : Lexeme.ofChars text.toList = .ok ls)
    (hblank : ∀ i, i ≤ ls.length → Text.allBlank (gap i) = true)
    (hbetween : ∀ i, 0 < i → i < ls.length → gap i ≠ []) :
    parse (String.ofList (Lexeme.spaced gap (ls.map Lexeme.chars))) = parse text := by
  obtain ⟨ls', hscan, hsame⟩ :=
    Lexeme.scan_spaced (Lexeme.spells_of_ofChars hls) hblank hbetween 0
  have hls' : Lexeme.ofChars (String.ofList
      (Lexeme.spaced gap (ls.map Lexeme.chars))).toList = .ok ls' := by
    rw [String.toList_ofList]
    exact hscan
  rw [parse_of_ofChars hls', parse_of_ofChars hls, ← ofLexemes_unplaced ls', hsame,
    ofLexemes_unplaced]

/-- The tokens that are reported to be left over are those after the longest start that some formula
    has, and their list is cut into them again. -/
theorem left_of_parse {texts : List String} (h : parse text = .error (.trailingTokens texts)) :
    ∃ ls k, Lexeme.ofChars text.toList = .ok ls ∧
      IsGreatest {k | k ≤ ls.length ∧ Viable ((ls.take k).map Lexeme.token)} k ∧
      texts = (ls.drop k).map Lexeme.text ∧
      ∃ ls', Lexeme.ofChars (" ".intercalate texts).toList = .ok ls' ∧
        ls'.map Lexeme.unplaced = (ls.drop k).map Lexeme.unplaced := by
  have hlexes : ∃ ls, Lexeme.ofChars text.toList = .ok ls := by
    refine (Lexeme.ofChars_eq_ok_or_error text.toList).resolve_right ?_
    intro ⟨c, n, herror⟩
    rw [parse_eq_unknownCharacter_iff.mpr herror] at h
    cases h
  obtain ⟨ls, hls⟩ := hlexes
  have hnames : ∀ x, .var x ∈ ls.map Lexeme.token → Name.Valid x :=
    fun x => (Lexeme.lexed_iff.mpr ⟨ls, hls, rfl⟩).valid_of_mem
  have hspells := Lexeme.spells_of_ofChars hls
  rw [parse_of_ofChars hls, ofLexemes] at h
  rcases hrun : Parser.run Parser.start ls with ⟨s, left⟩
  rw [hrun] at h
  obtain ⟨read, rfl, hsteps, hstop⟩ := Parser.run_stops hrun
  obtain rfl := Parser.left_of_outcome h
  refine ⟨read ++ left, read.length, hls, Parser.isGreatest_of_run hnames hsteps hstop, ?_, ?_⟩
  · rw [List.drop_left]
  · rw [List.drop_left]
    exact Lexeme.ofChars_intercalate fun l hl => hspells l (List.mem_append_right read hl)

/-- Spacing does not matter. A text that has no unknown character is read as any other one with
    the same spellings, at least one blank between two of them and any blanks at its ends: both give
    the same formula or the same error. And the text that is reported of tokens left over is cut
    into the very lexemes that are left after the longest start that some formula has. -/
theorem spacing_does_not_matter (text : String) :
    (∀ ls, Lexeme.ofChars text.toList = .ok ls → ∀ gap : Nat → List Char,
      (∀ i, i ≤ ls.length → Text.allBlank (gap i) = true) →
      (∀ i, 0 < i → i < ls.length → gap i ≠ []) →
      parse (String.ofList (Lexeme.spaced gap (ls.map Lexeme.chars))) = parse text) ∧
    ∀ texts, parse text = .error (.trailingTokens texts) →
      (ParseError.trailingTokens texts).message =
        "unexpected tokens after expression: " ++ " ".intercalate texts ∧
      ∃ ls k, Lexeme.ofChars text.toList = .ok ls ∧
        IsGreatest {k | k ≤ ls.length ∧ Viable ((ls.take k).map Lexeme.token)} k ∧
        texts = (ls.drop k).map Lexeme.text ∧
        ∃ ls', Lexeme.ofChars (" ".intercalate texts).toList = .ok ls' ∧
          ls'.map Lexeme.unplaced = (ls.drop k).map Lexeme.unplaced :=
  ⟨fun _ hls _ hblank hbetween => parse_spaced hls hblank hbetween,
    fun _ h => ⟨rfl, left_of_parse h⟩⟩

/-- The lexemes of `a∧?xy∨⊤`, of which the first three are a formula. -/
def crowded : List Lexeme :=
  [⟨.var "a", ['a'], 0⟩, ⟨.op .and, ['∧'], 1⟩, ⟨.var "?x", ['?', 'x'], 4⟩, ⟨.var "y", ['y'], 6⟩,
    ⟨.op .or, ['∨'], 7⟩, ⟨.const true, ['⊤'], 10⟩]

/-- A tab in front, and an em space and a line feed after each lexeme. -/
def wide (i : Nat) : List Char := if i = 0 then ['\t'] else ['\u2003', '\n']

theorem spacing_does_not_matter_crowded :
    Lexeme.ofChars "a∧?xy∨⊤".toList = .ok crowded ∧
    (∀ i, i ≤ crowded.length → Text.allBlank (wide i) = true) ∧
    (∀ i, 0 < i → i < crowded.length → wide i ≠ []) ∧
    parse (String.ofList (Lexeme.spaced wide (crowded.map Lexeme.chars))) = parse "a∧?xy∨⊤" ∧
    parse "a∧?xy∨⊤" = .error (.trailingTokens ["y", "∨", "⊤"]) ∧
    ∃ ls', Lexeme.ofChars (" ".intercalate ["y", "∨", "⊤"]).toList = .ok ls' ∧
      ls'.map Lexeme.unplaced = (crowded.drop 3).map Lexeme.unplaced := by
  have hls : Lexeme.ofChars "a∧?xy∨⊤".toList = .ok crowded := by rfl
  have hblank : ∀ i, i ≤ crowded.length → Text.allBlank (wide i) = true := by
    intro i _
    unfold wide
    split <;> decide
  have hbetween : ∀ i, 0 < i → i < crowded.length → wide i ≠ [] := by
    intro i _ _
    unfold wide
    split <;> decide
  have hleft : parse "a∧?xy∨⊤" = .error (.trailingTokens ["y", "∨", "⊤"]) := by rfl
  obtain ⟨hsame, hagain⟩ := spacing_does_not_matter "a∧?xy∨⊤"
  obtain ⟨-, ls, k, hls', -, htexts, ls', hscan, hunplaced⟩ := hagain _ hleft
  obtain rfl : crowded = ls := Except.ok.inj (hls.symm.trans hls')
  have hk : (crowded.drop k).length = 3 := by
    rw [← List.length_map Lexeme.text, ← htexts]
    rfl
  obtain rfl : k = 3 := by
    rw [List.length_drop] at hk
    have hlength : crowded.length = 6 := rfl
    omega
  exact ⟨hls, hblank, hbetween, hsame crowded hls wide hblank hbetween, hleft, ls', hscan,
    hunplaced⟩

end Formula

end PropCalc
