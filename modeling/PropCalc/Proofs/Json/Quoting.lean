/-
  A quoted text is read as the text that it quotes.

  Quoting writes most characters as themselves, some with a letter after a backslash, and the
  other control characters by their numbers. Read back, each is one item (`readPieces_escape`),
  and the items together denote the text (`joinPieces_map_piece`). No number that quoting
  writes is half of a surrogate pair, so the items do not act on each other.
-/
import PropCalc.Json.Text

namespace PropCalc.Json

/-- The control characters that have a letter of their own. -/
def lettered : List Char := ['\x08', '\x0c', '\n', '\r', '\t']

/-- The item that a character is read as after it has been quoted. -/
def piece (c : Char) : Piece :=
  if c.toNat < 0x20 ∧ c ∉ lettered then .unit c.toNat else .char c

/-- Puts an item in front of those that have been read. -/
def consPiece (p : Piece) (length : Nat) (read : List Piece × Nat) : List Piece × Nat :=
  (p :: read.1, read.2 + length)

/-! ## Items -/

theorem hexValue?_hexDigit : ∀ n < 16, hexValue? (hexDigit n) = some n := by
  decide

/-- A control character has two digits, after two zeros. -/
theorem hexNumber?_digits {n : Nat} (h : n < 0x20) :
    hexNumber? '0' '0' (hexDigit (n / 16)) (hexDigit (n % 16)) = some n := by
  have hzero : hexValue? '0' = some 0 := by decide
  have hhigh := hexValue?_hexDigit (n / 16) (by omega)
  have hlow := hexValue?_hexDigit (n % 16) (by omega)
  have hsum : ((0 * 16 + 0) * 16 + n / 16) * 16 + n % 16 = n := by omega
  unfold hexNumber?
  rw [hzero, hhigh, hlow]
  exact congrArg some hsum

section Read

variable (rest : List Char)

theorem readPieces_quote : readPieces ('"' :: rest) = some ([], 1) := by
  rw [readPieces.eq_def]
  rfl

/-- A backslash with any letter but `u` is one character. -/
theorem readPieces_letter {d c : Char} (hd : d ≠ 'u') (hc : escaped? d = some c) :
    readPieces ('\\' :: d :: rest) = (readPieces rest).map (consPiece (.char c) 2) := by
  have hnotUnit : ∀ (h₁ h₂ h₃ h₄ : Char) (more : List Char),
      d = 'u' → rest = h₁ :: h₂ :: h₃ :: h₄ :: more → False := fun _ _ _ _ _ h _ => hd h
  rw [readPieces.eq_3 _ _ _ hnotUnit, if_neg (by decide), if_pos rfl, hc]
  cases readPieces rest <;> rfl

theorem readPieces_unit {n : Nat} {h₁ h₂ h₃ h₄ : Char} (hn : hexNumber? h₁ h₂ h₃ h₄ = some n) :
    readPieces ('\\' :: 'u' :: h₁ :: h₂ :: h₃ :: h₄ :: rest) =
      (readPieces rest).map (consPiece (.unit n) 6) := by
  rw [readPieces.eq_2, if_neg (by decide), if_pos rfl, hn]
  cases readPieces rest <;> rfl

theorem readPieces_plain {c : Char} (hquote : c ≠ '"') (hslash : c ≠ '\\') (h : ¬ c.toNat < 0x20) :
    readPieces (c :: rest) = (readPieces rest).map (consPiece (.char c) 1) := by
  rw [readPieces.eq_def]
  simp only
  rw [if_neg hquote, if_neg hslash, if_neg h]
  rfl

/-- A quoted character is read as one item, and all of it is read. -/
theorem readPieces_escape (c : Char) :
    readPieces (escape c ++ rest) =
      (readPieces rest).map (consPiece (piece c) (escape c).length) := by
  unfold escape
  -- the first seven cases are those with a letter
  iterate 7
    split
    · next h => subst h; exact readPieces_letter rest (by decide) (by decide)
  rename_i hquote hslash hb hf hn hr ht
  split
  · next h =>
    have hpiece : piece c = .unit c.toNat := by
      unfold piece
      rw [if_pos]
      exact ⟨h, by simp [lettered, hb, hf, hn, hr, ht]⟩
    rw [hpiece]
    exact readPieces_unit rest (hexNumber?_digits h)
  · next h =>
    have hpiece : piece c = .char c := by
      unfold piece
      rw [if_neg]
      exact fun hboth => h hboth.1
    rw [hpiece]
    exact readPieces_plain rest hquote hslash h

end Read

/-! ## Texts -/

/-- All of a quoted text is read up to the quote that ends it. -/
theorem readPieces_quoted (cs rest : List Char) :
    readPieces (cs.flatMap escape ++ '"' :: rest) =
      some (cs.map piece, (cs.flatMap escape).length + 1) := by
  induction cs with
  | nil => exact readPieces_quote rest
  | cons c cs ih =>
    rw [List.flatMap_cons, List.append_assoc, readPieces_escape, ih, Option.map_some, consPiece,
      List.length_append, List.map_cons]
    have hlength : (cs.flatMap escape).length + 1 + (escape c).length =
        (escape c).length + (cs.flatMap escape).length + 1 := by omega
    rw [hlength]

/-- A unit that is no half of a pair is a character by itself. -/
theorem joinPieces_unit {u : Nat} (h : u < 0xD800) (rest : List Piece) :
    joinPieces (.unit u :: rest) = (joinPieces rest).map (Char.ofNat u :: ·) := by
  rw [joinPieces.eq_def]
  exact if_pos (.inl h)

/-- The items of a quoted text denote it. -/
theorem joinPieces_map_piece (cs : List Char) : joinPieces (cs.map piece) = some cs := by
  induction cs with
  | nil => rfl
  | cons c cs ih =>
    rw [List.map_cons]
    by_cases h : c.toNat < 0x20 ∧ c ∉ lettered
    · have hpiece : piece c = .unit c.toNat := if_pos h
      rw [hpiece, joinPieces_unit (by omega), ih, Char.ofNat_toNat]
      rfl
    · have hpiece : piece c = .char c := if_neg h
      rw [hpiece, joinPieces, ih]
      rfl

/-- Reading what follows the quote in front gives the text, and ends at the quote behind it. -/
theorem readString_quoted (cs rest : List Char) :
    readString (cs.flatMap escape ++ '"' :: rest) =
      some (some (String.ofList cs), (cs.flatMap escape).length + 1) := by
  unfold readString
  rw [readPieces_quoted, Option.map_some]
  simp only
  rw [joinPieces_map_piece, Option.map_some]

/-- A tab has a letter, the escape character has a number, and a character of four bytes stands for
    itself. -/
example : String.ofList (quote ['\t', '\x1b', '"', '𝜑']) = "\"\\t\\u001b\\\"𝜑\"" := by decide

end PropCalc.Json
