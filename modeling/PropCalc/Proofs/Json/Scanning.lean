/-
  Written JSON is cut into the tokens of the value.

  `Scans cs ts rest` says that the text `cs` consists of the tokens `ts` and then goes on with
  `rest`. A token that is written is cut off as it was written: punctuation and strings in front of
  any text, a number in front of one that cannot prolong it. Blanks between tokens are dropped, so
  the layout does not matter (`scans_write`).
-/
import Mathlib.Data.List.Basic
import PropCalc.Json.Token
import PropCalc.Json.Writer
import PropCalc.Proofs.Json.Quoting
import PropCalc.Proofs.Text.Decimal

namespace PropCalc.Json

/-! ## The tokens of a value -/

/-- A comma, unless the part that follows is the first one. -/
def commaUnless (first : Bool) : List Token := if first then [] else [.comma]

mutual

/-- The tokens that a value is written with. -/
def tokens : Json → List Token
  | .null => [.null]
  | .bool b => [.bool b]
  | .num n => [.num n]
  | .str s => [.str s]
  | .arr items => .openArr :: itemTokens true items
  | .obj entries => .openObj :: entryTokens true entries

/-- The tokens of the items that are left, and of the closing bracket. -/
def itemTokens (first : Bool) : List Json → List Token
  | [] => [.closeArr]
  | v :: vs => commaUnless first ++ (v.tokens ++ itemTokens false vs)

/-- The same for entries. -/
def entryTokens (first : Bool) : List (Option String × Json) → List Token
  | [] => [.closeObj]
  | (name, v) :: es =>
    commaUnless first ++ .str name :: .colon :: (v.tokens ++ entryTokens false es)

end

/-! ## Cutting off tokens -/

theorem isSpace_iff {c : Char} :
    isSpace c = true ↔ c = ' ' ∨ c = '\n' ∨ c = '\t' ∨ c = '\r' := by
  simp [isSpace, or_assoc]

/-- A test that the four blanks fail tells a character from them. -/
theorem isSpace_eq_false (test : Char → Bool) {c : Char} (hc : test c = true)
    (hblanks : [' ', '\n', '\t', '\r'].any test = false) : isSpace c = false := by
  rw [Bool.eq_false_iff, Ne, isSpace_iff]
  intro hspace
  have hblank : c ∈ [' ', '\n', '\t', '\r'] := by simpa using hspace
  exact List.any_eq_false.mp hblanks c hblank hc

/-- The text consists of the tokens and goes on with `rest`. -/
def Scans (cs : List Char) (ts : List Token) (rest : List Char) : Prop :=
  scan 0 cs = (scan 0 rest).map (ts ++ ·)

theorem Scans.trans {cs mid rest : List Char} {ts us : List Token} (h : Scans cs ts mid)
    (h' : Scans mid us rest) : Scans cs (ts ++ us) rest := by
  unfold Scans at *
  rw [h, h', Option.map_map]
  congr 1
  funext vs
  exact (List.append_assoc ts us vs).symm

theorem scan_skip (w rest : List Char) : scan w.length (w ++ rest) = scan 0 rest := by
  induction w with
  | nil => rfl
  | cons c w ih => rw [List.cons_append, List.length_cons, scan, ih]

theorem scans_blank {w : List Char} (h : ∀ c ∈ w, isSpace c = true) (rest : List Char) :
    Scans (w ++ rest) [] rest := by
  unfold Scans
  rw [show ([] ++ · : List Token → List Token) = id from rfl, Option.map_id, id]
  induction w with
  | nil => rfl
  | cons c w ih =>
    have hw : ∀ d ∈ w, isSpace d = true := fun d hd => h d (List.mem_cons_of_mem c hd)
    rw [List.cons_append, scan, if_pos (h c List.mem_cons_self), ih hw]

/-- A text that is read as a token is cut off as a whole. -/
theorem scans_of_read? {c : Char} {w rest : List Char} {t : Token} (hc : isSpace c = false)
    (h : Token.read? (c :: (w ++ rest)) = some (t, w.length + 1)) :
    Scans (c :: (w ++ rest)) [t] rest := by
  unfold Scans
  rw [scan, if_neg (by simp [hc]), h, Option.bind_some]
  simp only
  rw [Nat.add_sub_cancel, scan_skip]
  rfl

/-! ## Punctuation and strings -/

theorem read?_sign {c : Char} {t : Token} (h : Token.ofSign? c = some t) (cs : List Char) :
    Token.read? (c :: cs) = some (t, 1) := by
  unfold Token.read?
  simp only
  rw [h]

theorem scans_sign {c : Char} {t : Token} (h : Token.ofSign? c = some t) (rest : List Char) :
    Scans (c :: rest) [t] rest := by
  have hsome : (Token.ofSign? c).isSome = true := by
    rw [h]
    rfl
  have hspace : isSpace c = false :=
    isSpace_eq_false (fun c => (Token.ofSign? c).isSome) hsome (by decide)
  have hread : Token.read? (c :: ([] ++ rest)) = some (t, 1) := read?_sign h rest
  exact scans_of_read? hspace hread

theorem read?_string (cs : List Char) :
    Token.read? ('"' :: cs) =
      (readString cs).map fun (text, length) => (.str text, length + 1) := rfl

theorem scans_string (s : Option String) (rest : List Char) :
    Scans (quoteText s ++ rest) [.str s] rest := by
  cases s with
  | none =>
    have hread : Token.read? ('"' :: (['\\', 'u', 'd', '8', '0', '0', '"'] ++ rest)) =
        some (.str none, 8) := by
      have hunit : hexNumber? 'd' '8' '0' '0' = some 0xD800 := by decide
      have hpieces := readPieces_unit ('"' :: rest) hunit
      rw [readPieces_quote] at hpieces
      rw [read?_string, readString]
      simp only [List.cons_append, List.nil_append]
      rw [hpieces]
      rfl
    exact scans_of_read? (by decide) hread
  | some s =>
    have hread : Token.read? ('"' :: (s.toList.flatMap escape ++ ['"'] ++ rest)) =
        some (.str (some s), (s.toList.flatMap escape ++ ['"']).length + 1) := by
      rw [read?_string, List.append_assoc, List.singleton_append, readString_quoted,
        String.ofList_toList, List.length_append]
      rfl
    exact scans_of_read? (by decide) hread

/-! ## Numbers -/

/-- No number goes on with this text. -/
def NumberEnds (rest : List Char) : Prop :=
  ∀ c, rest.head? = some c → c.isDigit = false ∧ c ≠ '.' ∧ c ≠ 'e' ∧ c ≠ 'E'

theorem numberEnds_nil : NumberEnds [] := by
  intro c h
  cases h

theorem numberEnds_cons {c : Char} (h : c.isDigit = false ∧ c ≠ '.' ∧ c ≠ 'e' ∧ c ≠ 'E')
    (rest : List Char) : NumberEnds (c :: rest) := by
  intro d hd
  rw [← Option.some.inj hd]
  exact h

/-- No number goes on with a blank. -/
theorem NumberEnds.blank {rest : List Char} (h : NumberEnds rest) {w : List Char}
    (hw : ∀ c ∈ w, isSpace c = true) : NumberEnds (w ++ rest) := by
  cases w with
  | nil => exact h
  | cons c w =>
    have hc := isSpace_iff.mp (hw c List.mem_cons_self)
    rcases hc with rfl | rfl | rfl | rfl <;> exact numberEnds_cons (by decide) _

namespace NumberEnds

variable {rest : List Char}

theorem takeWhile_digits (h : NumberEnds rest) {digits : List Char}
    (hdigits : ∀ c ∈ digits, c.isDigit = true) :
    (digits ++ rest).takeWhile Char.isDigit = digits := by
  rw [List.takeWhile_append_of_pos hdigits]
  cases rest with
  | nil => simp
  | cons c rest => simp [(h c rfl).1]

theorem fractionLength? (h : NumberEnds rest) : fractionLength? rest = some 0 := by
  unfold Json.fractionLength?
  split
  · exact absurd rfl (h '.' rfl).2.1
  · rfl

theorem exponentLength? (h : NumberEnds rest) : exponentLength? rest = some 0 := by
  unfold Json.exponentLength?
  split
  · rfl
  · next c cs =>
    obtain ⟨-, -, hsmall, hcapital⟩ := h c rfl
    rw [if_neg]
    exact fun hc => hc.elim hsmall hcapital

end NumberEnds

/-- A natural number is read to its end, which is where its digits end. -/
theorem readNumber_decimal (n : Nat) {rest : List Char} (h : NumberEnds rest) :
    readNumber (Text.decimal n ++ rest) = some (some n, (Text.decimal n).length) := by
  have hdigits : ∀ c ∈ Text.decimal n, c.isDigit = true := fun _ => Text.isDigit_of_mem_decimal
  have hne : Text.decimal n ≠ [] := Text.decimal_ne_nil n
  have hsign : (Text.decimal n ++ rest).head? ≠ some '-' := by
    rw [List.head?_append, List.head?_eq_some_head hne, Option.some_or]
    intro heq
    have hminus := hdigits _ (List.head_mem hne)
    rw [Option.some.inj heq] at hminus
    exact absurd hminus (by decide)
  have hzero : ¬ ((Text.decimal n).isEmpty = true ∨
      ((Text.decimal n).head? = some '0' ∧ (Text.decimal n).length ≠ 1)) := by
    rintro (hempty | ⟨hhead, hlength⟩)
    · exact hne (List.isEmpty_iff.mp hempty)
    · rw [Text.eq_zero_of_head?_decimal hhead] at hlength
      exact hlength rfl
  unfold readNumber
  simp only [if_neg hsign, List.drop_zero, h.takeWhile_digits hdigits, if_neg hzero, Nat.zero_add,
    List.drop_left, h.fractionLength?, h.exponentLength?, Nat.add_zero, Option.bind_eq_bind,
    Option.bind_some, if_true]
  rw [Text.decimal, Nat.ofDigitChars_ten_toDigits]
  rfl

/-- What is written for any other number is read as such. -/
theorem readNumber_minusOne {rest : List Char} (h : NumberEnds rest) :
    readNumber ('-' :: '1' :: rest) = some (none, 2) := by
  have hone : ∀ c ∈ ['1'], c.isDigit = true := List.forall_mem_singleton.mpr (by decide)
  have hdigits : ('1' :: rest).takeWhile Char.isDigit = ['1'] := h.takeWhile_digits hone
  unfold readNumber
  simp [hdigits, h.fractionLength?, h.exponentLength?]

/-- A digit or a minus starts nothing but a number. -/
theorem read?_number {c : Char} (h : c = '-' ∨ c.isDigit = true) (cs : List Char) :
    Token.read? (c :: cs) =
      (readNumber (c :: cs)).map fun (value, length) => (.num value, length) := by
  have hne : ∀ d, d ≠ '-' → d.isDigit = false → c ≠ d := by
    rintro d hminus hdigit rfl
    rcases h with h | h
    · exact hminus h
    · rw [h] at hdigit
      cases hdigit
  have hsign : Token.ofSign? c = none := by
    unfold Token.ofSign?
    rw [if_neg (hne _ (by decide) (by decide)), if_neg (hne _ (by decide) (by decide)),
      if_neg (hne _ (by decide) (by decide)), if_neg (hne _ (by decide) (by decide)),
      if_neg (hne _ (by decide) (by decide)), if_neg (hne _ (by decide) (by decide))]
  have hword : ∀ d w, d ≠ '-' → d.isDigit = false → ¬ (d :: w).isPrefixOf (c :: cs) = true := by
    intro d w hminus hdigit hprefix
    rw [List.isPrefixOf_cons_cons, Bool.and_eq_true] at hprefix
    exact hne d hminus hdigit (eq_of_beq hprefix.1).symm
  unfold Token.read?
  simp only
  rw [hsign]
  simp only
  rw [if_neg (hne _ (by decide) (by decide)), if_neg (hword _ _ (by decide) (by decide)),
    if_neg (hword _ _ (by decide) (by decide)), if_neg (hword _ _ (by decide) (by decide))]

theorem scans_number (n : Option Nat) {rest : List Char} (h : NumberEnds rest) (l : Layout)
    (depth : Nat) : Scans (write l depth (.num n) rest) [.num n] rest := by
  cases n with
  | none =>
    have hread : Token.read? ('-' :: (['1'] ++ rest)) = some (.num none, 2) := by
      rw [read?_number (.inl rfl), List.singleton_append, readNumber_minusOne h]
      rfl
    exact scans_of_read? (by decide) hread
  | some n =>
    have hread := readNumber_decimal n h
    have hdigits : ∀ c ∈ Text.decimal n, c.isDigit = true := fun _ => Text.isDigit_of_mem_decimal
    rw [write]
    cases hn : Text.decimal n with
    | nil => exact absurd hn (Text.decimal_ne_nil n)
    | cons c w =>
      rw [hn] at hread hdigits
      have hc := hdigits c List.mem_cons_self
      have hspace : isSpace c = false := isSpace_eq_false Char.isDigit hc (by decide)
      rw [List.cons_append] at hread ⊢
      refine scans_of_read? hspace ?_
      rw [read?_number (.inr hc), hread]
      rfl

/-! ## Values -/

/-- All that the layout puts between tokens is blank. -/
structure Layout.Blank (l : Layout) : Prop where
  newline : ∀ depth, ∀ c ∈ l.newline depth, isSpace c = true
  afterColon : ∀ c ∈ l.afterColon, isSpace c = true

theorem Layout.blank_compact : Layout.compact.Blank := by
  refine ⟨fun depth c hc => ?_, fun c hc => ?_⟩
  · cases hc
  · cases hc

theorem Layout.blank_pretty : Layout.pretty.Blank := by
  refine ⟨fun depth c hc => ?_, fun c hc => ?_⟩
  · rcases List.mem_cons.mp hc with rfl | hc
    · rfl
    · rw [List.eq_of_mem_replicate hc]
      rfl
  · rw [List.mem_singleton.mp hc]
    rfl

section Write

variable {l : Layout}

theorem scans_separator (hl : l.Blank) (depth : Nat) (first : Bool) (rest : List Char) :
    Scans (separator l depth first ++ rest) (commaUnless first) rest := by
  have hblank := scans_blank (hl.newline (depth + 1)) rest
  cases first with
  | true => exact hblank
  | false => exact (scans_sign rfl _).trans hblank

/-- No number goes on with what stands between the parts of a container, or at its end. -/
theorem numberEnds_writeItems (hl : l.Blank) (depth : Nat) (vs : List Json) (rest : List Char) :
    NumberEnds (writeItems l depth false vs rest) := by
  cases vs with
  | nil =>
    rw [writeItems]
    exact (numberEnds_cons (by decide) rest).blank (hl.newline depth)
  | cons v vs => exact numberEnds_cons (by decide) _

theorem numberEnds_writeEntries (hl : l.Blank) (depth : Nat)
    (es : List (Option String × Json)) (rest : List Char) :
    NumberEnds (writeEntries l depth false es rest) := by
  cases es with
  | nil =>
    rw [writeEntries]
    exact (numberEnds_cons (by decide) rest).blank (hl.newline depth)
  | cons e es => exact numberEnds_cons (by decide) _

theorem scans_close (hl : l.Blank) {c : Char} {t : Token} (h : Token.ofSign? c = some t)
    (depth : Nat) (first : Bool) (rest : List Char) :
    Scans ((if first then [] else l.newline depth) ++ c :: rest) [t] rest := by
  have hclose := scans_sign h rest
  cases first with
  | true => exact hclose
  | false => exact (scans_blank (hl.newline depth) _).trans hclose

mutual

/-- A value is written with its tokens, in whatever layout. -/
theorem scans_write (hl : l.Blank) : (v : Json) → (depth : Nat) → {rest : List Char} →
    NumberEnds rest → Scans (write l depth v rest) v.tokens rest
  | .null, depth, rest, _ => scans_of_read? (c := 'n') (w := ['u', 'l', 'l']) (by decide) rfl
  | .bool true, depth, rest, _ => scans_of_read? (c := 't') (w := ['r', 'u', 'e']) (by decide) rfl
  | .bool false, depth, rest, _ =>
    scans_of_read? (c := 'f') (w := ['a', 'l', 's', 'e']) (by decide) rfl
  | .num n, depth, rest, h => scans_number n h l depth
  | .str s, depth, rest, _ => scans_string s rest
  | .arr items, depth, rest, _ =>
    (scans_sign rfl _).trans (scans_writeItems hl items depth true rest)
  | .obj entries, depth, rest, _ =>
    (scans_sign rfl _).trans (scans_writeEntries hl entries depth true rest)

theorem scans_writeItems (hl : l.Blank) : (vs : List Json) → (depth : Nat) → (first : Bool) →
    (rest : List Char) → Scans (writeItems l depth first vs rest) (itemTokens first vs) rest
  | [], depth, first, rest => scans_close hl rfl depth first rest
  | v :: vs, depth, first, rest => by
    have hv := scans_write hl v (depth + 1) (numberEnds_writeItems hl depth vs rest)
    have hvs := scans_writeItems hl vs depth false rest
    exact (scans_separator hl depth first _).trans (hv.trans hvs)

theorem scans_writeEntries (hl : l.Blank) : (es : List (Option String × Json)) → (depth : Nat) →
    (first : Bool) → (rest : List Char) →
    Scans (writeEntries l depth first es rest) (entryTokens first es) rest
  | [], depth, first, rest => scans_close hl rfl depth first rest
  | (name, v) :: es, depth, first, rest => by
    have hv := scans_write hl v (depth + 1) (numberEnds_writeEntries hl depth es rest)
    have hes := scans_writeEntries hl es depth false rest
    have hcolon : Scans
        (':' :: (l.afterColon ++ write l (depth + 1) v (writeEntries l depth false es rest)))
        (.colon :: (v.tokens ++ entryTokens false es)) rest :=
      (scans_sign rfl _).trans ((scans_blank hl.afterColon _).trans (hv.trans hes))
    have hname := (scans_string name _).trans hcolon
    have hentry := (scans_separator hl depth first _).trans hname
    rw [writeEntries, List.append_assoc, List.append_assoc]
    exact hentry

end

end Write

/-- All of a written value is cut into its tokens. -/
theorem scan_write {l : Layout} (hl : l.Blank) (v : Json) :
    scan 0 (write l 0 v []) = some v.tokens := by
  have h := scans_write hl v 0 numberEnds_nil
  unfold Scans at h
  rw [h, scan, Option.map_some, List.append_nil]

end PropCalc.Json
