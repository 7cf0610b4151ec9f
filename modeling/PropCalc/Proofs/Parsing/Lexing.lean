/-
  Texts cut into tokens.

  `Lexed cs ts` is the rule: blanks are dropped, and anywhere else the longest spelling that
  starts there is taken. `Lexeme.scan` follows it, with offsets besides: a text scans exactly if
  it can be cut so, and into those tokens (`lexed_iff`).
-/
import PropCalc.Parsing.Lexer
import PropCalc.Proofs.Parsing.Spelling

namespace PropCalc

open Token (Spells Longest)
open Name (IsWord Ended)

/-- The text consists of these tokens, each spelled as long as can be, with blanks anywhere
    between them and at both ends. -/
inductive Lexed : List Char → List Token → Prop
  | done : Lexed [] []
  | blank {c cs ts} : Text.isBlank c = true → Lexed cs ts → Lexed (c :: cs) ts
  | token {w rest t ts} : Spells w t → Longest w rest → Lexed rest ts →
      Lexed (w ++ rest) (t :: ts)

/-! ## No spelling starts with a blank -/

theorem Name.bounds_of_isAlpha {c : Char} (h : c.isAlpha = true) :
    (65 ≤ c.toNat ∧ c.toNat ≤ 90) ∨ (97 ≤ c.toNat ∧ c.toNat ≤ 122) := by
  rcases Bool.or_eq_true_iff.mp h with hupper | hlower
  · exact .inl (of_decide_eq_true hupper)
  · obtain ⟨hlow, hhigh⟩ := Bool.and_eq_true_iff.mp hlower
    exact .inr ⟨of_decide_eq_true hlow, of_decide_eq_true hhigh⟩

/-- No character of a word is a blank. -/
theorem Name.isBlank_of_continues {c : Char} (h : continues c = true) :
    Text.isBlank c = false := by
  have hbounds : ((65 ≤ c.toNat ∧ c.toNat ≤ 90) ∨ (97 ≤ c.toNat ∧ c.toNat ≤ 122)) ∨
      (48 ≤ c.toNat ∧ c.toNat ≤ 57) ∨
      ((913 ≤ c.toNat ∧ c.toNat ≤ 937) ∨ (945 ≤ c.toNat ∧ c.toNat ≤ 969)) := by
    rcases Bool.or_eq_true_iff.mp h with halphanum | hgreek
    · rcases Bool.or_eq_true_iff.mp halphanum with halpha | hdigit
      · exact .inl (Name.bounds_of_isAlpha halpha)
      · obtain ⟨hlow, hhigh⟩ := Bool.and_eq_true_iff.mp hdigit
        exact .inr (.inl ⟨of_decide_eq_true hlow, of_decide_eq_true hhigh⟩)
    · simp only [isGreek, Bool.or_eq_true, Bool.and_eq_true, decide_eq_true_eq] at hgreek
      exact .inr (.inr hgreek)
  simp only [Text.isBlank, Bool.or_eq_false_iff, Bool.and_eq_false_iff, decide_eq_false_iff_not,
    beq_eq_false_iff_ne]
  omega

theorem Name.isBlank_of_starts {c : Char} (h : starts c = true) : Text.isBlank c = false :=
  Name.isBlank_of_continues (Name.continues_of_starts h)

theorem Token.isBlank_of_spells {c : Char} {cs : List Char} {t : Token}
    (h : Spells (c :: cs) t) : Text.isBlank c = false := by
  cases h with
  | name hn =>
    rcases hn with ⟨⟨_, _, heq, hc, -⟩, -⟩ | ⟨_, heq, -⟩
    · cases heq
      exact Name.isBlank_of_starts hc
    · cases heq
      decide
  | _ => decide

namespace Lexeme

/-- Number of bytes in UTF-8. -/
def bytes : List Char → Nat
  | [] => 0
  | c :: cs => c.utf8Size + bytes cs

@[simp] theorem bytes_nil : bytes [] = 0 := rfl

@[simp] theorem bytes_cons (c : Char) (cs : List Char) :
    bytes (c :: cs) = c.utf8Size + bytes cs := rfl

@[simp] theorem bytes_append (cs ds : List Char) : bytes (cs ++ ds) = bytes cs + bytes ds := by
  induction cs with
  | nil => simp
  | cons c cs ih => rw [List.cons_append, bytes_cons, bytes_cons, ih, Nat.add_assoc]

theorem bytes_pos {cs : List Char} (h : cs ≠ []) : 0 < bytes cs := by
  match cs with
  | [] => exact absurd rfl h
  | c :: cs =>
    have hc := c.utf8Size_pos
    rw [bytes_cons]
    omega

/-! ## One step of the scan -/

/-- Skipping characters is scanning what comes after them. -/
theorem scan_skip (offset n : Nat) (cs : List Char) :
    scan offset n cs = scan (offset + bytes (cs.take n)) 0 (cs.drop n) := by
  induction cs generalizing offset n with
  | nil => simp [scan]
  | cons c cs ih =>
    cases n with
    | zero => simp
    | succ n =>
      rw [scan, ih]
      simp [Nat.add_assoc]

theorem scan_blank {c : Char} (hc : Text.isBlank c = true) (offset : Nat) (cs : List Char) :
    scan offset 0 (c :: cs) = scan (offset + c.utf8Size) 0 cs := by
  simp only [scan, if_pos hc]

theorem scan_token {w rest : List Char} {t : Token} (h : Spells w t)
    (hrest : IsWord w → Ended rest) (offset : Nat) :
    scan offset 0 (w ++ rest) =
      (scan (offset + bytes w) 0 rest).map (⟨t, w, offset⟩ :: ·) := by
  have hread := Token.read?_of_spells h hrest
  match w with
  | [] => exact absurd rfl (Token.ne_nil_of_spells h)
  | c :: w =>
    have hblank : Text.isBlank c = false := Token.isBlank_of_spells h
    simp only [List.cons_append] at hread ⊢
    simp only [scan, hblank, hread, List.length_cons, Nat.add_sub_cancel]
    rw [scan_skip _ w.length]
    simp [bytes, Nat.add_assoc]

/-- A scan that goes on has dropped a blank or taken a longest spelling. -/
theorem scan_cases {c : Char} {cs : List Char} {offset : Nat} {ls : List Lexeme}
    (h : scan offset 0 (c :: cs) = .ok ls) :
    (Text.isBlank c = true ∧ scan (offset + c.utf8Size) 0 cs = .ok ls) ∨
    (∃ w rest t ls', c :: cs = w ++ rest ∧ Spells w t ∧ (IsWord w → Ended rest) ∧
      scan (offset + bytes w) 0 rest = .ok ls' ∧ ls = ⟨t, w, offset⟩ :: ls') := by
  by_cases hc : Text.isBlank c = true
  · rw [scan_blank hc] at h
    exact .inl ⟨hc, h⟩
  · right
    cases hread : Token.read? (c :: cs) with
    | none => simp [scan, hc, hread] at h
    | some found =>
      obtain ⟨t, n⟩ := found
      obtain ⟨w, rest, heq, -, hw, hrest⟩ := Token.spells_of_read? hread
      rw [heq, scan_token hw hrest] at h
      cases hscan : scan (offset + bytes w) 0 rest with
      | error _ =>
        rw [hscan] at h
        simp [Except.map] at h
      | ok ls' =>
        rw [hscan] at h
        have hls : ⟨t, w, offset⟩ :: ls' = ls := Except.ok.inj h
        exact ⟨w, rest, t, ls', heq, hw, hrest, hscan, hls.symm⟩

/-! ## The whole scan -/

theorem scan_of_lexed {cs : List Char} {ts : List Token} (h : Lexed cs ts) (offset : Nat) :
    ∃ ls, scan offset 0 cs = .ok ls ∧ ls.map token = ts := by
  induction h generalizing offset with
  | done => exact ⟨[], rfl, rfl⟩
  | blank hc _ ih =>
    rw [scan_blank hc]
    exact ih _
  | @token w rest t _ hw hlong _ ih =>
    obtain ⟨ls, hls, rfl⟩ := ih (offset + bytes w)
    refine ⟨⟨t, w, offset⟩ :: ls, ?_, rfl⟩
    rw [scan_token hw ((Token.longest_iff hw).mp hlong), hls]
    rfl

theorem lexed_of_scan {cs : List Char} {offset : Nat} {ls : List Lexeme}
    (h : scan offset 0 cs = .ok ls) : Lexed cs (ls.map token) := by
  -- on the length, since a token takes several characters at once
  induction hn : cs.length using Nat.strongRecOn generalizing cs offset ls with
  | ind n ih =>
    match cs with
    | [] =>
      have hnil : [] = ls := Except.ok.inj h
      rw [← hnil]
      exact .done
    | c :: cs =>
      rw [List.length_cons] at hn
      rcases scan_cases h with ⟨hc, h⟩ | ⟨w, rest, t, ls', heq, hw, hrest, hscan, rfl⟩
      · have hlt : cs.length < n := by omega
        exact .blank hc (ih _ hlt h rfl)
      · have hpos : 0 < w.length := List.length_pos_iff.mpr (Token.ne_nil_of_spells hw)
        have hlength : cs.length + 1 = w.length + rest.length := by
          rw [← List.length_cons, heq, List.length_append]
        have hlt : rest.length < n := by omega
        rw [heq]
        exact .token hw ((Token.longest_iff hw).mpr hrest) (ih _ hlt hscan rfl)

theorem lexed_iff {cs : List Char} {ts : List Token} :
    Lexed cs ts ↔ ∃ ls, ofChars cs = .ok ls ∧ ls.map token = ts := by
  constructor
  · exact fun h => scan_of_lexed h 0
  · rintro ⟨ls, h, rfl⟩
    exact lexed_of_scan h

end Lexeme

namespace Lexed

/-- A text is cut in one way only. -/
theorem unique {cs : List Char} {ts ts' : List Token} (h : Lexed cs ts) (h' : Lexed cs ts') :
    ts = ts' := by
  obtain ⟨ls, hls, rfl⟩ := Lexeme.lexed_iff.mp h
  obtain ⟨ls', hls', rfl⟩ := Lexeme.lexed_iff.mp h'
  have hsame : ls = ls' := Except.ok.inj (hls.symm.trans hls')
  rw [hsame]

/-- The names among the tokens of a text are names that a text can hold. -/
theorem valid_of_mem {cs : List Char} {ts : List Token} (h : Lexed cs ts) {x : String}
    (hx : .var x ∈ ts) : Name.Valid x := by
  induction h with
  | done => cases hx
  | blank _ _ ih => exact ih hx
  | token hw _ _ ih =>
    rcases List.mem_cons.mp hx with heq | hx
    · cases hw with
      | name hn =>
        cases heq
        simpa [Name.Valid] using hn
      | _ => cases heq
    · exact ih hx

end Lexed

end PropCalc
