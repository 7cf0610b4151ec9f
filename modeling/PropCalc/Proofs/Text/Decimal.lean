/-
  Indices as text.

  Digits write a number, and the same number is written by its decimal digits after any zeros
  (`digits_iff`). Reading digits goes past the bound of indices exactly where the digits in front
  of the first other character do, since the number never gets smaller (`readDigits_eq`). So a text
  is read as an index exactly if it writes one below the bound, and else there is one reason
  (`readIndex_trim_eq_ok_iff`, `readIndex_trim_eq_error_iff`).
-/
import PropCalc.Proofs.Text.Blank
import PropCalc.Text.Decimal

namespace PropCalc.Text

variable {acc n : Nat} {c : Char} {cs digits : List Char}

/-! ## Digits -/

theorem toNat_of_isDigit (hc : c.isDigit = true) : 48 ≤ c.toNat ∧ c.toNat ≤ 57 := by
  obtain ⟨hlow, hhigh⟩ := Bool.and_eq_true_iff.mp hc
  exact ⟨of_decide_eq_true hlow, of_decide_eq_true hhigh⟩

theorem digitValue_lt (hc : c.isDigit = true) : c.toNat - '0'.toNat < 10 :=
  Nat.sub_lt_left_of_lt_add (toNat_of_isDigit hc).1 (Nat.lt_succ_of_le (toNat_of_isDigit hc).2)

theorem isBlank_of_isDigit (hc : c.isDigit = true) : isBlank c = false := by
  obtain ⟨hlow, hhigh⟩ := toNat_of_isDigit hc
  simp only [isBlank, Bool.or_eq_false_iff, Bool.and_eq_false_iff, decide_eq_false_iff_not,
    beq_eq_false_iff_ne]
  omega

theorem isDigit_of_mem_decimal (h : c ∈ decimal n) : c.isDigit = true :=
  Nat.isDigit_of_mem_toDigits (by decide) (by decide) h

theorem decimal_ne_nil (n : Nat) : decimal n ≠ [] := Nat.toDigits_ne_nil

/-- Only the number zero is written with a zero in front. -/
theorem eq_zero_of_head?_decimal {n : Nat} (h : (decimal n).head? = some '0') : n = 0 := by
  induction n using Nat.strongRecOn with
  | ind n ih =>
    unfold decimal at h
    by_cases hn : n < 10
    · rw [Nat.toDigits_of_lt_base hn, List.head?_cons, Option.some.injEq] at h
      have hdigit : ∀ k < 10, Nat.digitChar k = '0' → k = 0 := by decide
      exact hdigit n hn h
    · rw [Nat.toDigits_of_base_le (by decide) (by omega), List.head?_append] at h
      have hne : Nat.toDigits 10 (n / 10) ≠ [] := Nat.toDigits_ne_nil
      rw [List.head?_eq_some_head hne, Option.some_or, ← List.head?_eq_some_head hne] at h
      have hfront := ih (n / 10) (by omega) h
      omega

/-- A digit is how the number that it stands for is written. -/
theorem decimal_digit (hc : c.isDigit = true) : decimal (c.toNat - '0'.toNat) = [c] := by
  have hlt := digitValue_lt hc
  have hsame : Nat.digitChar (c.toNat - '0'.toNat) = c := by
    apply Char.toNat_inj.mp
    rw [Nat.toNat_digitChar_of_lt_ten hlt]
    exact Nat.add_sub_cancel' (toNat_of_isDigit hc).1
  rw [decimal, Nat.toDigits_of_lt_base hlt, hsame]

theorem decimal_append (hn : 0 < n) (hcs : ∀ c ∈ cs, c.isDigit = true) :
    decimal n ++ cs = decimal (Nat.ofDigitChars 10 cs n) := by
  induction cs generalizing n with
  | nil => rw [List.append_nil, Nat.ofDigitChars_nil]
  | cons c cs ih =>
    obtain ⟨hc, hrest⟩ := List.forall_mem_cons.mp hcs
    have hnext : decimal n ++ [c] = decimal (10 * n + (c.toNat - '0'.toNat)) := by
      rw [← decimal_digit hc]
      exact Nat.toDigits_append_toDigits (by decide) hn (digitValue_lt hc)
    rw [Nat.ofDigitChars_cons, ← ih (by omega) hrest, ← hnext, List.append_assoc]
    rfl

theorem exists_zeros (hne : cs ≠ []) (hcs : ∀ c ∈ cs, c.isDigit = true) :
    ∃ zeros, cs = List.replicate zeros '0' ++ decimal (Nat.ofDigitChars 10 cs 0) := by
  induction cs with
  | nil => exact absurd rfl hne
  | cons c cs ih =>
    obtain ⟨hc, hrest⟩ := List.forall_mem_cons.mp hcs
    rw [Nat.ofDigitChars_cons, Nat.mul_zero, Nat.zero_add]
    -- a zero in front is left out of the number, unless it is all there is
    by_cases hlast : cs = []
    · subst hlast
      exact ⟨0, (decimal_digit hc).symm⟩
    · by_cases hzero : c = '0'
      · subst hzero
        obtain ⟨zeros, h⟩ := ih hlast hrest
        exact ⟨zeros + 1, congrArg ('0' :: ·) h⟩
      · have hpos : 0 < c.toNat - '0'.toNat := by
          have hdiffers : '0'.toNat ≠ c.toNat := fun h => hzero (Char.toNat_inj.mp h.symm)
          exact Nat.sub_pos_of_lt (Nat.lt_of_le_of_ne (toNat_of_isDigit hc).1 hdiffers)
        refine ⟨0, ?_⟩
        rw [← decimal_append hpos hrest, decimal_digit hc]
        rfl

/-- Digits write a number exactly if they are its decimal digits after zeros. -/
theorem digits_iff :
    (cs ≠ [] ∧ (∀ c ∈ cs, c.isDigit = true) ∧ Nat.ofDigitChars 10 cs 0 = n) ↔
      ∃ zeros, cs = List.replicate zeros '0' ++ decimal n := by
  constructor
  · rintro ⟨hne, hcs, rfl⟩
    exact exists_zeros hne hcs
  · rintro ⟨zeros, rfl⟩
    refine ⟨List.append_ne_nil_of_right_ne_nil _ (decimal_ne_nil n), ?_, ?_⟩
    · intro c hc
      rcases List.mem_append.mp hc with hc | hc
      · rw [List.eq_of_mem_replicate hc]
        rfl
      · exact isDigit_of_mem_decimal hc
    · rw [Nat.ofDigitChars_append, Nat.ofDigitChars_replicate_zero]
      exact Nat.ofDigitChars_ten_toDigits

/-! ## Reading digits -/

theorem le_ofDigitChars (acc : Nat) (cs : List Char) : acc ≤ Nat.ofDigitChars 10 cs acc := by
  induction cs generalizing acc with
  | nil => exact Nat.le_refl acc
  | cons c cs ih =>
    rw [Nat.ofDigitChars_cons]
    have hrest := ih (10 * acc + (c.toNat - '0'.toNat))
    omega

/-- The digits in front decide first. -/
theorem readDigits_eq (hacc : acc < wordBound) :
    readDigits acc cs =
      if wordBound ≤ Nat.ofDigitChars 10 (cs.takeWhile Char.isDigit) acc then .error .tooLarge
      else if cs.all Char.isDigit then .ok (Nat.ofDigitChars 10 cs acc)
      else .error .invalidDigit := by
  induction cs generalizing acc with
  | nil =>
    have hsmall : ¬ wordBound ≤ acc := Nat.not_le.mpr hacc
    rw [List.takeWhile_nil, Nat.ofDigitChars_nil, if_neg hsmall, if_pos List.all_nil, readDigits]
  | cons c cs ih =>
    rw [readDigits]
    by_cases hc : c.isDigit = true
    · rw [if_pos hc, List.takeWhile_cons_of_pos hc, Nat.ofDigitChars_cons, Nat.ofDigitChars_cons]
      simp only [List.all_cons, hc, Bool.true_and]
      by_cases hnext : 10 * acc + (c.toNat - '0'.toNat) < wordBound
      · rw [if_pos hnext, ih hnext]
      · have hlarge := le_ofDigitChars (10 * acc + (c.toNat - '0'.toNat))
          (cs.takeWhile Char.isDigit)
        rw [if_neg hnext, if_pos (by omega)]
    · have hsmall : ¬ wordBound ≤ acc := Nat.not_le.mpr hacc
      have hnot : ¬ (c :: cs).all Char.isDigit = true := by simp [hc]
      rw [if_neg hc, List.takeWhile_cons_of_neg hc, Nat.ofDigitChars_nil, if_neg hsmall,
        if_neg hnot]

/-! ## Reading an index -/

/-- What a `+` stands in front of, if something follows it; else all of the text. -/
def unsigned : List Char → List Char
  | '+' :: c :: cs => c :: cs
  | cs => cs

theorem readIndex_eq (cs : List Char) :
    readIndex cs = if cs = [] then .error .empty else readDigits 0 (unsigned cs) := by
  unfold readIndex unsigned
  split <;> simp_all

theorem unsigned_eq_iff (hne : digits ≠ []) (hdigits : ∀ c ∈ digits, c.isDigit = true) :
    unsigned cs = digits ↔ cs = digits ∨ cs = '+' :: digits := by
  have hplus : '+' ∉ digits := fun h => absurd (hdigits '+' h) (by decide)
  unfold unsigned
  split
  · next c cs =>
    constructor
    · rintro rfl
      exact .inr rfl
    · rintro (rfl | h)
      · exact absurd List.mem_cons_self hplus
      · exact (List.cons.inj h).2
  · next hother =>
    constructor
    · exact .inl
    · rintro (h | rfl)
      · exact h
      · cases digits with
        | nil => exact absurd rfl hne
        | cons d ds => exact absurd rfl (hother d ds)

theorem unsigned_ne_nil (h : cs ≠ []) : unsigned cs ≠ [] := by
  unfold unsigned
  split
  · exact List.cons_ne_nil _ _
  · exact h

/-- Why a text that has no blanks at its ends is no index, if it is none: nothing is there, or the
    digits in front of the first other character, after a `+` that something follows, make a number
    past the bound, or else that other character is wrong. -/
def indexFault (cs : List Char) : IndexError :=
  if cs = [] then .empty
  else if wordBound ≤ Nat.ofDigitChars 10 ((unsigned cs).takeWhile Char.isDigit) 0 then .tooLarge
  else .invalidDigit

theorem readIndex_eq_ok_iff_digits :
    readIndex cs = .ok n ↔ n < wordBound ∧ unsigned cs ≠ [] ∧
      (∀ c ∈ unsigned cs, c.isDigit = true) ∧ Nat.ofDigitChars 10 (unsigned cs) 0 = n := by
  rw [readIndex_eq]
  by_cases hcs : cs = []
  · subst hcs
    simp [unsigned]
  · rw [if_neg hcs, readDigits_eq (by decide)]
    by_cases hdigits : ∀ c ∈ unsigned cs, c.isDigit = true
    · have hall : (unsigned cs).takeWhile Char.isDigit = unsigned cs := by
        rw [← List.append_nil (unsigned cs), List.takeWhile_append_of_pos hdigits,
          List.takeWhile_nil]
      rw [hall, if_pos (List.all_eq_true.mpr hdigits)]
      by_cases hlarge : wordBound ≤ Nat.ofDigitChars 10 (unsigned cs) 0
      · rw [if_pos hlarge]
        constructor
        · rintro ⟨⟩
        · rintro ⟨hn, -, -, rfl⟩
          omega
      · rw [if_neg hlarge, Except.ok.injEq]
        constructor
        · rintro rfl
          exact ⟨by omega, unsigned_ne_nil hcs, hdigits, rfl⟩
        · rintro ⟨-, -, -, h⟩
          exact h
    · rw [if_neg (mt List.all_eq_true.mp hdigits)]
      constructor
      · intro h
        split at h <;> cases h
      · rintro ⟨-, -, h, -⟩
        exact absurd h hdigits

theorem readIndex_eq_ok_iff :
    readIndex cs = .ok n ↔ n < wordBound ∧
      ∃ sign zeros, (sign = [] ∨ sign = ['+']) ∧
        cs = sign ++ (List.replicate zeros '0' ++ decimal n) := by
  rw [readIndex_eq_ok_iff_digits, digits_iff]
  apply and_congr_right
  intro _
  have hunsigned : ∀ zeros, unsigned cs = List.replicate zeros '0' ++ decimal n ↔
      cs = List.replicate zeros '0' ++ decimal n ∨
        cs = '+' :: (List.replicate zeros '0' ++ decimal n) := by
    intro zeros
    obtain ⟨hne, hdigits, -⟩ := digits_iff.mpr ⟨zeros, rfl⟩
    exact unsigned_eq_iff hne hdigits
  simp only [hunsigned]
  constructor
  · rintro ⟨zeros, h | h⟩
    · exact ⟨[], zeros, .inl rfl, h⟩
    · exact ⟨['+'], zeros, .inr rfl, h⟩
  · rintro ⟨sign, zeros, rfl | rfl, h⟩
    · exact ⟨zeros, .inl h⟩
    · exact ⟨zeros, .inr h⟩

/-- There is one reason for a text to be no index. -/
theorem readIndex_eq_error_iff {reason : IndexError} :
    readIndex cs = .error reason ↔ (∀ n, readIndex cs ≠ .ok n) ∧ reason = indexFault cs := by
  rw [readIndex_eq]
  unfold indexFault
  by_cases hcs : cs = []
  · simp [hcs, eq_comm]
  · rw [if_neg hcs, if_neg hcs, readDigits_eq (by decide)]
    by_cases hlarge : wordBound ≤
        Nat.ofDigitChars 10 ((unsigned cs).takeWhile Char.isDigit) 0
    · rw [if_pos hlarge, if_pos hlarge]
      simp [eq_comm]
    · rw [if_neg hlarge, if_neg hlarge]
      cases (unsigned cs).all Char.isDigit <;> simp [eq_comm]

/-! ## Indices between blanks -/

/-- Between blanks the text writes a number that an index can be: its decimal digits, with or
    without zeros in front, and these with or without a `+` in front. -/
def WritesIndex (cs : List Char) (n : Nat) : Prop :=
  n < wordBound ∧ ∃ before sign zeros after,
    allBlank before = true ∧ allBlank after = true ∧ (sign = [] ∨ sign = ['+']) ∧
    cs = before ++ (sign ++ (List.replicate zeros '0' ++ decimal n)) ++ after

theorem writesIndex_decimal (h : n < wordBound) : WritesIndex (decimal n) n :=
  ⟨h, [], [], 0, [], rfl, rfl, .inl rfl, (List.append_nil _).symm⟩

/-- No blank is in what is read as an index. -/
theorem isBlank_of_readIndex (h : readIndex cs = .ok n) (hc : c ∈ cs) : isBlank c = false := by
  obtain ⟨-, sign, zeros, hsign, rfl⟩ := readIndex_eq_ok_iff.mp h
  obtain ⟨-, hdigits, -⟩ := digits_iff.mpr ⟨zeros, rfl⟩
  rcases List.mem_append.mp hc with hc | hc
  · rcases hsign with rfl | rfl
    · cases hc
    · rw [List.mem_singleton.mp hc]
      decide
  · exact isBlank_of_isDigit (hdigits c hc)

theorem readIndex_trim_eq_ok_iff : readIndex (trim cs) = .ok n ↔ WritesIndex cs n := by
  constructor
  · intro h
    obtain ⟨before, after, hbefore, hafter, hcs⟩ := (trimmed_trim cs).between
    obtain ⟨hn, sign, zeros, hsign, hcore⟩ := readIndex_eq_ok_iff.mp h
    rw [hcore] at hcs
    exact ⟨hn, before, sign, zeros, after, hbefore, hafter, hsign, hcs⟩
  · rintro ⟨hn, before, sign, zeros, after, hbefore, hafter, hsign, hcs⟩
    have h : readIndex (sign ++ (List.replicate zeros '0' ++ decimal n)) = .ok n :=
      readIndex_eq_ok_iff.mpr ⟨hn, sign, zeros, hsign, rfl⟩
    have htrim : trim cs = sign ++ (List.replicate zeros '0' ++ decimal n) :=
      trimmed_iff.mp ⟨⟨before, after, hbefore, hafter, hcs⟩,
        fun c hc => isBlank_of_readIndex h (List.mem_of_head? hc),
        fun c hc => isBlank_of_readIndex h (List.mem_of_getLast? hc)⟩
    rw [htrim, h]

theorem readIndex_trim_eq_error_iff {reason : IndexError} :
    readIndex (trim cs) = .error reason ↔
      (∀ n, ¬ WritesIndex cs n) ∧ reason = indexFault (trim cs) := by
  rw [readIndex_eq_error_iff]
  simp only [ne_eq, readIndex_trim_eq_ok_iff]

end PropCalc.Text
