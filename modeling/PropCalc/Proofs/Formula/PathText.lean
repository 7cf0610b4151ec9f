/-
  Which texts are read as which path, and what is wrong with the others.

  What is left of a text without the blanks at its ends and then without a pair of brackets around
  it is `Inside` the text. If only blanks are there, that is the root. Else it is a list of items
  with commas between them, in one way (`listed_iff`), and each item must write an index below the
  bound of indices; the first that does not gives the error (`mapM_eq_ok_iff`,
  `mapM_eq_error_iff`). So is a path read from the texts that write it and from no others
  (`readChars_eq_ok_iff`). The text that a path is shown as is one of them (`readChars_chars`,
  `reading_exact`); the indices of a position in a formula are 0 or 1, hence below the bound
  (`inWords_of_subformula`).
-/
import Mathlib.Data.List.Forall2
import PropCalc.Formula.PathText
import PropCalc.Proofs.Formula.Places
import PropCalc.Proofs.Text.Decimal

namespace PropCalc

/-! ## Reading one thing after the other -/

section Readers

variable {α β ε : Type} {reason : ε}

theorem bind_eq_ok_iff {x : Except ε α} {f : α → Except ε β} {b : β} :
    (x >>= f) = .ok b ↔ ∃ a, x = .ok a ∧ f a = .ok b := by
  cases x <;> simp [bind, Except.bind]

theorem bind_eq_error_iff {x : Except ε α} {f : α → Except ε β} :
    (x >>= f) = .error reason ↔ x = .error reason ∨ ∃ a, x = .ok a ∧ f a = .error reason := by
  cases x <;> simp [bind, Except.bind]

variable {f : α → Except ε β} {xs : List α}

/-- All items are read if each of them is. -/
theorem mapM_eq_ok_iff {ys : List β} :
    xs.mapM f = .ok ys ↔ List.Forall₂ (fun x y => f x = .ok y) xs ys := by
  induction xs generalizing ys with
  | nil => cases ys <;> simp [pure, Except.pure]
  | cons x xs ih =>
    simp only [List.mapM_cons, bind_eq_ok_iff, ih]
    cases ys <;> simp [pure, Except.pure]

theorem mapM_cons_eq_error_iff {x : α} :
    (x :: xs).mapM f = .error reason ↔
      f x = .error reason ∨ (∃ y, f x = .ok y) ∧ xs.mapM f = .error reason := by
  simp only [List.mapM_cons, bind_eq_error_iff]
  simp [pure, Except.pure]

/-- The error is that of the first item that is not read. -/
theorem mapM_eq_error_iff :
    xs.mapM f = .error reason ↔ ∃ before x after, xs = before ++ x :: after ∧
      (∀ b ∈ before, ∃ y, f b = .ok y) ∧ f x = .error reason := by
  induction xs with
  | nil => simp [pure, Except.pure]
  | cons x xs ih =>
    rw [mapM_cons_eq_error_iff, ih]
    constructor
    · rintro (hx | ⟨hx, before, x', after, rfl, hbefore, hx'⟩)
      · exact ⟨[], x, xs, rfl, by simp, hx⟩
      · exact ⟨x :: before, x', after, rfl, List.forall_mem_cons.mpr ⟨hx, hbefore⟩, hx'⟩
    · rintro ⟨before, x', after, hxs, hbefore, hx'⟩
      cases before with
      | nil =>
        obtain ⟨rfl, rfl⟩ := List.cons.inj hxs
        exact .inl hx'
      | cons b before =>
        obtain ⟨rfl, rfl⟩ := List.cons.inj hxs
        obtain ⟨hx, hbefore⟩ := List.forall_mem_cons.mp hbefore
        exact .inr ⟨hx, before, x', after, rfl, hbefore, hx'⟩

end Readers

namespace Path

/-! ## What is inside a text -/

/-- What is left of a text without the blanks at its ends and then without a pair of brackets
    around it. -/
def Inside (cs inner : List Char) : Prop :=
  ∃ core, Text.Trimmed cs core ∧
    (core = '[' :: (inner ++ [']']) ∨ core = inner ∧ ∀ bare, core ≠ '[' :: (bare ++ [']']))

theorem unbracketed_of_brackets (inner : List Char) :
    unbracketed ('[' :: (inner ++ [']'])) = inner := by
  have hlast : (inner ++ [']']).getLast? = some ']' := List.getLast?_concat
  show (if (inner ++ [']']).getLast? = some ']' then (inner ++ [']']).dropLast else _) = _
  rw [if_pos hlast, List.dropLast_concat]

theorem unbracketed_of_none {cs : List Char} (h : ∀ bare, cs ≠ '[' :: (bare ++ [']'])) :
    unbracketed cs = cs := by
  unfold unbracketed
  split
  · next inner =>
    rw [if_neg]
    intro hlast
    obtain ⟨bare, hbare⟩ := List.getLast?_eq_some_iff.mp hlast
    exact h bare (congrArg ('[' :: ·) hbare)
  · rfl

theorem inside_iff {cs inner : List Char} :
    Inside cs inner ↔ unbracketed (Text.trim cs) = inner := by
  constructor
  · rintro ⟨core, hcore, rfl | ⟨rfl, hbare⟩⟩
    · rw [Text.trimmed_iff.mp hcore, unbracketed_of_brackets]
    · rw [Text.trimmed_iff.mp hcore, unbracketed_of_none hbare]
  · rintro rfl
    refine ⟨Text.trim cs, Text.trimmed_trim cs, ?_⟩
    by_cases h : ∃ bare, Text.trim cs = '[' :: (bare ++ [']'])
    · obtain ⟨bare, hbare⟩ := h
      rw [hbare, unbracketed_of_brackets]
      exact .inl rfl
    · have hbare := not_exists.mp h
      exact .inr ⟨(unbracketed_of_none hbare).symm, hbare⟩

/-! ## Lists of items -/

/-- The text is these items with commas between them. -/
structure Listed (cs : List Char) (items : List (List Char)) : Prop where
  nonempty : items ≠ []
  comma : ∀ item ∈ items, ',' ∉ item
  eq : cs = List.intercalate [','] items

theorem not_mem_of_mem_splitOn {c : Char} {cs item : List Char} (h : item ∈ cs.splitOn c) :
    c ∉ item := by
  induction cs generalizing item with
  | nil =>
    rw [List.splitOn_nil, List.mem_singleton] at h
    rw [h]
    exact List.not_mem_nil
  | cons x cs ih =>
    rw [List.splitOn_cons_eq_if_modifyHead] at h
    by_cases hx : x = c
    · rw [if_pos (by simpa using hx)] at h
      rcases List.mem_cons.mp h with rfl | h
      · exact List.not_mem_nil
      · exact ih h
    · rw [if_neg (by simpa using hx)] at h
      cases hitems : cs.splitOn c with
      | nil => exact absurd hitems (List.splitOn_ne_nil c cs)
      | cons first rest =>
        rw [hitems] at h
        rcases List.mem_cons.mp h with rfl | h
        · have hfirst : c ∉ first := ih (hitems ▸ List.mem_cons_self)
          exact List.not_mem_cons_of_ne_of_not_mem (Ne.symm hx) hfirst
        · exact ih (hitems ▸ List.mem_cons_of_mem first h)

theorem listed_iff {cs : List Char} {items : List (List Char)} :
    Listed cs items ↔ cs.splitOn ',' = items := by
  constructor
  · rintro ⟨hne, hcomma, rfl⟩
    exact List.splitOn_intercalate ',' hcomma hne
  · rintro rfl
    exact ⟨List.splitOn_ne_nil _ _, fun item => not_mem_of_mem_splitOn,
      (List.intercalate_splitOn ',').symm⟩

/-! ## Reading a path -/

/-- All indices are below the bound of indices. -/
def InWords (p : Path) : Prop := ∀ i ∈ p, i < Text.wordBound

instance (p : Path) : Decidable p.InWords := inferInstanceAs (Decidable (∀ i ∈ p, _))

/-- A path of indices that are there consists of zeros and ones. -/
theorem inWords_of_subformula {e f : Formula} {p : Path} (h : e.subformula p = some f) :
    p.InWords := by
  induction p generalizing e with
  | nil =>
    intro i hi
    cases hi
  | cons i p ih =>
    rw [Formula.subformula_cons] at h
    obtain ⟨child, hchild, hbelow⟩ := Option.bind_eq_some_iff.mp h
    have hlength : e.children.length ≤ 2 := by
      cases e <;> simp [Formula.children]
    obtain ⟨hi, -⟩ := List.getElem?_eq_some_iff.mp hchild
    have hword : i < Text.wordBound := by
      unfold Text.wordBound
      omega
    exact List.forall_mem_cons.mpr ⟨hword, ih hbelow⟩

variable {cs inner : List Char}

theorem readChars_of_inside (h : Inside cs inner) :
    readChars cs =
      if Text.allBlank inner then .ok []
      else (inner.splitOn ',').mapM fun item => Text.readIndex (Text.trim item) := by
  unfold readChars
  rw [inside_iff.mp h]

/-- Blanks alone are no index. -/
theorem not_writesIndex_of_allBlank (h : Text.allBlank cs = true) (n : Nat) :
    ¬ Text.WritesIndex cs n := by
  intro hn
  rw [← Text.readIndex_trim_eq_ok_iff, Text.trim_eq_nil_iff.mpr h] at hn
  cases hn

theorem not_comma_mem_of_allBlank (h : Text.allBlank inner = true) : ',' ∉ inner := by
  intro hcomma
  exact absurd (List.all_eq_true.mp h ',' hcomma) (by decide)

/-- A text is read as the root if only blanks are inside it, and else as the indices that the items
    inside it write. -/
theorem readChars_eq_ok_iff (h : Inside cs inner) {p : Path} :
    readChars cs = .ok p ↔ Text.allBlank inner = true ∧ p = [] ∨
      ∃ items, Listed inner items ∧ List.Forall₂ Text.WritesIndex items p := by
  rw [readChars_of_inside h]
  simp only [listed_iff, exists_eq_left']
  by_cases hblank : Text.allBlank inner = true
  · have hone := List.splitOn_eq_singleton (not_comma_mem_of_allBlank hblank)
    rw [if_pos hblank, hone, Except.ok.injEq]
    constructor
    · rintro rfl
      exact .inl ⟨hblank, rfl⟩
    · rintro (⟨-, rfl⟩ | hwrites)
      · rfl
      · cases hwrites with
        | cons hfirst _ => exact absurd hfirst (not_writesIndex_of_allBlank hblank _)
  · rw [if_neg hblank, mapM_eq_ok_iff]
    simp only [Text.readIndex_trim_eq_ok_iff]
    simp [hblank]

/-- The error is that of the first item that writes no index. -/
theorem readChars_eq_error_iff (h : Inside cs inner) {reason : Text.IndexError} :
    readChars cs = .error reason ↔ Text.allBlank inner = false ∧
      ∃ before item after, Listed inner (before ++ item :: after) ∧
        (∀ b ∈ before, ∃ n, Text.WritesIndex b n) ∧ (∀ n, ¬ Text.WritesIndex item n) ∧
        ∃ core, Text.Trimmed item core ∧ reason = Text.indexFault core := by
  rw [readChars_of_inside h]
  simp only [listed_iff, Text.trimmed_iff, exists_eq_left']
  by_cases hblank : Text.allBlank inner = true
  · simp [hblank]
  · rw [if_neg hblank, mapM_eq_error_iff]
    simp only [Text.readIndex_trim_eq_ok_iff, Text.readIndex_trim_eq_error_iff]
    simp [hblank]

/-! ## Reading back -/

/-- What stands between the brackets. -/
def inside (p : Path) : List Char := List.intercalate [','] (p.map Text.decimal)

theorem inside_chars (p : Path) : Inside (chars p) (inside p) := by
  have hlast : (chars p).getLast? = some ']' := by
    unfold chars
    rw [← List.cons_append, List.getLast?_concat]
  refine ⟨chars p, ⟨⟨[], [], rfl, rfl, (List.append_nil _).symm⟩, fun c hc => ?_,
    fun c hc => ?_⟩, .inl rfl⟩
  · obtain rfl : '[' = c := Option.some.inj hc
    decide
  · rw [hlast] at hc
    obtain rfl : ']' = c := Option.some.inj hc
    decide

theorem listed_inside {p : Path} (hp : p ≠ []) : Listed (inside p) (p.map Text.decimal) := by
  refine ⟨by simpa using hp, fun item hitem hcomma => ?_, rfl⟩
  obtain ⟨i, -, rfl⟩ := List.mem_map.mp hitem
  exact absurd (Text.isDigit_of_mem_decimal hcomma) (by decide)

theorem readChars_chars {p : Path} (hp : p.InWords) : readChars (chars p) = .ok p := by
  rw [readChars_eq_ok_iff (inside_chars p)]
  by_cases hroot : p = []
  · subst hroot
    exact .inl ⟨rfl, rfl⟩
  · refine .inr ⟨_, listed_inside hroot, ?_⟩
    rw [List.forall₂_map_left_iff, List.forall₂_same]
    intro i hi
    exact Text.writesIndex_decimal (hp i hi)

/-- Reading paths is exact. A path with indices below the bound is read back from the text that it
    is shown as. Of any text there is one part inside, left without the blanks at the ends of the
    text and then without a pair of brackets around it. The text is read as a path exactly if only
    blanks are inside and the path is the root, or a list is inside whose items write the indices
    of the path, each between blanks, after a `+` or not, and after any number of zeros. Else the
    error is that of the first item that writes no index. -/
theorem reading_exact :
    (∀ p : Path, p.InWords → read p.text = .ok p) ∧
    ∀ text : String, ∃ inner, (∀ other, Inside text.toList other ↔ other = inner) ∧
      (∀ p, read text = .ok p ↔ Text.allBlank inner = true ∧ p = [] ∨
        ∃ items, Listed inner items ∧ List.Forall₂ Text.WritesIndex items p) ∧
      ∀ reason, read text = .error reason ↔ Text.allBlank inner = false ∧
        ∃ before item after, Listed inner (before ++ item :: after) ∧
          (∀ b ∈ before, ∃ n, Text.WritesIndex b n) ∧ (∀ n, ¬ Text.WritesIndex item n) ∧
          ∃ core, Text.Trimmed item core ∧ reason = Text.indexFault core := by
  constructor
  · intro p hp
    unfold read text
    rw [String.toList_ofList, readChars_chars hp]
  · intro text
    have hinside : ∀ other, Inside text.toList other ↔
        other = unbracketed (Text.trim text.toList) := fun other => by rw [inside_iff, eq_comm]
    have h := (hinside _).mpr rfl
    exact ⟨_, hinside, fun p => readChars_eq_ok_iff h, fun reason => readChars_eq_error_iff h⟩

/-- The second item is past the bound before its wrong character, and there are two empty ones. -/
example : read " [ 2 ,+007]" = .ok [2, 7] ∧
    read "1,18446744073709551616x,," = .error .tooLarge := by
  decide +kernel

end Path

end PropCalc
