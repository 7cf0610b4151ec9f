/-
  Comma-separated values are read back.

  The reader knows nothing of the writer. Inside quotes it takes every character, and a quote only
  if it is doubled; outside of them a comma ends a field and a line feed ends a record. A written
  field leads it from the start of a field to a place outside of quotes with the characters of the
  field (`Reading.run_field`), so that the comma or line feed behind the field is taken for what it
  is. So it is along a record and along a text (`read_text`), whatever the fields are, and rows
  that differ in any field have different texts (`Listing.csv_loses_nothing`).
-/
import Mathlib.Data.List.Basic
import PropCalc.Listing.Rows
import PropCalc.Proofs.Text.Decimal

namespace PropCalc

namespace Csv

/-! ## The reader -/

/-- What the next character of a text belongs to. -/
inductive Place
  /-- It is the first one of a field, or ends a field that is empty. -/
  | start
  /-- It belongs to a field without quotes, or ends it. -/
  | bare
  /-- It stands inside quotes. -/
  | quoted
  /-- A quote has come inside quotes: it was the last one, unless another one follows at once. -/
  | closed
  deriving DecidableEq, Repr

/-- The reader between two characters. What it has read is kept in reverse order. -/
structure Reading where
  place : Place
  /-- of the field that has not ended -/
  chars : List Char
  fields : List String
  records : List (List String)

namespace Reading

/-- Nothing of a record has been read. -/
def atRecord (records : List (List String)) : Reading := ⟨.start, [], [], records⟩

def add (s : Reading) (place : Place) (c : Char) : Reading :=
  { s with place := place, chars := c :: s.chars }

def endField (s : Reading) : Reading :=
  ⟨.start, [], String.ofList s.chars.reverse :: s.fields, s.records⟩

def endRecord (s : Reading) : Reading := atRecord (s.endField.fields.reverse :: s.records)

/-- The state after a character, or `none` if the character cannot stand here: outside of quotes
    there is no carriage return, a quote comes first in its field, and nothing but the end of the
    field follows the closing one. -/
def step (s : Reading) (c : Char) : Option Reading :=
  if s.place = .quoted then
    some (if c = '"' then { s with place := .closed } else s.add .quoted c)
  else if c = ',' then some s.endField
  else if c = '\n' then some s.endRecord
  else match s.place with
    | .start =>
      if c = '"' then some { s with place := .quoted }
      else if c = '\r' then none else some (s.add .bare c)
    | .bare => if c = '"' ∨ c = '\r' then none else some (s.add .bare c)
    | .quoted | .closed => if c = '"' then some (s.add .quoted c) else none

/-- The records at the end of a text, where the line feed of the last one may be missing. -/
def finish (s : Reading) : Option (List (List String)) :=
  match s.place, s.fields with
  | .quoted, _ => none
  | .start, [] => some s.records.reverse
  | _, _ => some s.endRecord.records.reverse

/-- Takes all characters. -/
def run (s : Reading) (cs : List Char) : Option Reading := cs.foldlM step s

end Reading

/-- The records of a text, each with its fields. -/
def read (text : String) : Option (List (List String)) :=
  (Reading.run (.atRecord []) text.toList).bind Reading.finish

/-! ## A written field -/

namespace Reading

variable {s : Reading} {c : Char} {cs : List Char}

theorem run_cons (s : Reading) (c : Char) (cs : List Char) :
    run s (c :: cs) = (step s c).bind fun s' => run s' cs :=
  List.foldlM_cons

theorem run_append (s : Reading) (cs ds : List Char) :
    run s (cs ++ ds) = (run s cs).bind fun s' => run s' ds :=
  List.foldlM_append

theorem step_quoted (h : s.place = .quoted) (hc : c ≠ '"') :
    step s c = some (s.add .quoted c) := by
  unfold step
  rw [if_pos h, if_neg hc]

theorem step_comma (h : s.place ≠ .quoted) : step s ',' = some s.endField := by
  unfold step
  rw [if_neg h, if_pos rfl]

theorem step_lineFeed (h : s.place ≠ .quoted) : step s '\n' = some s.endRecord := by
  unfold step
  rw [if_neg h, if_neg (by decide), if_pos rfl]

/-- A character that does not need quotes goes on with a field that has none, or starts one. -/
theorem step_bare (h : s.place = .start ∨ s.place = .bare) (hc : needsQuotes [c] = false) :
    step s c = some (s.add .bare c) := by
  simp only [needsQuotes, List.any_cons, List.any_nil, Bool.or_false, Bool.or_eq_false_iff,
    decide_eq_false_iff_not] at hc
  obtain ⟨⟨⟨hcomma, hquote⟩, hreturn⟩, hfeed⟩ := hc
  unfold step
  rcases h with h | h <;> simp [h, hcomma, hquote, hreturn, hfeed]

/-- The characters of a field that needs no quotes are taken as they are. -/
theorem run_bare (h : s.place = .start ∨ s.place = .bare) (hcs : needsQuotes cs = false) :
    ∃ place, place ≠ .quoted ∧
      run s cs = some ⟨place, cs.reverse ++ s.chars, s.fields, s.records⟩ := by
  induction cs generalizing s with
  | nil =>
    refine ⟨s.place, ?_, rfl⟩
    rcases h with h | h <;> rw [h] <;> decide
  | cons c cs ih =>
    have hboth : needsQuotes [c] = false ∧ needsQuotes cs = false := by
      simpa [needsQuotes] using hcs
    obtain ⟨place, hplace, hrun⟩ := ih (s := s.add .bare c) (.inr rfl) hboth.2
    refine ⟨place, hplace, ?_⟩
    rw [run_cons, step_bare h hboth.1, Option.bind_some, hrun, List.reverse_cons,
      List.append_assoc]
    rfl

/-- A character is read from inside quotes as it was put there. -/
theorem run_quoted_char (h : s.place = .quoted) (c : Char) :
    run s (quoted c) = some (s.add .quoted c) := by
  unfold quoted
  by_cases hc : c = '"'
  · subst hc
    obtain ⟨place, chars, fields, records⟩ := s
    subst h
    rfl
  · rw [if_neg hc, run_cons, step_quoted h hc]
    rfl

theorem run_quoted (h : s.place = .quoted) (cs : List Char) :
    run s (cs.flatMap quoted) = some ⟨.quoted, cs.reverse ++ s.chars, s.fields, s.records⟩ := by
  induction cs generalizing s with
  | nil =>
    rw [← h]
    rfl
  | cons c cs ih =>
    have hrest := ih (s := s.add .quoted c) rfl
    rw [List.flatMap_cons, run_append, run_quoted_char h, Option.bind_some, hrest,
      List.reverse_cons, List.append_assoc]
    rfl

/-- Nothing in a field can be taken for its end: behind its last character the reader has the
    field, and stands outside of quotes. -/
theorem run_field (cs : List Char) (fields : List String) (records : List (List String)) :
    ∃ place, place ≠ .quoted ∧
      run ⟨.start, [], fields, records⟩ (field cs) =
        some ⟨place, cs.reverse, fields, records⟩ := by
  unfold field
  cases hcs : needsQuotes cs with
  | false =>
    obtain ⟨place, hplace, hrun⟩ :=
      run_bare (s := ⟨.start, [], fields, records⟩) (.inl rfl) hcs
    refine ⟨place, hplace, ?_⟩
    rw [List.append_nil] at hrun
    exact hrun
  | true =>
    have hinside := run_quoted (s := ⟨.quoted, [], fields, records⟩) rfl cs
    have hopen : step ⟨.start, [], fields, records⟩ '"' =
        some ⟨.quoted, [], fields, records⟩ := rfl
    refine ⟨.closed, by decide, ?_⟩
    rw [if_pos rfl, run_cons, hopen, Option.bind_some, run_append, hinside, Option.bind_some,
      List.append_nil]
    rfl

/-! ## Records and texts -/

theorem run_field_comma (x : String) (fields : List String) (records : List (List String)) :
    run ⟨.start, [], fields, records⟩ (field x.toList ++ [',']) =
      some ⟨.start, [], x :: fields, records⟩ := by
  obtain ⟨place, hplace, hrun⟩ := run_field x.toList fields records
  rw [run_append, hrun, Option.bind_some, run_cons, step_comma hplace, Option.bind_some, endField,
    List.reverse_reverse, String.ofList_toList]
  rfl

theorem run_field_lineFeed (x : String) (fields : List String) (records : List (List String)) :
    run ⟨.start, [], fields, records⟩ (field x.toList ++ ['\n']) =
      some (atRecord ((x :: fields).reverse :: records)) := by
  obtain ⟨place, hplace, hrun⟩ := run_field x.toList fields records
  rw [run_append, hrun, Option.bind_some, run_cons, step_lineFeed hplace, Option.bind_some,
    endRecord, endField, List.reverse_reverse, String.ofList_toList]
  rfl

/-- The fields of a record that are left come behind those that have been read. -/
theorem run_record {row : List String} (hrow : row ≠ []) (fields : List String)
    (records : List (List String)) :
    run ⟨.start, [], fields, records⟩ (record row) =
      some (atRecord ((fields.reverse ++ row) :: records)) := by
  induction row generalizing fields with
  | nil => exact absurd rfl hrow
  | cons x row ih =>
    cases row with
    | nil =>
      rw [record, List.map_singleton, List.intercalate_singleton, run_field_lineFeed,
        List.reverse_cons]
    | cons y row =>
      have hsplit : record (x :: y :: row) = (field x.toList ++ [',']) ++ record (y :: row) := by
        simp [record, List.intercalate_cons_cons]
      rw [hsplit, run_append, run_field_comma, Option.bind_some,
        ih (List.cons_ne_nil y row), List.reverse_cons, List.append_assoc]
      rfl

theorem run_records {rows : List (List String)} (hrows : ∀ row ∈ rows, row ≠ [])
    (records : List (List String)) :
    run (atRecord records) (rows.flatMap record) = some (atRecord (rows.reverse ++ records)) := by
  induction rows generalizing records with
  | nil => rfl
  | cons row rows ih =>
    obtain ⟨hrow, hrest⟩ := List.forall_mem_cons.mp hrows
    have hfirst : run (atRecord records) (record row) = some (atRecord (row :: records)) :=
      run_record hrow [] records
    rw [List.flatMap_cons, run_append, hfirst, Option.bind_some, ih hrest, List.reverse_cons,
      List.append_assoc]
    rfl

end Reading

/-- Records are read back from their text. Only one without fields could not be told from one
    with an empty field. -/
theorem read_text {records : List (List String)} (h : ∀ record ∈ records, record ≠ []) :
    read (text records) = some records := by
  unfold read text
  rw [String.toList_ofList, Reading.run_records h, Option.bind_some, List.append_nil]
  show some records.reverse.reverse = some records
  rw [List.reverse_reverse]

end Csv

/-! ## Listings -/

theorem RuleRow.fields_injective : Function.Injective fields := by
  rintro ⟨⟩ ⟨⟩ h
  simpa [fields] using h

theorem ApplicationRow.fields_injective : Function.Injective fields := by
  rintro ⟨i, _, _, _, _, _⟩ ⟨j, _, _, _, _, _⟩ h
  simp only [fields, List.cons.injEq, String.ofList_inj, and_true] at h
  obtain ⟨hindex, rfl, rfl, rfl, rfl, rfl⟩ := h
  have hnumber : Nat.ofDigitChars 10 (Text.decimal i) 0 = Nat.ofDigitChars 10 (Text.decimal j) 0 :=
    congrArg (Nat.ofDigitChars 10 · 0) hindex
  rw [Text.decimal, Text.decimal, Nat.ofDigitChars_ten_toDigits, Nat.ofDigitChars_ten_toDigits]
    at hnumber
  rw [hnumber]

namespace Listing

/-- Where there are columns, every record of a listing has fields. -/
theorem read_csv {l : Listing} (hheadings : l.headings ≠ []) (hnames : l.names ≠ []) :
    Csv.read l.csv = some (l.names :: l.rows) := by
  apply Csv.read_text
  refine List.forall_mem_cons.mpr ⟨hnames, fun row hrow hempty => hheadings ?_⟩
  rw [← List.length_eq_zero_iff, ← l.rows_length row hrow, hempty, List.length_nil]

theorem rows_eq_of_csv_eq {l l' : Listing} (hheadings : l.headings ≠ [])
    (hheadings' : l'.headings ≠ []) (hnames : l.names ≠ []) (hnames' : l'.names ≠ [])
    (h : l.csv = l'.csv) : l.names = l'.names ∧ l.rows = l'.rows := by
  have hread := read_csv hheadings hnames
  rw [h, read_csv hheadings' hnames', Option.some.injEq, List.cons.injEq] at hread
  exact ⟨hread.1.symm, hread.2.symm⟩

/-- Whatever stands in the fields of rows, and however many rows there are: their text is read back
    as one record with the names of the columns and then the fields of each row in order. So rows
    that differ have different texts, and rules are never taken for applications. -/
theorem csv_loses_nothing :
    (∀ rows : List RuleRow, Csv.read (ofRuleRows rows).csv =
      some (["id", "name", "category", "leftPattern", "rightPattern"] ::
        rows.map fun row => [row.id, row.name, row.category, row.left, row.right])) ∧
    (∀ rows : List ApplicationRow, Csv.read (ofApplicationRows rows).csv =
      some (["index", "rule", "direction", "position", "description", "fullPreview"] ::
        rows.map fun row => [String.ofList (Text.decimal row.index), row.rule, row.direction,
          row.position, row.description, row.preview])) ∧
    Function.Injective (fun rows => (ofRuleRows rows).csv) ∧
    Function.Injective (fun rows => (ofApplicationRows rows).csv) ∧
    ∀ rows rows', (ofRuleRows rows).csv ≠ (ofApplicationRows rows').csv := by
  have hnil {l : List String} {x : String} : x :: l ≠ [] := List.cons_ne_nil x l
  refine ⟨fun rows => read_csv hnil hnil, fun rows => read_csv hnil hnil, ?_, ?_, ?_⟩
  · intro rows rows' h
    exact List.map_injective_iff.mpr RuleRow.fields_injective
      (rows_eq_of_csv_eq hnil hnil hnil hnil h).2
  · intro rows rows' h
    exact List.map_injective_iff.mpr ApplicationRow.fields_injective
      (rows_eq_of_csv_eq hnil hnil hnil hnil h).2
  · intro rows rows' h
    have hlength : 5 = 6 := congrArg List.length (rows_eq_of_csv_eq hnil hnil hnil hnil h).1
    exact absurd hlength (by decide)

/-- A field that looks like the end of its record and the start of another one. -/
example : Csv.read (ofRuleRows [⟨"a,b", "\"\n\",", "", "\r\n", "\""⟩]).csv =
    some [["id", "name", "category", "leftPattern", "rightPattern"],
      ["a,b", "\"\n\",", "", "\r\n", "\""]] := by
  decide +kernel

end Listing

end PropCalc
