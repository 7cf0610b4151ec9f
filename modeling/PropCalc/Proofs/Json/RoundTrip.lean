/-
  Written JSON is read back.

  The reader keeps the containers that are open. Whatever they are, the tokens of a value put
  that value where one is awaited (`run_tokens`); items and entries follow each other by commas,
  the first of them without one. With the cut into tokens this gives back every value from its
  text, in each layout (`parse_of_mem_written`).
-/
import PropCalc.Json.Reader
import PropCalc.Proofs.Json.Scanning

namespace PropCalc.Json

namespace Reading

/-! ## States that take a part -/

theorem run_cons (s : Reading) (t : Token) (ts : List Token) :
    run s (t :: ts) = (step s t).bind fun s' => run s' ts := by
  unfold run
  rw [List.foldlM_cons]
  rfl

theorem run_append (s : Reading) (ts us : List Token) :
    run s (ts ++ us) = (run s ts).bind fun s' => run s' us :=
  List.foldlM_append

/-- A value can start here, in front of whatever `frames` go on with. Only the bracket that ends
    a list may be taken for something else. -/
def Awaits (s : Reading) (frames : List Frame) : Prop :=
  ∀ t, t ≠ .closeArr → step s t = beginValue frames t

theorem awaits_value (frames : List Frame) : Awaits (value frames) frames := fun _ _ => rfl

/-- A container has its first part before it, or other parts behind it. -/
def between (first : Bool) (frames : List Frame) : Reading :=
  if first then opened frames else filled frames

/-- A part of the container must come; if it is the first one, the end may come as well. -/
def partNext (first : Bool) (frames : List Frame) : Reading :=
  if first then opened frames else another frames

theorem run_commaUnless (first : Bool) (frames : List Frame) :
    run (between first frames) (commaUnless first) = some (partNext first frames) := by
  cases first <;> rfl

theorem awaits_item (first : Bool) (items : List Json) (frames : List Frame) :
    Awaits (partNext first (.arr items :: frames)) (.arr items :: frames) := by
  intro t ht
  cases first with
  | false => rfl
  | true =>
    have hclose : close (.arr items :: frames) t = none := by
      cases t <;> first | rfl | exact absurd rfl ht
    show (close (.arr items :: frames) t).or (beginPart (.arr items :: frames) t) = _
    rw [hclose, Option.none_or, beginPart]

/-- In an object the name of an entry and a colon come before its value. -/
theorem run_name (first : Bool) (entries : List (Option String × Json)) (name : Option String)
    (frames : List Frame) :
    run (partNext first (.obj entries :: frames)) [.str name, .colon] =
      some (value (.entry entries name :: frames)) := by
  cases first <;> rfl

theorem step_closeArr (first : Bool) (items : List Json) (frames : List Frame) :
    step (between first (.arr items :: frames)) .closeArr = put (.arr items.reverse) frames := by
  cases first with
  | false => rfl
  | true =>
    show (put (.arr items.reverse) frames).or none = _
    rw [Option.or_none]

theorem step_closeObj (first : Bool) (entries : List (Option String × Json))
    (frames : List Frame) :
    step (between first (.obj entries :: frames)) .closeObj =
      put (.obj entries.reverse) frames := by
  cases first with
  | false => rfl
  | true =>
    show (put (.obj entries.reverse) frames).or none = _
    rw [Option.or_none]

/-! ## The tokens of a value -/

theorem run_single (s : Reading) (t : Token) : run s [t] = step s t := by
  rw [run_cons]
  cases step s t <;> rfl

mutual

/-- The tokens of a value put it where one is awaited. -/
theorem run_tokens : (v : Json) → {s : Reading} → {frames : List Frame} → Awaits s frames →
    run s v.tokens = put v frames
  | .null, s, frames, h => by
    rw [tokens, run_single, h _ (by decide)]
    rfl
  | .bool b, s, frames, h => by
    rw [tokens, run_single, h _ (by simp)]
    rfl
  | .num n, s, frames, h => by
    rw [tokens, run_single, h _ (by simp)]
    rfl
  | .str text, s, frames, h => by
    rw [tokens, run_single, h _ (by simp)]
    rfl
  | .arr items, s, frames, h => by
    have hitems := run_itemTokens items true [] frames
    rw [tokens, run_cons, h _ (by decide)]
    exact hitems
  | .obj entries, s, frames, h => by
    have hentries := run_entryTokens entries true [] frames
    rw [tokens, run_cons, h _ (by decide)]
    exact hentries

/-- The tokens of the items that are left put the list together. -/
theorem run_itemTokens : (vs : List Json) → (first : Bool) → (items : List Json) →
    (frames : List Frame) →
    run (between first (.arr items :: frames)) (itemTokens first vs) =
      put (.arr (items.reverse ++ vs)) frames
  | [], first, items, frames => by
    rw [itemTokens, run_single, step_closeArr, List.append_nil]
  | v :: vs, first, items, frames => by
    have hv := run_tokens v (awaits_item first items frames)
    have hvs := run_itemTokens vs false (v :: items) frames
    rw [List.reverse_cons, List.append_assoc] at hvs
    rw [itemTokens, run_append, run_commaUnless, Option.bind_some, run_append, hv]
    exact hvs

/-- The same for entries. -/
theorem run_entryTokens : (es : List (Option String × Json)) → (first : Bool) →
    (entries : List (Option String × Json)) → (frames : List Frame) →
    run (between first (.obj entries :: frames)) (entryTokens first es) =
      put (.obj (entries.reverse ++ es)) frames
  | [], first, entries, frames => by
    rw [entryTokens, run_single, step_closeObj, List.append_nil]
  | (name, v) :: es, first, entries, frames => by
    have hv := run_tokens v (awaits_value (.entry entries name :: frames))
    have hes := run_entryTokens es false ((name, v) :: entries) frames
    have hname := run_name first entries name frames
    have hsplit : Token.str name :: .colon :: (v.tokens ++ entryTokens false es) =
        [.str name, .colon] ++ (v.tokens ++ entryTokens false es) := rfl
    rw [List.reverse_cons, List.append_assoc] at hes
    rw [entryTokens, run_append, run_commaUnless, Option.bind_some, hsplit, run_append, hname,
      Option.bind_some, run_append, hv]
    exact hes

end

end Reading

/-! ## Texts -/

theorem ofTokens_tokens (v : Json) : ofTokens v.tokens = some v := by
  have hrun := Reading.run_tokens v (Reading.awaits_value [])
  unfold ofTokens
  rw [hrun]
  rfl

/-- A value is read back from its text, wherever the layout has put blanks. -/
theorem parse_write {l : Layout} (hl : l.Blank) (v : Json) :
    parse (String.ofList (write l 0 v [])) = some v := by
  unfold parse ofChars
  rw [String.toList_ofList, scan_write hl, Option.bind_some, ofTokens_tokens]

theorem parse_compact (v : Json) : parse v.compact = some v := parse_write Layout.blank_compact v

theorem parse_pretty (v : Json) : parse v.pretty = some v := parse_write Layout.blank_pretty v

/-- The texts that a value is written as, without blanks or with a line for each part. -/
def written (v : Json) : List String := [v.compact, v.pretty]

theorem parse_of_mem_written {v : Json} {text : String} (h : text ∈ v.written) :
    parse text = some v := by
  rcases List.mem_pair.mp h with rfl | rfl
  · exact parse_compact v
  · exact parse_pretty v

end PropCalc.Json
