/-
  Decoding what has been written.

  In a text either layout keeps the value, so a decoder sees the value that was written
  (`decodeText_of_mem_written`). A record is an object with one entry for each field: where its
  names differ, reading the fields by these names gives their values in order (`fields_record`).
-/
import PropCalc.Json.Decode
import PropCalc.Proofs.Json.RoundTrip

namespace PropCalc.Json

variable {α : Type}

/-! ## Texts -/

theorem decodeText_of_mem_written (d : Decoder α) {v : Json} {text : String}
    (h : text ∈ v.written) : decodeText d text = d nestingLimit v := by
  unfold decodeText
  rw [parse_of_mem_written h, Option.bind_some]

theorem decodeText_compact (d : Decoder α) (v : Json) :
    decodeText d v.compact = d nestingLimit v :=
  decodeText_of_mem_written d List.mem_cons_self

theorem decodeText_pretty (d : Decoder α) (v : Json) :
    decodeText d v.pretty = d nestingLimit v :=
  decodeText_of_mem_written d (List.mem_cons_of_mem _ List.mem_cons_self)

/-! ## Strings, numbers and lists -/

theorem text?_ofText (s : String) : (ofText s).text? = some s := rfl

theorem word?_ofNat {n : Nat} (h : n < Text.wordBound) : (ofNat n).word? = some n := if_pos h

/-- If each of the written parts is read back exactly on a condition, then they are all read back
    exactly if the condition holds of all of them. -/
theorem mapM_map_of_guards {β : Type} {g : β → Option α} {f : α → β} {p : α → Prop}
    [DecidablePred p] {l : List α} (h : ∀ a ∈ l, g (f a) = if p a then some a else none) :
    (l.map f).mapM g = if ∀ a ∈ l, p a then some l else none := by
  induction l with
  | nil => rfl
  | cons a l ih =>
    have ha := h a List.mem_cons_self
    have hl := ih fun b hb => h b (List.mem_cons_of_mem a hb)
    rw [List.map_cons, List.mapM_cons, ha, hl]
    by_cases hpa : p a
    · by_cases hpl : ∀ b ∈ l, p b
      · have hall : ∀ b ∈ a :: l, p b := List.forall_mem_cons.mpr ⟨hpa, hpl⟩
        rw [if_pos hpa, if_pos hpl, if_pos hall]
        rfl
      · have hnot : ¬ ∀ b ∈ a :: l, p b := fun hall => hpl (List.forall_mem_cons.mp hall).2
        rw [if_pos hpa, if_neg hpl, if_neg hnot]
        rfl
    · have hnot : ¬ ∀ b ∈ a :: l, p b := fun hall => hpa (List.forall_mem_cons.mp hall).1
      rw [if_neg hpa, if_neg hnot]
      rfl

/-- A list is read back exactly if each of its items is. -/
theorem listOf_map {item : Decoder α} {f : α → Json} {p : α → Prop} [DecidablePred p]
    {room : Nat} {l : List α}
    (h : ∀ a ∈ l, item room (f a) = if p a then some a else none) :
    listOf item (room + 1) (.arr (l.map f)) = if ∀ a ∈ l, p a then some l else none :=
  mapM_map_of_guards h

/-- Where each item is read back, the list is. -/
theorem listOf_map_of_all {item : Decoder α} {f : α → Json} {room : Nat} {l : List α}
    (h : ∀ a ∈ l, item room (f a) = some a) :
    listOf item (room + 1) (.arr (l.map f)) = some l := by
  have hitems : ∀ a ∈ l, item room (f a) = if True then some a else none := by
    intro a ha
    rw [if_pos trivial, h a ha]
  rw [listOf_map hitems, if_pos fun _ _ => trivial]

/-! ## Records -/

/-- Two fields that are each read on a condition are both read exactly on both conditions. -/
theorem bind_bind_of_guards {β γ δ : Type} {p q : Prop} [Decidable p] [Decidable q] {b : β} {c : γ}
    {f : β → γ → δ} :
    ((if p then some b else none).bind fun b =>
      (if q then some c else none).bind fun c => some (f b c)) =
        if p ∧ q then some (f b c) else none := by
  by_cases hp : p <;> by_cases hq : q <;> simp [hp, hq]

theorem mapM_eq_some_map {β γ : Type} {f : β → Option γ} {g : β → γ} {l : List β}
    (h : ∀ b ∈ l, f b = some (g b)) : l.mapM f = some (l.map g) := by
  induction l with
  | nil => rfl
  | cons b l ih =>
    have hb := h b List.mem_cons_self
    have hl := ih fun c hc => h c (List.mem_cons_of_mem b hc)
    rw [List.mapM_cons, hb, hl]
    rfl

/-- A name that no field has, no entry of the record has. -/
theorem filter_name_of_not_mem {fs : List (String × Json)} {name : String}
    (h : name ∉ fs.map (·.1)) :
    (fs.map fun f => (some f.1, f.2)).filter (fun e => e.1 = some name) = [] := by
  rw [List.filter_eq_nil_iff]
  intro e he hname
  obtain ⟨f, hf, rfl⟩ := List.mem_map.mp he
  have hsame : f.1 = name := by simpa using hname
  exact h (List.mem_map.mpr ⟨f, hf, hsame⟩)

/-- Where the names differ, a field's name has one entry. -/
theorem filter_name_of_mem {fs : List (String × Json)} (hnames : (fs.map (·.1)).Nodup)
    {name : String} {v : Json} (h : (name, v) ∈ fs) :
    (fs.map fun f => (some f.1, f.2)).filter (fun e => e.1 = some name) = [(some name, v)] := by
  induction fs with
  | nil => exact absurd h List.not_mem_nil
  | cons f fs ih =>
    obtain ⟨hf, hfs⟩ := List.nodup_cons.mp hnames
    rw [List.map_cons]
    cases List.mem_cons.mp h with
    | inl hhead =>
      subst hhead
      rw [List.filter_cons_of_pos (by simp), filter_name_of_not_mem hf]
    | inr htail =>
      have hother : f.1 ≠ name := by
        rintro rfl
        exact hf (List.mem_map.mpr ⟨_, htail, rfl⟩)
      rw [List.filter_cons_of_neg (by simpa using hother), ih hfs htail]

/-- Reading the fields of a record by their names gives their values in order. -/
theorem fields_record {names : List String} {fs : List (String × Json)}
    (hnames : names.Nodup) (hfs : fs.map (·.1) = names) (room : Nat) :
    fields names (room + 1) (.record fs) = some (fs.map (·.2)) := by
  subst hfs
  have hall : (fs.map fun f => (some f.1, f.2)).all (fun e => e.1.isSome) = true := by
    rw [List.all_map, List.all_eq_true]
    intro f _
    rfl
  have hvalues : (fs.map (·.1)).mapM (only? (fs.map fun f => (some f.1, f.2))) =
      some (fs.map (·.2)) := by
    rw [List.mapM_map]
    refine mapM_eq_some_map fun f hf => ?_
    rw [Function.comp_apply, only?, filter_name_of_mem hnames hf]
  show (if _ then _ else _) = _
  rw [if_pos hall]
  exact hvalues

/-- A record of named values of one kind is read back with its names exactly if each of the values
    is. -/
theorem entriesOf_record {value : Decoder α} {f : α → Json} {p : α → Prop} [DecidablePred p]
    {room : Nat} {l : List (String × α)}
    (h : ∀ name a, (name, a) ∈ l → value room (f a) = if p a then some a else none) :
    entriesOf value (room + 1) (.record (l.map fun (name, a) => (name, f a))) =
      if ∀ e ∈ l, p e.2 then some l else none := by
  have hparts : ∀ e ∈ l, (do return (e.1, ← value room (f e.2))) =
      if p e.2 then some e else none := by
    intro e he
    rw [h e.1 e.2 he]
    split <;> rfl
  show (((l.map _).map _).mapM _) = _
  rw [List.map_map]
  exact mapM_map_of_guards hparts

/-- A record of one field is named for it. -/
theorem tagged?_record (tag : String) (content : Json) :
    (record [(tag, content)]).tagged? = some (tag, content) := rfl

end PropCalc.Json
