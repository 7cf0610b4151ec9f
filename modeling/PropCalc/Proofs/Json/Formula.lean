/-
  The JSON form of formulas is read back up to the nesting limit.

  A leaf is an object, and each connective puts its operands inside two more brackets: those of
  the object named for it and those of its fields. So writing a formula takes one bracket more
  than twice its height, and it is read back wherever that many may be open
  (`ofJson_toJson`). Whatever spelling a formula is read from, each connective has taken two
  brackets there as well (`height_of_ofJson`), so that no formula is ever read that could
  not be written and read again. For the limit of a text this gives the height 63
  (`decode_compact`).
-/
import PropCalc.Json.Forms
import PropCalc.Proofs.Json.Decoding

namespace PropCalc.Formula

/-- How many connectives stand around a leaf at most. -/
def height : Formula → Nat
  | var _ => 0
  | const _ => 0
  | neg e => e.height + 1
  | bin _ l r => max l.height r.height + 1

/-! ## Written formulas -/

theorem lookup_sign (op : Connective) :
    Connective.labels.lookup (String.singleton op.sign) = some op := by
  cases op <;> decide

theorem ofJson_var (room : Nat) (x : String) :
    ofJson (room + 1) (var x).toJson = some (var x) := by
  rw [ofJson.eq_def]
  rfl

theorem ofJson_const (room : Nat) (b : Bool) :
    ofJson (room + 1) (const b).toJson = some (const b) := by
  rw [ofJson.eq_def]
  rfl

theorem ofJson_neg (room : Nat) (e : Formula) :
    ofJson (room + 2) (neg e).toJson = (ofJson room e.toJson).map neg := by
  have hnames : ["operator", "operand"].Nodup := by decide
  have hfields : Json.fields ["operator", "operand"] (room + 1)
      (.record [("operator", .ofText "¬"), ("operand", e.toJson)]) =
        some [.ofText "¬", e.toJson] :=
    Json.fields_record hnames rfl room
  rw [ofJson.eq_def]
  simp only [toJson, Json.tagged?_record, Option.bind_eq_bind, Option.bind_some, String.reduceEq,
    reduceIte, hfields]
  cases ofJson room e.toJson <;> rfl

theorem ofJson_bin (room : Nat) (op : Connective) (l r : Formula) :
    ofJson (room + 2) (bin op l r).toJson =
      (ofJson room l.toJson).bind fun l => (ofJson room r.toJson).map (bin op l) := by
  have hnames : ["operator", "left", "right"].Nodup := by decide
  have hfields : Json.fields ["operator", "left", "right"] (room + 1)
      (.record [("operator", .ofText (String.singleton op.sign)), ("left", l.toJson),
        ("right", r.toJson)]) =
        some [.ofText (String.singleton op.sign), l.toJson, r.toJson] :=
    Json.fields_record hnames rfl room
  have hsign : Json.oneOf Connective.labels room (.ofText (String.singleton op.sign)) = some op :=
    lookup_sign op
  rw [ofJson.eq_def]
  simp only [toJson, Json.tagged?_record, Option.bind_eq_bind, Option.bind_some, String.reduceEq,
    reduceIte, hfields, hsign]
  cases ofJson room l.toJson <;> cases ofJson room r.toJson <;> rfl

/-- A written formula is read back exactly if there is room for its brackets. -/
theorem ofJson_toJson (e : Formula) (room : Nat) :
    ofJson room e.toJson = if 2 * e.height + 1 ≤ room then some e else none := by
  induction e generalizing room with
  | var x =>
    cases room with
    | zero => rfl
    | succ room => rw [ofJson_var, if_pos (by rw [height]; omega)]
  | const b =>
    cases room with
    | zero => rfl
    | succ room => rw [ofJson_const, if_pos (by rw [height]; omega)]
  | neg e ih =>
    match room with
    | 0 => rfl
    | 1 => rw [if_neg (by rw [height]; omega)]; rfl
    | room + 2 =>
      have hroom : 2 * (neg e).height + 1 ≤ room + 2 ↔ 2 * e.height + 1 ≤ room := by
        rw [height]
        omega
      rw [ofJson_neg, ih]
      by_cases h : 2 * e.height + 1 ≤ room <;> simp [hroom, h]
  | bin op l r ihl ihr =>
    match room with
    | 0 => rfl
    | 1 => rw [if_neg (by rw [height]; omega)]; rfl
    | room + 2 =>
      have hroom : 2 * (bin op l r).height + 1 ≤ room + 2 ↔
          2 * l.height + 1 ≤ room ∧ 2 * r.height + 1 ≤ room := by
        rw [height]
        omega
      rw [ofJson_bin, ihl, ihr]
      by_cases hl : 2 * l.height + 1 ≤ room <;> by_cases hr : 2 * r.height + 1 ≤ room <;>
        simp [hroom, hl, hr]

/-! ## Other spellings -/

/-- What a formula that has been read took of the room: a leaf one bracket, a connective two
    around each operand. -/
theorem room_of_ofJson {room : Nat} {v : Json} {e : Formula} (h : ofJson room v = some e) :
    match e with
    | var _ => 1 ≤ room
    | const _ => 1 ≤ room
    | neg e => ∃ n w, room = n + 2 ∧ ofJson n w = some e
    | bin _ l r => ∃ n w w', room = n + 2 ∧ ofJson n w = some l ∧ ofJson n w' = some r := by
  rw [ofJson.eq_def] at h
  cases room with
  | zero => cases h
  | succ room =>
    obtain ⟨⟨tag, content⟩, -, h⟩ := Option.bind_eq_some_iff.mp h
    simp only at h
    split at h
    · -- a variable
      obtain ⟨x, -, rfl⟩ := Option.map_eq_some_iff.mp h
      exact Nat.le_add_left 1 room
    split at h
    · -- a constant
      obtain ⟨b, -, rfl⟩ := Option.map_eq_some_iff.mp h
      exact Nat.le_add_left 1 room
    cases room with
    | zero => cases h
    | succ room =>
      simp only at h
      split at h
      · -- a negation, from the two values of its fields
        obtain ⟨parts, -, h⟩ := Option.bind_eq_some_iff.mp h
        split at h
        · obtain ⟨_, -, h⟩ := Option.bind_eq_some_iff.mp h
          obtain ⟨e', he', h⟩ := Option.bind_eq_some_iff.mp h
          cases h
          exact ⟨room, _, rfl, he'⟩
        · cases h
      split at h
      · -- a connective between two operands, from three values
        obtain ⟨parts, -, h⟩ := Option.bind_eq_some_iff.mp h
        split at h
        · obtain ⟨op, -, h⟩ := Option.bind_eq_some_iff.mp h
          obtain ⟨l, hl, h⟩ := Option.bind_eq_some_iff.mp h
          obtain ⟨r, hr, h⟩ := Option.bind_eq_some_iff.mp h
          cases h
          exact ⟨room, _, _, rfl, hl, hr⟩
        · cases h
      · cases h

/-- No spelling takes fewer brackets than the written form. -/
theorem height_of_ofJson {room : Nat} {v : Json} {e : Formula} (h : ofJson room v = some e) :
    2 * e.height + 1 ≤ room := by
  induction e generalizing room v with
  | var x => exact room_of_ofJson h
  | const b => exact room_of_ofJson h
  | neg e ih =>
    obtain ⟨n, w, rfl, he⟩ := room_of_ofJson h
    have hoperand := ih he
    rw [height]
    omega
  | bin op l r ihl ihr =>
    obtain ⟨n, w, w', rfl, hl, hr⟩ := room_of_ofJson h
    have hleft := ihl hl
    have hright := ihr hr
    rw [height]
    omega

/-! ## Texts -/

/-- Reading the text of a formula gives it back if its height is at most 63, and fails
    otherwise. A formula that was read from any text whatsoever is low enough. -/
theorem decode_compact (e : Formula) :
    Json.decodeText ofJson e.toJson.compact = (if e.height ≤ 63 then some e else none) ∧
      ∀ text, Json.decodeText ofJson text = some e →
        Json.decodeText ofJson e.toJson.compact = some e := by
  have hlimit : 2 * e.height + 1 ≤ Json.nestingLimit ↔ e.height ≤ 63 := by
    unfold Json.nestingLimit
    omega
  have hwritten : Json.decodeText ofJson e.toJson.compact =
      if e.height ≤ 63 then some e else none := by
    rw [Json.decodeText_compact, ofJson_toJson]
    simp only [hlimit]
  refine ⟨hwritten, fun text htext => ?_⟩
  obtain ⟨v, -, hv⟩ := Option.bind_eq_some_iff.mp htext
  have hheight := hlimit.mp (height_of_ofJson hv)
  rw [hwritten, if_pos hheight]

/-- Fields may come as a list, a sign as an object, and characters as escapes. -/
example : Json.decodeText ofJson
    " \x7b \"Un\\u0061ry\" : [\x7b\"¬\" : null\x7d, \x7b\"Constant\":true\x7d ] \x7d" =
      some (neg (const true)) := by decide +kernel

end PropCalc.Formula
