/-
  The JSON forms of rules, catalogs and paths are read back.

  A rule has its variables as a list inside its own object, so it is read back wherever two
  more brackets may be open (`Rule.ofJson_toJson`), whatever its texts are and whether its sides
  are formulas or not. A catalog puts its rules inside two more (`Catalog.ofJson_toJson`). A path
  is a list of numbers; those that are too large for an index are refused, and all others are
  read back (`Path.ofJson_toJson`).
-/
import PropCalc.Json.Forms
import PropCalc.Proofs.Formula.PathText
import PropCalc.Proofs.Json.Decoding

namespace PropCalc

theorem Category.ofJson_toJson (c : Category) (room : Nat) : ofJson room c.toJson = some c := by
  cases c <;> rfl

theorem Direction.ofJson_toJson (d : Direction) (room : Nat) : ofJson room d.toJson = some d := by
  cases d <;> rfl

theorem Json.ofJson_texts (ss : List String) (room : Nat) :
    Json.listOf (fun _ v => v.text?) (room + 1) (Json.texts ss) = some ss :=
  Json.listOf_map_of_all fun s _ => Json.text?_ofText s

theorem Rule.ofJson_toJson (r : Rule) (room : Nat) : ofJson (room + 2) r.toJson = some r := by
  have hnames : fieldNames.Nodup := by decide
  have hfields : Json.fields fieldNames (room + 2) r.toJson =
      some [.ofText r.id, .ofText r.name, .ofText r.description, r.category.toJson,
        .ofText r.left, .ofText r.right, .texts r.declared] :=
    Json.fields_record hnames rfl (room + 1)
  have hcategory := r.category.ofJson_toJson (room + 1)
  have hdeclared := Json.ofJson_texts r.declared room
  unfold ofJson
  simp only [hfields, Nat.pred_succ, hcategory, hdeclared, Json.text?_ofText,
    Option.bind_eq_bind, Option.bind_some, Option.pure_def]

theorem Catalog.ofJson_toJson (c : Catalog) (room : Nat) :
    ofJson (room + 4) c.toJson = some c := by
  have hnames : ["rules"].Nodup := by decide
  have hfields : Json.fields ["rules"] (room + 4) c.toJson =
      some [.arr (c.rules.map Rule.toJson)] :=
    Json.fields_record hnames rfl (room + 3)
  have hrules : Json.listOf Rule.ofJson (room + 3) (.arr (c.rules.map Rule.toJson)) =
      some c.rules :=
    Json.listOf_map_of_all fun r _ => r.ofJson_toJson room
  unfold ofJson
  simp only [hfields, Nat.pred_succ, hrules, Option.bind_eq_bind, Option.bind_some,
    Option.pure_def]

theorem Path.ofJson_toJson {p : Path} (h : p.InWords) (room : Nat) :
    ofJson (room + 1) (toJson p) = some p :=
  Json.listOf_map_of_all fun i hi => Json.word?_ofNat (h i hi)

end PropCalc
