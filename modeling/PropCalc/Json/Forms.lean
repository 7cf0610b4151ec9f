/-
  The JSON forms of formulas, substitutions, rules, catalogs, applications and derivations.
-/
import PropCalc.Application
import PropCalc.Derivation
import PropCalc.Json.Decode
import PropCalc.Json.Writer

namespace PropCalc

/-! ## Formulas -/

/-- The connectives by their signs. -/
def Connective.labels : List (String × Connective) :=
  [("∧", .and), ("∨", .or), ("→", .implies)]

namespace Formula

/-- An object with one entry, named for the kind of the formula. -/
def toJson : Formula → Json
  | var x => .record [("Variable", .ofText x)]
  | const b => .record [("Constant", .bool b)]
  | neg e => .record [("Unary", .record [("operator", .ofText "¬"), ("operand", e.toJson)])]
  | bin op l r =>
    .record [("Binary", .record [("operator", .ofText (String.singleton op.sign)),
      ("left", l.toJson), ("right", r.toJson)])]

def ofJson : Json.Decoder Formula
  | 0, _ => none
  | room + 1, v => do
    let (tag, content) ← v.tagged?
    if tag = "Variable" then content.text?.map var
    else if tag = "Constant" then content.bool?.map const
    else match room with
      | 0 => none
      | room + 1 =>
        if tag = "Unary" then
          match ← Json.fields ["operator", "operand"] (room + 1) content with
          | [sign, e] =>
            let () ← Json.oneOf [("¬", ())] room sign
            return neg (← ofJson room e)
          | _ => none
        else if tag = "Binary" then
          match ← Json.fields ["operator", "left", "right"] (room + 1) content with
          | [sign, l, r] =>
            let op ← Json.oneOf Connective.labels room sign
            return bin op (← ofJson room l) (← ofJson room r)
          | _ => none
        else none

end Formula

/-! ## Substitutions -/

namespace Substitution

/-- An object with an entry for each bound variable, in increasing order. -/
def toJson (σ : Substitution) : Json := .record (σ.entries.map fun (x, e) => (x, e.toJson))

/-- Of two entries for one variable the later one holds. -/
def ofJson : Json.Decoder Substitution := fun room v =>
  (Json.entriesOf Formula.ofJson room v).map NameMap.ofList

end Substitution

/-! ## Rules and catalogs -/

def Category.toJson (c : Category) : Json := .ofText c.label

def Category.ofJson : Json.Decoder Category :=
  Json.oneOf (Category.all.map fun c => (c.label, c))

def Direction.toJson (d : Direction) : Json := .ofText d.label

def Direction.ofJson : Json.Decoder Direction :=
  Json.oneOf (Direction.both.map fun d => (d.label, d))

/-- A list of strings. -/
def Json.texts (ss : List String) : Json := .arr (ss.map .ofText)

namespace Rule

def fieldNames : List String :=
  ["id", "name", "description", "category", "leftPattern", "rightPattern", "variables"]

def toJson (r : Rule) : Json :=
  .record [("id", .ofText r.id), ("name", .ofText r.name), ("description", .ofText r.description),
    ("category", r.category.toJson), ("leftPattern", .ofText r.left),
    ("rightPattern", .ofText r.right), ("variables", .texts r.declared)]

def ofJson : Json.Decoder Rule := fun room v => do
  match ← Json.fields fieldNames room v with
  | [id, name, description, category, left, right, declared] =>
    return {
      id := ← id.text?
      name := ← name.text?
      description := ← description.text?
      category := ← Category.ofJson room.pred category
      left := ← left.text?
      right := ← right.text?
      declared := ← Json.listOf (fun _ x => x.text?) room.pred declared }
  | _ => none

end Rule

namespace Catalog

def toJson (c : Catalog) : Json := .record [("rules", .arr (c.rules.map Rule.toJson))]

def ofJson : Json.Decoder Catalog := fun room v => do
  match ← Json.fields ["rules"] room v with
  | [rules] => return ⟨← Json.listOf Rule.ofJson room.pred rules⟩
  | _ => none

end Catalog

/-! ## Paths -/

namespace Path

def toJson (p : Path) : Json := .arr (p.map .ofNat)

def ofJson : Json.Decoder Path := Json.listOf fun _ i => i.word?

end Path

/-! ## Applications -/

namespace Application

def fieldNames : List String := ["rule", "direction", "position", "description", "fullPreview"]

def toJson (a : Application) : Json :=
  .record [("rule", a.rule.toJson), ("direction", a.direction.toJson),
    ("position", Path.toJson a.position), ("description", .ofText a.description),
    ("fullPreview", .ofText a.preview)]

def ofJson : Json.Decoder Application := fun room v => do
  match ← Json.fields fieldNames room v with
  | [rule, direction, position, description, preview] =>
    return {
      rule := ← Rule.ofJson room.pred rule
      direction := ← Direction.ofJson room.pred direction
      position := ← Path.ofJson room.pred position
      description := ← description.text?
      preview := ← preview.text? }
  | _ => none

/-- A listing of applications. -/
def listToJson (as : List Application) : Json := .arr (as.map toJson)

def listOfJson : Json.Decoder (List Application) := Json.listOf ofJson

end Application

/-! ## Derivations -/

namespace Step

def fieldNames : List String := ["from", "to", "rule", "direction", "position", "timestamp"]

def toJson (s : Step) : Json :=
  .record [("from", s.source.toJson), ("to", s.target.toJson), ("rule", s.rule.toJson),
    ("direction", s.direction.toJson), ("position", Path.toJson s.position),
    ("timestamp", .ofNat s.time)]

def ofJson : Json.Decoder Step := fun room v => do
  match ← Json.fields fieldNames room v with
  | [source, target, rule, direction, position, time] =>
    return {
      source := ← Formula.ofJson room.pred source
      target := ← Formula.ofJson room.pred target
      rule := ← Rule.ofJson room.pred rule
      direction := ← Direction.ofJson room.pred direction
      position := ← Path.ofJson room.pred position
      time := ← time.word? }
  | _ => none

end Step

namespace Derivation

def toJson (d : Derivation) : Json :=
  .record [("start", d.start.toJson), ("steps", .arr (d.steps.map Step.toJson))]

/-- That each step starts where the one before it ended is not asked. -/
def ofJson : Json.Decoder Derivation := fun room v => do
  match ← Json.fields ["start", "steps"] room v with
  | [start, steps] =>
    return ⟨← Formula.ofJson room.pred start, ← Json.listOf Step.ofJson room.pred steps⟩
  | _ => none

end Derivation

end PropCalc
