/-
  How commands fail, and the report that is given of it.
-/
import PropCalc.Chain.Run
import PropCalc.Rule.CatalogFile

namespace PropCalc

/-- Why a command has failed. -/
inductive Failure
  | loading (path : String) (reason : CatalogFileError)
  | saving (path : String) (reason : CatalogFileError)
  | unparsable (text : String) (reason : ParseError)
  | unknownRule (id : String)
  | notApplicable (rule : Rule) (direction : Direction) (e : Formula) (position : Option Path)
  | chain (reason : Chain.Failure)
  deriving DecidableEq, Repr

namespace Failure

/-- A rule with its direction, as messages show it. -/
def ruleText (r : Rule) (d : Direction) : String := "`" ++ r.id ++ "` (" ++ d.label ++ ")"

/-- What has failed, followed by what it comes from, step by step. -/
def messages : Failure → List String
  | loading path reason => s!"failed to load rules from {path}" :: reason.messages
  | saving path reason => s!"failed to export rules to {path}" :: reason.messages
  | unparsable text reason => [s!"failed to parse `{text}`", reason.message]
  | unknownRule id => [s!"unknown rule `{id}`"]
  | notApplicable r d e position =>
    ["rule " ++ ruleText r d ++ " does not apply to `" ++ e.text ++ "`" ++
      ((position.map fun p => " at " ++ Path.text p).getD "")]
  | chain (.unknownRule step id) => [s!"step {step}: unknown rule `{id}`"]
  | chain (.notApplicable step r d reached) =>
    [s!"step {step}: rule " ++ ruleText r d ++ " does not apply to `" ++ reached.current.text ++
      "`"]

/-- A text with `indent` blanks at the start of each line but the first. -/
def hanging (indent : Nat) (text : String) : String :=
  String.ofList <| text.toList.flatMap fun c =>
    if c = '\n' then '\n' :: List.replicate indent ' ' else [c]

/-- A cause among several, with its number set to the right of a field of five. -/
def numberedCause (n : Nat) (text : String) : String :=
  let digits := Text.decimal n
  String.ofList (List.replicate (5 - digits.length) ' ' ++ digits) ++ ": " ++ hanging 7 text

/-- The causes, a line or more for each. A single one has no number. -/
def causeLines : List String → List String
  | [] => []
  | [cause] => ["    " ++ hanging 4 cause]
  | causes => causes.mapIdx numberedCause

/-- What is said of a failure: what has failed, and its causes if there are any. -/
def report (f : Failure) : String :=
  match f.messages with
  | [] => ""
  | [message] => "Error: " ++ message
  | message :: causes =>
    "\n".intercalate (("Error: " ++ message) :: "" :: "Caused by:" :: causeLines causes)

end Failure

end PropCalc
