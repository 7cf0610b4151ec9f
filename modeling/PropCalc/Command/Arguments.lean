/-
  Reading command lines.

  Arguments are taken from left to right. An argument that starts with a dash is an option
  unless `--` stands before it; the value of an option is joined to it by `=` or is the next
  argument, which then starts with no dash. A value is checked when the next argument has been
  recognised, or at the end; so an argument that is not recognised is reported before a wrong
  value just in front of it.
-/
import PropCalc.Command.Basic
import PropCalc.Command.Style
import PropCalc.Text.Control

namespace PropCalc

/-- Why a command line is refused. -/
inductive UsageError
  /-- The value of an option is not what the option takes; for some options it is said why. -/
  | invalidValue (value : String) (opt : Opt) (reason : Option String)
  /-- Arguments are unknown, missing, repeated or too many. -/
  | misuse
  deriving DecidableEq, Repr

namespace UsageError

/-- What is said of a refused command line, with styles. -/
def styledChars (e : UsageError) : List Char :=
  Style.boldRed.enclose "error:".toList ++
    (match e with
    | .invalidValue value opt reason =>
      " invalid value '".toList ++ Style.yellow.enclose value.toList ++ "' for '".toList ++
        Style.bold.enclose opt.display.toList ++ "'".toList ++
        ((reason.map (": " ++ ·)).getD "").toList
    | .misuse => " the arguments do not form a command".toList) ++
    "\n\nFor more information, try '".toList ++ Style.bold.enclose "--help".toList ++ "'.".toList

/-- What is said of a refused command line. If styles are not wanted they are taken out, and
    so is any control sequence that a value has brought in; one that a value leaves open
    reaches up to the next style. -/
def message (styled : Bool) (e : UsageError) : String :=
  String.ofList (if styled then e.styledChars else Text.shown e.styledChars)

end UsageError

/-- An argument that has been checked. -/
inductive Given
  | catalog (path : String)
  | verbose
  | json
  | category (c : Category)
  | format (f : Format)
  | exportPath (path : String)
  | rule (id : String)
  | reverse
  | position (p : Path)
  | instantiation (name : String) (e : Formula)
  | step (s : StepSpec)
  | formula (text : String)
  deriving DecidableEq, Repr

namespace Given

/-- The option that was given, if it was one. -/
def opt? : Given → Option Opt
  | catalog _ => some .catalog
  | verbose => some .verbose
  | json => some .json
  | category _ => some .category
  | format _ => some .format
  | exportPath _ => some .exportPath
  | rule _ => some .rule
  | reverse => some .reverse
  | position _ => some .position
  | instantiation .. => some .instantiation
  | step _ => some .step
  | formula _ => none

end Given

namespace Opt

/-- Checks the value of an option. Of an option without a value nothing is asked. -/
def check (o : Opt) (value : String) : Except UsageError Given :=
  let invalid (reason : Option String) : UsageError := .invalidValue value o reason
  match o with
  | catalog => if value.isEmpty then .error .misuse else .ok (.catalog value)
  | verbose => .ok .verbose
  | json => .ok .json
  | category =>
    match Category.ofLabel? value with
    | some c => .ok (.category c)
    | none => .error (invalid (some (Category.unknownMessage value)))
  | format =>
    if value.isEmpty then .error .misuse
    else match Format.ofName? value with
      | some f => .ok (.format f)
      | none => .error (invalid none)
  | exportPath => if value.isEmpty then .error .misuse else .ok (.exportPath value)
  | rule => .ok (.rule value)
  | reverse => .ok .reverse
  | position =>
    match Path.read value with
    | .ok p => .ok (.position p)
    | .error e => .error (invalid (some e.message))
  | instantiation =>
    match Instantiation.read value with
    | .ok (name, e) => .ok (.instantiation name e)
    | .error e => .error (invalid (some e.message))
  | step =>
    match StepSpec.read value with
    | .ok s => .ok (.step s)
    | .error e => .error (invalid (some e.message))

end Opt

/-- What an argument looks like. -/
inductive Argument
  /-- two dashes: options end here -/
  | endOfOptions
  | long (name : String) (value : Option String)
  | short (letters : List Char)
  | plain (text : String)
  deriving DecidableEq, Repr

def Argument.ofChars : List Char → Argument
  | ['-', '-'] => endOfOptions
  | '-' :: '-' :: cs =>
    match Text.cutAt '=' cs with
    | some (name, value) => long (String.ofList name) (some (String.ofList value))
    | none => long (String.ofList cs) none
  | '-' :: c :: cs => short (c :: cs)
  | cs => plain (String.ofList cs)

/-- How far a command line has been read. -/
structure Reading where
  /-- what has been checked, in order -/
  given : List Given
  /-- an option whose value has not been checked, with the value if it has come -/
  pending : Option (Opt × Option String)
  /-- a formula may still come -/
  formulaAwaited : Bool
  /-- options have ended -/
  optionsEnded : Bool
  deriving DecidableEq, Repr

namespace Reading

/-- Nothing has been read. -/
def start (formulaAwaited : Bool) : Reading := ⟨[], none, formulaAwaited, false⟩

/-- Checks the value of an option, and that the option has not been given before unless it
    may be repeated. -/
def accept (r : Reading) (o : Opt) (value : String) : Except UsageError Reading :=
  if ¬ o.repeatable ∧ r.given.any fun g => g.opt? = some o then .error .misuse
  else (o.check value).map fun g => { r with given := r.given ++ [g] }

/-- Checks the value that is pending. -/
def settle (r : Reading) : Except UsageError Reading :=
  match r.pending with
  | none => .ok r
  | some (_, none) => .error .misuse
  | some (o, some value) => { r with pending := none }.accept o value

/-- The next argument is the value of an option, unless it looks like an option. -/
def valueAwaited (r : Reading) : Bool :=
  !r.optionsEnded && match r.pending with
    | some (_, none) => true
    | _ => false

/-- Takes an argument that is no option. -/
def takePlain (r : Reading) (text : String) : Except UsageError Reading := do
  match r.pending, r.valueAwaited with
  | some (o, _), true => return { r with pending := some (o, some text) }
  | _, _ =>
    if ¬ r.formulaAwaited then .error .misuse
    else
      let r ← r.settle
      return { r with given := r.given ++ [.formula text], formulaAwaited := false }

/-- Takes an option by its name. -/
def takeLong (allowed : List Opt) (r : Reading) (name : String) (value : Option String) :
    Except UsageError Reading := do
  match allowed.find? fun o => o.long = name, value with
  | none, _ => .error .misuse
  | some o, some value =>
    if o.takesValue then (← r.settle).accept o value else .error .misuse
  | some o, none =>
    let r ← r.settle
    if o.takesValue then return { r with pending := some (o, none) } else r.accept o ""

/-- Takes an option by its letter. -/
def takeShort (r : Reading) (letter : Char) : Except UsageError Reading := do
  if letter = 'v' then (← r.settle).accept .verbose "" else .error .misuse

/-- Takes an argument. -/
def take (allowed : List Opt) (r : Reading) (argument : String) : Except UsageError Reading :=
  if r.optionsEnded then r.takePlain argument
  else match Argument.ofChars argument.toList with
    | .endOfOptions => .ok { r with optionsEnded := true }
    | .long name value => r.takeLong allowed name value
    | .short letters => letters.foldlM takeShort r
    | .plain text => r.takePlain text

/-- Takes arguments up to the verb. -/
def upToVerb (r : Reading) : List String → Except UsageError (Reading × Verb × List String)
  | [] => .error .misuse
  | argument :: arguments =>
    match if r.optionsEnded || r.valueAwaited then none else Verb.ofName? argument with
    | some verb => .ok (r, verb, arguments)
    | none => do (← r.take Opt.everywhere argument).upToVerb arguments

end Reading

namespace Command

/-- The command that a verb and checked arguments make, if nothing is missing. -/
def assemble (given : List Given) : Verb → Option Command
  | .parse => do
    return .parse (← formula) (given.contains .json)
  | .rules =>
    return .rules (given.findSome? fun | .category c => some c | _ => none) format
      (given.findSome? fun | .exportPath p => some p | _ => none)
  | .applications => do
    return .applications (← formula) format
  | .apply => do
    return .apply (← formula) (← rule) direction
      (given.findSome? fun | .position p => some p | _ => none)
      (given.filterMap fun | .instantiation x e => some (x, e) | _ => none)
  | .chain => do
    let steps := given.filterMap fun | .step s => some s | _ => none
    if steps.isEmpty then none else return .chain (← formula) steps
  | .newVariables => do
    return .newVariables (← rule) direction
where
  formula : Option String := given.findSome? fun | .formula text => some text | _ => none
  rule : Option String := given.findSome? fun | .rule id => some id | _ => none
  format : Format := (given.findSome? fun | .format f => some f | _ => none).getD .table
  direction : Direction := if given.contains .reverse then .rightToLeft else .leftToRight

end Command

namespace Invocation

/-- The catalog's path among checked arguments. -/
def catalogPathOf (given : List Given) : Option String :=
  given.findSome? fun | .catalog path => some path | _ => none

/-- Reads a command line. A catalog that is named after the verb wins over one before it. -/
def read (arguments : List String) : Except UsageError Invocation := do
  let (before, verb, arguments) ← (Reading.start false).upToVerb arguments
  let after ← arguments.foldlM (Reading.take verb.options) (Reading.start verb.takesFormula)
  let after ← after.settle
  let before ← before.settle
  match Command.assemble after.given verb with
  | some command =>
    return ⟨(catalogPathOf after.given).or (catalogPathOf before.given), command⟩
  | none => .error .misuse

end Invocation

end PropCalc
