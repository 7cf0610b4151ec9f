/-
  Running commands: what they print, the files they read and write, and how they end. What is
  logged meanwhile is left out.
-/
import PropCalc.Command.Arguments
import PropCalc.Command.Failure
import PropCalc.Listing.Rows

namespace PropCalc

/-- What a command has printed, and why it has failed if it has. -/
structure Outcome where
  output : String
  failure : Option Failure
  deriving DecidableEq, Repr

namespace Outcome

/-- A success that prints lines. -/
def lines (ls : List String) : Outcome := ⟨String.join (ls.map (· ++ "\n")), none⟩

/-- A failure that prints nothing. -/
def failed (f : Failure) : Outcome := ⟨"", some f⟩

end Outcome

namespace Command

/-- What listings print in a format. -/
def listingText (l : Listing) (json : Json) : Format → String
  | .table => l.table ++ "\n"
  | .csv => l.csv
  | .json => json.pretty ++ "\n"

/-- Goes on with the formula that a text spells. -/
def withFormula (text : String) (go : Formula → Outcome) : Outcome :=
  match Formula.parse text with
  | .ok e => go e
  | .error reason => .failed (.unparsable text reason)

/-- Goes on with the rule that has an id. -/
def withRule (c : Catalog) (id : String) (go : Rule → Outcome) : Outcome :=
  match c.get? id with
  | some r => go r
  | none => .failed (.unknownRule id)

def runParse (styled : Bool) (text : String) (json : Bool) : Outcome :=
  withFormula text fun e =>
    .lines (Style.bold.paint styled e.text :: if json then [e.toJson.pretty] else [])

/-- The rules that are listed. -/
def listed (c : Catalog) : Option Category → List Rule
  | none => c.rules
  | some category => c.inCategory category

/-- What the listing of rules prints. -/
def rulesText (c : Catalog) (category : Option Category) (format : Format) : String :=
  let rules := listed c category
  listingText (.ofRules rules) (.arr (rules.map Rule.toJson)) format

/-- What the listing of applications prints. -/
def applicationsText (styled : Bool) (c : Catalog) (e : Formula) (format : Format) : String :=
  let as := c.applications e
  let listing := listingText (.ofApplications as) (Application.listToJson as) format
  match format with
  | .table =>
    Style.bold.paint styled e.text ++ "\n" ++
      if as.isEmpty then Style.yellow.paint styled "No rule applies." ++ "\n" else listing
  | _ => listing

/-- The introduced variables that have been given no formula, each with its family. -/
def leftOpen (r : Rule) (d : Direction) (given : Substitution) : List String :=
  ((r.introduced d).entries.filter fun (x, _) => (given.get? x).isNone).map fun (x, kind) =>
    x ++ " (" ++ kind.label ++ ")"

def runApply (styled : Bool) (c : Catalog) (text id : String) (d : Direction)
    (position : Option Path) (given : Substitution) : Outcome :=
  withFormula text fun e => withRule c id fun r =>
    match r.apply d position given e with
    | none => .failed (.notApplicable r d e position)
    | some result =>
      let openVariables := leftOpen r d given
      .lines <|
        ["  " ++ e.text,
          "≡ " ++ Style.boldGreen.paint styled result.text ++ "    [" ++
            Style.cyan.paint styled r.id ++ "]"] ++
        if openVariables.isEmpty then []
        else [Style.yellow.paint styled "Introduced variables left as they are:" ++ " " ++
          ", ".intercalate openVariables]

/-- The steps of a printed chain are not kept, so no clock is read for them. -/
def untimed : Nat := 0

def runChain (c : Catalog) (text : String) (steps : List StepSpec) : Outcome :=
  withFormula text fun e =>
    match Chain.run c untimed e steps with
    | .ok d => .lines [d.text]
    | .error (.notApplicable n r d reached) =>
      ⟨reached.text ++ "\n", some (.chain (.notApplicable n r d reached))⟩
    | .error reason => .failed (.chain reason)

def runNewVariables (styled : Bool) (c : Catalog) (id : String) (d : Direction) : Outcome :=
  withRule c id fun r =>
    let introduced := (r.introduced d).entries
    .lines <|
      (if introduced.isEmpty then [Failure.ruleText r d ++ " introduces no variables"] else []) ++
        introduced.map fun (x, kind) => Style.cyan.paint styled x ++ " " ++ kind.label

variable {m : Type → Type} [Monad m]

/-- Lists rules, and then saves the whole catalog if asked to, whatever has been listed. -/
def runRules (s : Storage m) (c : Catalog) (category : Option Category) (format : Format)
    (exportPath : Option String) : m Outcome := do
  let listing := rulesText c category format
  match exportPath with
  | none => return ⟨listing, none⟩
  | some path =>
    match ← c.save s path with
    | .ok () =>
      let count := String.ofList (Text.decimal c.rules.length)
      return ⟨listing ++ s!"Exported {count} rules to {path}\n", none⟩
    | .error reason => return ⟨listing, some (.saving path reason)⟩

/-- Runs a command with a catalog. -/
def run (s : Storage m) (styled : Bool) (c : Catalog) : Command → m Outcome
  | parse text json => return runParse styled text json
  | rules category format exportPath => runRules s c category format exportPath
  | applications text format =>
    return withFormula text fun e => ⟨applicationsText styled c e format, none⟩
  | apply text id d position given =>
    return runApply styled c text id d position (.ofList given)
  | chain text steps => return runChain c text steps
  | newVariables id d => return runNewVariables styled c id d

end Command

namespace Invocation

variable {m : Type → Type} [Monad m]

/-- Loads the catalog and runs the command. -/
def run (s : Storage m) (styled : Bool) (i : Invocation) : m Outcome := do
  match i.catalogPath with
  | none => i.command.run s styled .standard
  | some path =>
    match ← Catalog.load s path with
    | .ok c => i.command.run s styled c
    | .error reason => return .failed (.loading path reason)

end Invocation

/-- What a run of the program shows to the outside. -/
structure RunResult where
  exitCode : Nat
  output : String
  /-- what is printed on the error channel, apart from the log and without a final line break -/
  errors : Option String
  deriving DecidableEq, Repr

namespace RunResult

/-- A failed command ends with code 1 and its report. -/
def ofOutcome (o : Outcome) : RunResult :=
  match o.failure with
  | none => ⟨0, o.output, none⟩
  | some f => ⟨1, o.output, some f.report⟩

end RunResult

variable {m : Type → Type} [Monad m]

/-- Runs the program on its arguments. A refused command line ends with code 2. -/
def runProgram (s : Storage m) (styled : Bool) (arguments : List String) : m RunResult := do
  match Invocation.read arguments with
  | .error e => return ⟨2, "", some (e.message styled)⟩
  | .ok i => return .ofOutcome (← i.run s styled)

end PropCalc
