/-
  The commands of the program, and the options they are given with.

  Left out is the log: what a run notes on the error channel, beside its report, about rules
  loaded, rewrites tried and rules that are malformed. `--verbose`, or `-v`, says how much of
  that is written, unless the environment says it. The option is read like the others, as often
  as it is given, so that the same command lines are accepted; the command does not keep it,
  and neither what is printed nor the exit code depends on it.
-/
import PropCalc.Chain.StepSpec
import PropCalc.Command.Instantiation

namespace PropCalc

/-- How a listing is shown. -/
inductive Format
  | table
  | csv
  | json
  deriving DecidableEq, Repr

def Format.ofName? (name : String) : Option Format :=
  [("table", .table), ("csv", .csv), ("json", .json)].lookup name

/-- What the program is asked to do. -/
inductive Command
  /-- Show the canonical text of a formula, and its JSON form if asked to. -/
  | parse (formula : String) (json : Bool)
  /-- List rules, and save the catalog if asked to. -/
  | rules (category : Option Category) (format : Format) (exportPath : Option String)
  /-- List the applications of a formula. -/
  | applications (formula : String) (format : Format)
  /-- Use one rule. -/
  | apply (formula rule : String) (direction : Direction) (position : Option Path)
      (given : List (String × Formula))
  /-- Use several rules in turn. -/
  | chain (formula : String) (steps : List StepSpec)
  /-- List the variables that a rule introduces. -/
  | newVariables (rule : String) (direction : Direction)
  deriving DecidableEq, Repr

/-- A command, and the file of the catalog to use in place of the standard one. -/
structure Invocation where
  catalogPath : Option String
  command : Command
  deriving DecidableEq, Repr

/-- The words that name a command. -/
inductive Verb
  | parse
  | rules
  | applications
  | apply
  | chain
  | newVariables
  deriving DecidableEq, Repr

/-- The options. -/
inductive Opt
  | catalog
  /-- how much is logged, which changes nothing here -/
  | verbose
  | json
  | category
  | format
  | exportPath
  | rule
  | reverse
  | position
  | instantiation
  | step
  deriving DecidableEq, Repr

namespace Opt

/-- The name after two dashes. -/
def long : Opt → String
  | catalog => "rules"
  | verbose => "verbose"
  | json => "json"
  | category => "category"
  | format => "format"
  | exportPath => "export"
  | rule => "rule"
  | reverse => "reverse"
  | position => "at"
  | instantiation => "with"
  | step => "step"

/-- The option with its value as messages show it. -/
def display : Opt → String
  | catalog => "--rules <RULES>"
  | verbose => "--verbose"
  | json => "--json"
  | category => "--category <CATEGORY>"
  | format => "--format <FORMAT>"
  | exportPath => "--export <EXPORT>"
  | rule => "--rule <RULE>"
  | reverse => "--reverse"
  | position => "--at <AT>"
  | instantiation => "--with <INSTANTIATIONS>"
  | step => "--step <STEPS>"

def takesValue : Opt → Bool
  | verbose | json | reverse => false
  | _ => true

/-- The option may be given more than once. -/
def repeatable : Opt → Bool
  | verbose | instantiation | step => true
  | _ => false

/-- The options that may also stand before the verb. -/
def everywhere : List Opt := [catalog, verbose]

end Opt

namespace Verb

def ofName? (name : String) : Option Verb :=
  [("parse", parse), ("rules", rules), ("applications", applications), ("apply", apply),
    ("chain", chain), ("new-vars", newVariables)].lookup name

/-- The options that may follow the verb. -/
def options : Verb → List Opt
  | parse => .json :: Opt.everywhere
  | rules => [.category, .format, .exportPath] ++ Opt.everywhere
  | applications => .format :: Opt.everywhere
  | apply => [.rule, .reverse, .position, .instantiation] ++ Opt.everywhere
  | chain => .step :: Opt.everywhere
  | newVariables => [.rule, .reverse] ++ Opt.everywhere

/-- A formula follows the verb. -/
def takesFormula : Verb → Bool
  | rules | newVariables => false
  | _ => true

end Verb

end PropCalc
