import Formulary.CommandLine.Arguments
import Formulary.CommandLine.Files
import Formulary.Log
import Formulary.Schedule
import Formulary.Table
import Formulary.Text.Lines

/-!
# A run of the command line

The formulas of a run are named `expr1`, `expr2` and so on by their places among the texts. They
are generated in that order; those that are formulas are evaluated in the order of
`evaluationOrder`, and each value is bound to the name of its formula before the next one is
evaluated. A formula that refers to unbound names is not evaluated.

A run is a function of the arguments, the log filter and the file system as it is asked for one
file. What it writes is a list of events in the order they are written.

## Main definitions

* `Event`, `Report` — what a run writes, and how it exits
* `Outcome`, `outcomeOf` — what becomes of a formula
* `evaluateAll` — evaluating formulas in a given order, binding each value
* `runTexts`, `run` — a run on given texts, and a run on arguments
-/

namespace Formulary

namespace CommandLine

/-- One thing that a run writes. -/
inductive Event where
  /-- A line of results. -/
  | out (line : String)
  /-- A line of complaints. -/
  | err (line : String)
  /-- A record of the log. -/
  | log (record : Record)
deriving DecidableEq, Repr

/-- What a run writes, in order, and its exit code. -/
structure Report where
  events : List Event
  exit : Nat
deriving DecidableEq, Repr

namespace Report

/-- The lines of results. -/
def results (r : Report) : List String :=
  r.events.filterMap fun
    | .out line => some line
    | _ => none

/-- The lines of complaints. -/
def complaints (r : Report) : List String :=
  r.events.filterMap fun
    | .err line => some line
    | _ => none

/-- The records of the log. -/
def records (r : Report) : List Record :=
  r.events.filterMap fun
    | .log record => some record
    | _ => none

end Report

/-! ### What becomes of a formula -/

/-- What becomes of a formula that has been generated. -/
inductive Outcome where
  /-- It refers to these names, which are not bound. -/
  | unresolved (names : List String)
  /-- It cannot be evaluated. -/
  | failed (cause : EvalError)
  /-- It has a value, which is a truth value if it compares. -/
  | value (comparison : Bool) (v : Float)
deriving DecidableEq

namespace Outcome

/-- Whether there is a value. -/
def isValue : Outcome → Bool
  | value .. => true
  | _ => false

/-- A truth value and its number. -/
def truthText (v : Float) : String :=
  (if v != 0.0 then "true" else "false") ++ " (" ++ Decimal.text v ++ ")"

/-- The line for what has become of a formula. -/
def event (f : Formula) : Outcome → Event
  | unresolved names => .out (f.title ++ " -> unresolved: " ++ String.intercalate ", " names)
  | failed cause => .err (f.title ++ ": " ++ cause.message)
  | value comparison v =>
    .out (f.title ++ " = " ++ if comparison then truthText v else Decimal.text v)

/-- The table with the value bound to the name of its formula. -/
def publish (f : Formula) (table : Table) : Outcome → Table
  | value _ v => table.insert f.name v
  | _ => table

end Outcome

variable (lib : MathLibrary)

/-- What becomes of a formula when its names are looked up in a table. -/
def outcomeOf (table : Table) (f : Formula) : Outcome :=
  if f.validate table.bindings then
    match (f.update lib table.bindings).2 with
    | .error e => .failed e
    | .ok v => .value (f.isComparison.toOption.getD false) v
  else .unresolved (f.unresolved table.bindings)

/-- What becomes of formulas, each value bound before the next formula is evaluated. -/
def evaluateAll (table : Table) : List Formula → List (Formula × Outcome)
  | [] => []
  | f :: rest =>
    let outcome := outcomeOf lib table f
    (f, outcome) :: evaluateAll (outcome.publish f table) rest

/-! ### Logging -/

/-- The name of the program. -/
def programName : String := "expreval"

/-- The threshold of a run. A text that is a filter counts; otherwise the options do. -/
def threshold (o : Options) (filter : Option String) : Threshold :=
  match filter.bind (Threshold.ofFilter? programName) with
  | some threshold => threshold
  | none => some (if o.verbose then .debug else if o.showTokens then .info else .warn)

/-- The records that a threshold admits, as events. -/
def logged (threshold : Threshold) (records : List Record) : List Event :=
  (records.filter fun r => threshold.admits r.level).map .log

/-- The record of an order of evaluation. -/
def orderRecord (order : List Nat) : Record :=
  let shown := String.intercalate ", " (order.map toString)
  .plain .debug "evaluation order" [("order", "[" ++ shown ++ "]")]

/-- The records about a formula and what has become of it. -/
def outcomeLog (o : Options) (f : Formula) (outcome : Outcome) : List Record :=
  (if o.showTokens then (f.lines .executed).map fun line => .plain .info line [] else [])
    ++ [.plain .info "validating expression" [("name", f.name), ("source", f.source)]]
    ++ match outcome with
      | .unresolved names =>
        names.map fun n =>
          .plain .error "variable not found" [("expression", f.name), ("variable", n)]
      | .failed _ => []
      | .value _ v =>
        [.plain .debug "expression updated"
          [("name", f.name), ("value", Decimal.Layout.pointed.write v)]]

/-! ### Runs -/

/-- The formulas of a run, not generated yet. They share one provider, the table. -/
def formulasOf (texts : List String) : List Formula :=
  texts.zipIdx.map fun p => .ofText ("expr" ++ toString (p.2 + 1)) .sole p.1

/-- Generates a formula: the formula if its text is one, and what is written. -/
def generateOne (threshold : Threshold) (f : Formula) : Option Formula × List Event :=
  let log :=
    if threshold.admits .debug then
      logged threshold (generationLog f.provider [] f.name f.source)
    else []
  match f.generate with
  | (g, .ok ()) => (some g, log)
  | (g, .error e) => (none, log ++ [.err (g.title ++ ": " ++ e.message)])

/-- Evaluates generated formulas: what is written, and whether every one has a value. -/
def evaluateGenerated (o : Options) (threshold : Threshold) (table : Table)
    (formulas : List Formula) : Except EvalError (List Event × Bool) :=
  match evaluationOrder formulas with
  | .error e => .error e
  | .ok order =>
    let outcomes := evaluateAll lib table (order.filterMap fun i => formulas[i]?)
    .ok
      (logged threshold [orderRecord order]
        ++ outcomes.flatMap fun p =>
          logged threshold (outcomeLog o p.1 p.2) ++ [p.2.event p.1],
      outcomes.all fun p => p.2.isValue)

/-- A run on the texts of its formulas. -/
def runTexts (o : Options) (threshold : Threshold) (texts : List String) : Report :=
  let generated := (formulasOf texts).map (generateOne threshold)
  let formulas := generated.filterMap Prod.fst
  let written := generated.flatMap Prod.snd
  let allGenerated := generated.all fun p => p.1.isSome
  match evaluateGenerated lib o threshold (Table.ofBindings o.defines) formulas with
  | .error e => ⟨written ++ [.err e.message], 1⟩
  | .ok (events, allValues) => ⟨written ++ events, if allGenerated && allValues then 0 else 1⟩

/-- The texts of the formulas of a run, which a file replaces; or the complaint about the file. -/
def textsOf (readFile : String → Except ReadError String) (o : Options) :
    Except String (List String) :=
  match o.file with
  | none => .ok o.formulas
  | some path =>
    match readFile path with
    | .ok contents => .ok (Text.fileLines contents)
    | .error e => .error s!"Failed to read the input file '{path}': {e.message}"

/-- The name and the version of the program. -/
def versionLine : String := programName ++ " 0.1.0"

/-- What the program does and how it is called. -/
def helpLines : List String :=
  ["expreval evaluates arithmetic and boolean expressions against named parameter values",
    "",
    "Usage: expreval [OPTIONS] [EXPRESSIONS]...",
    "",
    "Arguments:",
    "  [EXPRESSIONS]...  Expressions to evaluate; results are published as exprN",
    "",
    "Options:",
    "  -f, --file <FILE>          Reads expressions from a file, one per line",
    "  -D, --define <NAME=VALUE>  Binds a parameter",
    "  -s, --show                 Logs the postfix tokens of each expression",
    "  -v, --verbose              Enables debug logging",
    "  -h, --help                 Print help",
    "  -V, --version              Print version"]

/-- A run: what it writes and how it exits, given how to read a file, the log filter and the
arguments. -/
def run (readFile : String → Except ReadError String) (filter : Option String)
    (arguments : List String) : Report :=
  match parseArguments arguments with
  | .error (.refused cause) => ⟨[.err cause.message], 2⟩
  | .error .help => ⟨helpLines.map .out, 0⟩
  | .error .version => ⟨[.out versionLine], 0⟩
  | .ok o =>
    match textsOf readFile o with
    | .error complaint => ⟨[.err complaint], 1⟩
    | .ok texts => runTexts lib o (threshold o filter) texts

end CommandLine

end Formulary
