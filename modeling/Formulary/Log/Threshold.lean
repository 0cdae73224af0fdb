import Formulary.Decimal.Reading

/-!
# Which log records are kept

A record has a level. Which levels are kept is said by a filter: directives with commas between
them, each of which gives a threshold to the programs whose names start in a certain way, or to all
programs. Of the directives that are meant for a program the one that says most of its name counts.

## Main definitions

* `Level`, `Threshold` — how important a record is, and which records are kept
* `Directive`, `Directive.ofText?` — one part of a filter
* `Threshold.ofFilter?` — the threshold that a filter gives to this program
-/

namespace Formulary

/-- How important a record is, the most important first. -/
inductive Level where
  | error
  | warn
  | info
  | debug
  | trace
deriving DecidableEq, Repr

namespace Level

/-- The word for a level at the start of a line. -/
def label : Level → String
  | error => "ERROR"
  | warn => "WARN"
  | info => "INFO"
  | debug => "DEBUG"
  | trace => "TRACE"

/-- The place of a level in the order of importance. -/
def rank : Level → Nat
  | error => 1
  | warn => 2
  | info => 3
  | debug => 4
  | trace => 5

/-- The level at a place in the order of importance. -/
def ofRank? : Nat → Option Level
  | 1 => some error
  | 2 => some warn
  | 3 => some info
  | 4 => some debug
  | 5 => some trace
  | _ => none

@[simp] theorem ofRank?_rank (level : Level) : ofRank? level.rank = some level := by
  cases level <;> rfl

end Level

/-- The least important level that is kept; none keeps nothing. -/
abbrev Threshold := Option Level

namespace Threshold

/-- Whether records of a level are kept. -/
def admits (threshold : Threshold) (level : Level) : Bool :=
  match threshold with
  | none => false
  | some least => level.rank ≤ least.rank

/-- The threshold of a word in any case, or of the place of a level in the order of importance;
zero keeps nothing. Other texts are no thresholds. -/
def ofText? (text : String) : Option Threshold :=
  if !text.isEmpty && text.toList.all Char.isDigit then
    match Decimal.digitsValue text.toList with
    | 0 => some none
    | n => (Level.ofRank? n).map some
  else
    match String.ofList (text.toList.map Char.toLower) with
    | "off" => some none
    | "error" => some (some .error)
    | "warn" => some (some .warn)
    | "info" => some (some .info)
    | "debug" => some (some .debug)
    | "trace" => some (some .trace)
    | _ => none

end Threshold

/-! ### Filters -/

/-- One part of a filter: a threshold for the programs whose names start with a target. -/
structure Directive where
  target : String
  threshold : Threshold
deriving DecidableEq, Repr

namespace Directive

/-- Whether a character can stand in a directive. -/
private def isTargetChar (c : Char) : Bool := c.isAlphanum || c == '_' || c == ':' || c == '-'

/-- A directive: a threshold for all programs, a target alone, which keeps everything, or both with
an equals sign between them. -/
def ofText? (text : String) : Option Directive :=
  match text.toList.span isTargetChar with
  | (target, []) =>
    match Threshold.ofText? text with
    | some threshold => some ⟨"", threshold⟩
    | none => some ⟨String.ofList target, some .trace⟩
  | ([], _) => none
  | (target, '=' :: []) => some ⟨String.ofList target, some .trace⟩
  | (target, '=' :: threshold) =>
    (Threshold.ofText? (String.ofList threshold)).map fun t => ⟨String.ofList target, t⟩
  | _ => none

/-- Whether a directive is meant for a program. -/
def applies (program : String) (d : Directive) : Bool := d.target.toList.isPrefixOf program.toList

/-- The directive that counts: the one with the longer target, and of two with the same target the
later one. -/
def strongest : Option Directive → Directive → Option Directive
  | none, d => some d
  | some best, d => if best.target.length ≤ d.target.length then some d else some best

end Directive

/-- The parts of a filter, empty ones left out. -/
def filterParts (filter : String) : List String :=
  ((filter.splitOn ",").filter fun part => !part.isEmpty)

/-- The threshold that a filter gives to a program, if it is a filter. A filter without directives
keeps errors; one whose directives are all meant for other programs keeps nothing. -/
def Threshold.ofFilter? (program filter : String) : Option Threshold :=
  (filterParts filter).mapM Directive.ofText? |>.map fun directives =>
    if directives.isEmpty then some .error
    else
      match (directives.filter (Directive.applies program)).foldl Directive.strongest none with
      | some d => d.threshold
      | none => none

end Formulary
