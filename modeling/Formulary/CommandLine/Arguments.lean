import Formulary.CommandLine.UsageError
import Formulary.Decimal.Reading
import Formulary.Text.Blank

/-!
# Arguments of the command line

How the options of a run are read from its arguments.

An argument that starts with two dashes is a long option, one that starts with a single dash is a
row of short options, and every other one is the value that the option before it waits for, or else
a formula. After `--` every argument is a formula. The value of an option is only looked at when
the next option or formula begins, so an argument that is no option at all is reported before a
wrong value in front of it.

## Main definitions

* `parseBinding` — a name and a value from the text of a binding
* `Reader`, `Reader.read` — what has been read so far, and reading one argument
* `parseArguments` — the options, or why there are none
-/

namespace Formulary

namespace CommandLine

/-! ### Bindings -/

/-- A text up to its first `=`, and what is behind it if there is one. -/
def splitAtEquals (text : List Char) : List Char × Option (List Char) :=
  match text.dropWhile (· != '=') with
  | [] => (text, none)
  | _ :: behind => (text.takeWhile (· != '='), some behind)

/-- A name and a value. Blanks around either are not part of it; a complaint names the name as it
was written. -/
def parseBinding (binding : String) : Except BindingError (String × Float) :=
  match splitAtEquals binding.toList with
  | (_, none) => .error (.noValue binding)
  | (name, some behind) =>
    let value := Text.trimmed (String.ofList behind)
    if value.isEmpty then .error (.emptyValue (String.ofList name))
    else
      match Decimal.read? value.toList with
      | none => .error (.badValue (String.ofList name))
      | some x => .ok (Text.trimmed (String.ofList name), x)

/-! ### Reading arguments -/

/-- What ends the reading of arguments before a run. -/
inductive Stop where
  /-- The arguments are refused. -/
  | refused (cause : UsageError)
  /-- Help is asked for. -/
  | help
  /-- The version is asked for. -/
  | version
deriving DecidableEq, Repr

/-- What has been read so far. -/
structure Reader where
  options : Options
  /-- The last option, as long as its value is not looked at: without one it waits for it. -/
  pending : Option (ValueOption × Option String)
  /-- Whether all further arguments are formulas. -/
  onlyFormulas : Bool

namespace Reader

/-- Nothing has been read. -/
def start : Reader := ⟨Options.none, none, false⟩

/-- Takes the value of an option. -/
def store (r : Reader) (option : ValueOption) (value : String) : Except Stop Reader :=
  match option with
  | .file =>
    if r.options.file.isSome then .error (.refused (.repeatedOption .file))
    else if value.isEmpty then .error (.refused (.missingValue .file))
    else .ok { r with options := { r.options with file := some value } }
  | .define =>
    match parseBinding value with
    | .error e => .error (.refused (.invalidBinding value e))
    | .ok b => .ok { r with options := { r.options with defines := r.options.defines ++ [b] } }

/-- Looks at the value of the last option, if that has not been done. -/
def settle (r : Reader) : Except Stop Reader :=
  match r.pending with
  | none => .ok r
  | some (option, none) => .error (.refused (.missingValue option))
  | some (option, some value) => store { r with pending := none } option value

/-- Takes a flag. -/
def raise (r : Reader) (flag : Flag) : Except Stop Reader := do
  let r ← r.settle
  match flag with
  | .help => .error .help
  | .version => .error .version
  | .showTokens =>
    if r.options.showTokens then .error (.refused (.repeatedFlag flag))
    else .ok { r with options := { r.options with showTokens := true } }
  | .verbose =>
    if r.options.verbose then .error (.refused (.repeatedFlag flag))
    else .ok { r with options := { r.options with verbose := true } }

/-- Takes an option, with its value if that is attached to it. -/
def take (r : Reader) (option : ValueOption) (attached : Option String) : Except Stop Reader := do
  let r ← r.settle
  match attached with
  | some value => r.store option value
  | none => .ok { r with pending := some (option, none) }

/-- Reads a long option, without its dashes. -/
def readLong (r : Reader) (body : List Char) : Except Stop Reader :=
  let (name, attached) := splitAtEquals body
  match longOption? (String.ofList name), attached with
  | none, _ => .error (.refused (.unexpectedArgument ("--" ++ String.ofList name)))
  | some (.inl option), attached => r.take option (attached.map String.ofList)
  | some (.inr flag), some value => .error (.refused (.unexpectedValue flag (String.ofList value)))
  | some (.inr flag), none => r.raise flag

/-- Reads a row of short options, without its dash. What follows an option that takes a value is
that value; an `=` between them is not part of it. -/
def readShort : Reader → List Char → Except Stop Reader
  | r, [] => .ok r
  | r, c :: rest =>
    match shortOption? c with
    | none => .error (.refused (.unexpectedArgument ("-" ++ String.singleton c)))
    | some (.inr flag) => do
      let r ← r.raise flag
      readShort r rest
    | some (.inl option) =>
      match rest with
      | [] => r.take option none
      | '=' :: value => r.take option (some (String.ofList value))
      | value => r.take option (some (String.ofList value))

/-- Reads a formula. -/
def readFormula (r : Reader) (argument : String) : Except Stop Reader := do
  let r ← r.settle
  .ok { r with options := { r.options with formulas := r.options.formulas ++ [argument] } }

/-- Reads one argument. -/
def read (r : Reader) (argument : String) : Except Stop Reader :=
  if r.onlyFormulas then r.readFormula argument
  else
    match argument.toList with
    | ['-', '-'] => .ok { r with onlyFormulas := true }
    | '-' :: '-' :: body => r.readLong body
    | '-' :: c :: rest => r.readShort (c :: rest)
    | _ =>
      match r.pending with
      | some (option, none) => .ok { r with pending := some (option, some argument) }
      | _ => r.readFormula argument

/-- Reads arguments one after another. -/
def readAll : Reader → List String → Except Stop Reader
  | r, [] => r.settle
  | r, argument :: rest => do
    let r ← r.read argument
    readAll r rest

end Reader

/-- The options of a run, or why it does not take place. -/
def parseArguments (arguments : List String) : Except Stop Options :=
  (Reader.start.readAll arguments).map Reader.options

end CommandLine

end Formulary
