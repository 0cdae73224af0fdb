/-!
# Options of the command line

What a run can be asked to do, and the options and flags that ask for it.

## Main definitions

* `Options` — what a run is asked to do
* `ValueOption`, `Flag` — the options with a value and those without one
* `longOption?`, `shortOption?` — an option by its long name and by its letter
-/

namespace Formulary

namespace CommandLine

/-- What a run is asked to do. -/
structure Options where
  /-- The file to take formulas from instead of the arguments. -/
  file : Option String
  /-- The bindings, in the order they were given. -/
  defines : List (String × Float)
  /-- Whether to log the tokens of each formula. -/
  showTokens : Bool
  /-- Whether to log the work in detail. -/
  verbose : Bool
  /-- The formulas among the arguments. -/
  formulas : List String

/-- The options when nothing is asked for. -/
def Options.none : Options := ⟨.none, [], false, false, []⟩

/-- An option that takes a value. -/
inductive ValueOption where
  | file
  | define
deriving DecidableEq, Repr

/-- An option that takes no value. -/
inductive Flag where
  | showTokens
  | verbose
  | help
  | version
deriving DecidableEq, Repr

/-- An option as messages name it. -/
def ValueOption.usage : ValueOption → String
  | file => "--file <FILE>"
  | define => "--define <NAME=VALUE>"

/-- A flag as messages name it. -/
def Flag.usage : Flag → String
  | showTokens => "--show"
  | verbose => "--verbose"
  | help => "--help"
  | version => "--version"

/-- An option by its long name. -/
def longOption? : String → Option (ValueOption ⊕ Flag)
  | "file" => some (.inl .file)
  | "define" => some (.inl .define)
  | "show" => some (.inr .showTokens)
  | "verbose" => some (.inr .verbose)
  | "help" => some (.inr .help)
  | "version" => some (.inr .version)
  | _ => none

/-- An option by its letter. -/
def shortOption? : Char → Option (ValueOption ⊕ Flag)
  | 'f' => some (.inl .file)
  | 'D' => some (.inl .define)
  | 's' => some (.inr .showTokens)
  | 'v' => some (.inr .verbose)
  | 'h' => some (.inr .help)
  | 'V' => some (.inr .version)
  | _ => none

end CommandLine

end Formulary
