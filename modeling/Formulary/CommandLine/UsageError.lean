import Formulary.CommandLine.Options
import Formulary.Text.Control

/-!
# Why arguments are refused

The causes for which a command line is refused, and the message of each.

A message shows texts from the arguments, which can hold control characters. It is written for a
terminal in pieces of different emphasis and then made plain: what a terminal would not show is
dropped from every piece by itself, because a change of emphasis ends a sequence that is left open.

## Main definitions

* `BindingError` — why a text is no binding
* `UsageError` — why arguments are refused
* `UsageError.pieces`, `UsageError.message` — the wording, in pieces of one emphasis and as a whole
-/

namespace Formulary

namespace CommandLine

/-- Why a text is no binding. -/
inductive BindingError where
  /-- It has no `=`. -/
  | noValue (binding : String)
  /-- There is nothing behind the `=`. -/
  | emptyValue (name : String)
  /-- What is behind the `=` is no number. -/
  | badValue (name : String)
deriving DecidableEq, Repr

/-- The wording of a cause. -/
def BindingError.message : BindingError → String
  | noValue binding => s!"expected NAME=VALUE, found '{binding}'"
  | emptyValue name => s!"invalid value for '{name}': cannot parse float from empty string"
  | badValue name => s!"invalid value for '{name}': invalid float literal"

/-- Why arguments are refused. -/
inductive UsageError where
  /-- There is no such option. -/
  | unexpectedArgument (argument : String)
  /-- A flag was given a value. -/
  | unexpectedValue (flag : Flag) (value : String)
  /-- An option that can stand once stands twice. -/
  | repeatedOption (option : ValueOption)
  /-- A flag stands twice. -/
  | repeatedFlag (flag : Flag)
  /-- An option has no value. -/
  | missingValue (option : ValueOption)
  /-- The value of an option is no binding. -/
  | invalidBinding (binding : String) (cause : BindingError)
deriving DecidableEq, Repr

namespace UsageError

/-- The last words of a message, and where to find help. -/
private def ending (words : String) : List String :=
  [words ++ "\n\nFor more information, try '", "--help", "'."]

/-- The wording of a cause, cut where the emphasis changes. -/
def pieces : UsageError → List String
  | unexpectedArgument argument =>
    ["error:", " unexpected argument '", argument] ++ ending "' found"
  | unexpectedValue flag value =>
    ["error:", " unexpected value '", value, "' for '", flag.usage]
      ++ ending "' found; no more were expected"
  | repeatedOption option =>
    ["error:", " the argument '", option.usage] ++ ending "' cannot be used multiple times"
  | repeatedFlag flag =>
    ["error:", " the argument '", flag.usage] ++ ending "' cannot be used multiple times"
  | missingValue option =>
    ["error:", " a value is required for '", option.usage] ++ ending "' but none was supplied"
  | invalidBinding binding cause =>
    ["error:", " invalid value '", binding, "' for '", ValueOption.define.usage]
      ++ ending ("': " ++ cause.message)

/-- The wording of a cause. -/
def message (e : UsageError) : String := String.join (e.pieces.map Text.withoutControls)

end UsageError

end CommandLine

end Formulary
