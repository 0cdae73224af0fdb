import Formulary.Decimal.Layout
import Formulary.Operator

/-!
# Why a formula has no value

The causes for which evaluation, classification or ordering fails, and the message of each.

## Main definitions

* `Malformation` — what is wrong with a program that cannot be classified
* `EvalError` — the causes
* `EvalError.message` — their wording
-/

namespace Formulary

/-- What is wrong with a program whose sort of result cannot be told. -/
inductive Malformation where
  /-- There are no tokens. -/
  | empty
  /-- The only token is an operator. -/
  | loneOperator
  /-- The last of several tokens is an operand. -/
  | lastOperand
deriving DecidableEq, Repr

/-- The wording of a malformation. -/
def Malformation.message : Malformation → String
  | empty => "no tokens"
  | loneOperator => "single token is not an operand"
  | lastOperand => "last token is not an operator"

/-- Why a formula has no value. -/
inductive EvalError where
  /-- A name is bound to nothing. -/
  | unresolved (name : String)
  /-- A formula was used before its text was read. -/
  | notGenerated (name : String)
  /-- An operator found fewer values on the stack than it takes. -/
  | underflow (symbol : Symbol) (needed available : Nat)
  /-- Execution ended with this many values instead of one. -/
  | leftover (count : Nat)
  /-- The sort of the result cannot be told. -/
  | malformed (cause : Malformation)
  /-- A symbol has no meaning for this many operands. -/
  | unsupported (symbol : Symbol) (arity : Arity)
  /-- The right operand of a division is zero. -/
  | divisionByZero
  /-- A function or a power has no finite real result at its arguments. -/
  | domain (symbol : Symbol) (arguments : List Float)
  /-- Named formulas refer to each other in a circle. -/
  | cycle (names : List String)
deriving DecidableEq

namespace EvalError

/-- The wording of a cause. -/
def message : EvalError → String
  | unresolved name => s!"Variable \"{name}\" is not defined"
  | notGenerated name => s!"Expression \"{name}\" has not been generated"
  | underflow symbol needed available =>
    s!"Operator \"{symbol.text}\" needs {needed} value(s) but only {available} available"
  | leftover count => s!"Expression left {count} value(s) on the stack, expected 1"
  | malformed cause => s!"Malformed postfix sequence: {cause.message}"
  | unsupported symbol arity =>
    s!"Operator \"{symbol.text}\" is not supported with {arity.count} operand(s)"
  | divisionByZero => "Division by zero"
  | domain symbol arguments =>
    let shown := String.intercalate ", " (arguments.map Decimal.text)
    s!"Math domain error: {symbol.text}({shown})"
  | cycle names =>
    let shown := String.intercalate ", " names
    s!"Dependency cycle between expressions: {shown}"

end EvalError

end Formulary
