import Formulary.EvalError
import Formulary.Token

/-!
# Evaluation

A program is executed on a stack of values: an operand puts its value on the stack, an operator
replaces the topmost values by its result, and exactly one value must be left.

Names are looked up in an `Environment` each time they are met, and groups are executed on a stack
of their own when they are met, where their own provider is asked. The transcendental functions
come from a `MathLibrary`, and nothing here depends on what they return: a result that is not a
finite real number is refused by looking at the result.

## Main definitions

* `MathLibrary`, `MathLibrary.system` — the functions of binary64 numbers that evaluation uses
* `applyUnary`, `applyBinary` — the meaning of the operators
* `Token.execute`, `execute` — what a token and a program do to a stack
* `valueOf` — the single result of a program
* `isComparison` — whether a program compares, told by its last token

## Implementation notes

Whether an operator finds its operands and whether one value is left is checked here as well as by
`checkShape`, because programs can be put together by hand.
-/

namespace Formulary

/-- The functions of binary64 numbers that evaluation uses. -/
structure MathLibrary where
  acos : Float → Float
  asin : Float → Float
  atan : Float → Float
  cos : Float → Float
  exp : Float → Float
  log : Float → Float
  log10 : Float → Float
  sin : Float → Float
  sqrt : Float → Float
  tan : Float → Float
  floor : Float → Float
  pow : Float → Float → Float

/-- The functions of the platform. -/
def MathLibrary.system : MathLibrary where
  acos := Float.acos
  asin := Float.asin
  atan := Float.atan
  cos := Float.cos
  exp := Float.exp
  log := Float.log
  log10 := Float.log10
  sin := Float.sin
  sqrt := Float.sqrt
  tan := Float.tan
  floor := Float.floor
  pow := Float.pow

/-! ### The meaning of the operators -/

/-- The number for a truth value. -/
def truth (b : Bool) : Float := if b then 1.0 else 0.0

variable (lib : MathLibrary)

/-- The function that an operator before its operand stands for, if it stands for one. -/
def unaryFunction : Symbol → Option (Float → Float)
  | .add => some fun x => x
  | .subtract => some fun x => -x
  | .abs => some Float.abs
  | .acos => some lib.acos
  | .asin => some lib.asin
  | .atan => some lib.atan
  | .cos => some lib.cos
  | .exp => some lib.exp
  | .log => some lib.log
  | .log10 => some lib.log10
  | .sin => some lib.sin
  | .sqrt => some lib.sqrt
  | .tan => some lib.tan
  | .floor => some lib.floor
  | _ => none

/-- The value of an operator before its operand. It is outside the domain of the operator when a
NaN comes of a number, or an infinity of a finite number. -/
def applyUnary (symbol : Symbol) (x : Float) : Except EvalError Float :=
  match unaryFunction lib symbol with
  | none => .error (.unsupported symbol .unary)
  | some f =>
    let value := f x
    if (value.isNaN && !x.isNaN) || (value.isInf && x.isFinite) then .error (.domain symbol [x])
    else .ok value

/-- The value of a power. It is outside the domain when a NaN comes of two numbers, or an infinity
of two finite numbers. -/
def applyPower (lhs rhs : Float) : Except EvalError Float :=
  let value := lib.pow lhs rhs
  if (value.isNaN && !lhs.isNaN && !rhs.isNaN)
      || (value.isInf && (lhs.isFinite && rhs.isFinite)) then
    .error (.domain .power [lhs, rhs])
  else .ok value

/-- The value of an operator between two operands. -/
def applyBinary (symbol : Symbol) (lhs rhs : Float) : Except EvalError Float :=
  match symbol with
  | .add => .ok (lhs + rhs)
  | .subtract => .ok (lhs - rhs)
  | .multiply => .ok (lhs * rhs)
  | .divide => if rhs == 0.0 then .error .divisionByZero else .ok (lhs / rhs)
  | .power => applyPower lib lhs rhs
  | .equal => .ok (truth (lhs == rhs))
  | .notEqual => .ok (truth (lhs != rhs))
  | .greater => .ok (truth (lhs > rhs))
  | .greaterEqual => .ok (truth (lhs ≥ rhs))
  | .less => .ok (truth (lhs < rhs))
  | .lessEqual => .ok (truth (lhs ≤ rhs))
  | _ => .error (.unsupported symbol .binary)

/-- The result of an operator, put on the stack in place of its operands. The top of the stack is
the head of the list. -/
def applyOperator (op : Operator) (stack : List Float) : Except EvalError (List Float) :=
  match op.arity, stack with
  | .unary, x :: rest => (applyUnary lib op.symbol x).map (· :: rest)
  | .binary, rhs :: lhs :: rest => (applyBinary lib op.symbol lhs rhs).map (· :: rest)
  | arity, stack => .error (.underflow op.symbol arity.count stack.length)

/-! ### Execution -/

/-- The single value that is left. -/
def onlyValue : List Float → Except EvalError Float
  | [value] => .ok value
  | stack => .error (.leftover stack.length)

/-- The value that a name is bound to. -/
def lookUp (env : Environment) (name : String) : Except EvalError Float :=
  match env name with
  | some value => .ok value
  | none => .error (.unresolved name)

mutual

/-- The stack after a token. A group asks its own provider, and fails if it has no program. -/
def Token.execute (env : Environment) : Token → List Float → Except EvalError (List Float)
  | .constant c, stack => .ok (c.value :: stack)
  | .reference name, stack => (lookUp env name).map (· :: stack)
  | .group name provider _ _ program, stack =>
    if program.isEmpty then .error (.notGenerated name)
    else
      match execute (env.asking provider) program [] with
      | .error e => .error e
      | .ok left => (onlyValue left).map (· :: stack)
  | .operator op, stack => applyOperator lib op stack

/-- The stack after a list of tokens, executed in order. -/
def execute (env : Environment) : List Token → List Float → Except EvalError (List Float)
  | [], stack => .ok stack
  | t :: rest, stack =>
    match t.execute env stack with
    | .error e => .error e
    | .ok stack' => execute env rest stack'

end

@[simp] theorem execute_nil (env : Environment) (stack : List Float) :
    execute lib env [] stack = .ok stack := by
  rw [execute]

theorem execute_cons (env : Environment) (t : Token) (rest : List Token) (stack : List Float) :
    execute lib env (t :: rest) stack =
      match t.execute lib env stack with
      | .error e => .error e
      | .ok stack' => execute lib env rest stack' := by
  rw [execute]

/-- The value of a program. -/
def valueOf (env : Environment) (program : List Token) : Except EvalError Float :=
  match execute lib env program [] with
  | .error e => .error e
  | .ok left => onlyValue left

/-! ### Classification -/

/-- Whether a program compares: a single operand does not, and longer programs do when their last
operator does. -/
def isComparison : List Token → Except EvalError Bool
  | [] => .error (.malformed .empty)
  | [t] => if t.isOperand then .ok false else .error (.malformed .loneOperator)
  | t :: rest =>
    match (t :: rest).getLast? with
    | some (.operator op) => .ok op.isComparison
    | _ => .error (.malformed .lastOperand)

/-! ### Resolution -/

mutual

/-- Whether the names that a token refers to are all bound, those of a group by its provider. -/
def Token.isResolved (env : Environment) : Token → Bool
  | .reference name => (env name).isSome
  | .group _ provider _ _ program => allResolved (env.asking provider) program
  | _ => true

/-- Whether the names that a list of tokens refers to are all bound. -/
def allResolved (env : Environment) : List Token → Bool
  | [] => true
  | t :: rest => t.isResolved env && allResolved env rest

end

/-- The names without a binding that a list of tokens refers to, in order, repetitions kept. One
provider is asked for all of them. -/
def unresolved (env : Environment) (tokens : List Token) : List String :=
  (references tokens).filter fun name => (env name).isNone

end Formulary
