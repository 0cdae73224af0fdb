/-!
# Operators

The operators of a formula: twelve symbols written between two operands and fifteen functions
written before one. A `+` or `-` is also written before one operand, so an `Operator` is an
operator `Symbol` together with the number of operands it takes where it stands.

## Main definitions

* `Symbol` — the operator symbols and function names, in table order (`Symbol.all`)
* `Symbol.text`, `Symbol.ofText?` — how a symbol is written, and reading it back
* `Symbol.precedence`, `Symbol.isComparison` — the rest of the operator table
* `Arity`, `Operator` — a symbol in its place

## Main results

* `Symbol.ofText?_text` — reading back what is written
* `Operator.precedence_comparison` — comparisons bind least
-/

namespace Formulary

/-- An operator symbol or the name of a function. -/
inductive Symbol where
  | add | subtract | multiply | divide | power
  | equal | notEqual | greater | greaterEqual | less | lessEqual
  | arrow
  | abs | acos | asin | atan | cos | cosh | exp | log | log10 | sin | sinh | sqrt | tan | tanh
  | floor
deriving DecidableEq, Repr

namespace Symbol

/-- Every symbol, in table order. -/
def all : List Symbol :=
  [add, subtract, multiply, divide, power, equal, notEqual, greater, greaterEqual, less, lessEqual,
    arrow, abs, acos, asin, atan, cos, cosh, exp, log, log10, sin, sinh, sqrt, tan, tanh, floor]

/-- How a symbol is written. -/
def text : Symbol → String
  | add => "+" | subtract => "-" | multiply => "*" | divide => "/" | power => "**"
  | equal => "==" | notEqual => "!=" | greater => ">" | greaterEqual => ">=" | less => "<"
  | lessEqual => "<=" | arrow => "->"
  | abs => "abs" | acos => "acos" | asin => "asin" | atan => "atan" | cos => "cos" | cosh => "cosh"
  | exp => "exp" | log => "log" | log10 => "log10" | sin => "sin" | sinh => "sinh"
  | sqrt => "sqrt" | tan => "tan" | tanh => "tanh" | floor => "floor"

/-- The symbol that is written so, if there is one. -/
def ofText? (s : String) : Option Symbol := all.find? fun symbol => symbol.text == s

/-- Whether a symbol compares its operands, so that it gives one for true and zero for false. -/
def isComparison : Symbol → Bool
  | equal | notEqual | greater | greaterEqual | less | lessEqual => true
  | _ => false

/-- Whether a symbol is the name of a function. -/
def isFunction : Symbol → Bool
  | add | subtract | multiply | divide | power | equal | notEqual | greater | greaterEqual | less
  | lessEqual | arrow => false
  | _ => true

/-- How tightly a symbol binds as the operator table has it. -/
def precedence : Symbol → Nat
  | equal | notEqual | greater | greaterEqual | less | lessEqual => 5
  | add | subtract => 10
  | multiply | divide => 20
  | power => 22
  | arrow => 30
  | _ => 25

/-- The place of a symbol in the operator table. -/
def index (symbol : Symbol) : Nat := all.idxOf symbol

@[simp] theorem mem_all (symbol : Symbol) : symbol ∈ all := by
  cases symbol <;> decide

/-- **Reading back.** Every symbol is the one that its text stands for. -/
@[simp] theorem ofText?_text (symbol : Symbol) : ofText? symbol.text = some symbol := by
  cases symbol <;> decide

theorem text_of_ofText? {s : String} {symbol : Symbol} (h : ofText? s = some symbol) :
    symbol.text = s := by
  simpa using List.find?_some h

theorem text_injective {a b : Symbol} (h : a.text = b.text) : a = b := by
  have ha := ofText?_text a
  rw [h, ofText?_text] at ha
  exact (Option.some.inj ha).symm

/-- The functions are the symbols that start with a letter. -/
theorem isFunction_eq_isAlpha_head (symbol : Symbol) :
    symbol.isFunction = (symbol.text.toList.head?.any Char.isAlpha) := by
  cases symbol <;> decide

end Symbol

/-- The number of operands an operator takes. -/
inductive Arity where
  /-- One operand, written after the operator. -/
  | unary
  /-- Two operands, one on each side. -/
  | binary
deriving DecidableEq, Repr

/-- The arity as a number. -/
def Arity.count : Arity → Nat
  | unary => 1
  | binary => 2

/-- A symbol in its place in a formula. -/
structure Operator where
  symbol : Symbol
  arity : Arity
deriving DecidableEq, Repr

namespace Operator

/-- A symbol before its single operand. -/
abbrev unary (symbol : Symbol) : Operator := ⟨symbol, .unary⟩

/-- A symbol between two operands. -/
abbrev binary (symbol : Symbol) : Operator := ⟨symbol, .binary⟩

/-- How tightly an operator binds. A sign binds like a function; every other operator has the
precedence of its symbol. -/
def precedence : Operator → Nat
  | ⟨.add, .unary⟩ | ⟨.subtract, .unary⟩ => 25
  | op => op.symbol.precedence

/-- Whether an operator compares. -/
def isComparison (op : Operator) : Bool := op.symbol.isComparison

/-- Whether an operator is written before its operand. -/
def isPrefix (op : Operator) : Bool := op.arity == .unary

@[simp] theorem isPrefix_unary (symbol : Symbol) : (unary symbol).isPrefix = true := rfl

@[simp] theorem isPrefix_binary (symbol : Symbol) : (binary symbol).isPrefix = false := rfl

@[simp] theorem precedence_binary (symbol : Symbol) :
    (binary symbol).precedence = symbol.precedence := by
  cases symbol <;> rfl

/-- An operator before its operand is its symbol with one operand. -/
theorem eq_unary {op : Operator} (h : op.isPrefix = true) : op = unary op.symbol := by
  rcases op with ⟨symbol, arity⟩
  cases arity with
  | unary => rfl
  | binary => cases h

/-- An operator between operands is its symbol with two operands. -/
theorem eq_binary {op : Operator} (h : op.isPrefix = false) : op = binary op.symbol := by
  rcases op with ⟨symbol, arity⟩
  cases arity with
  | unary => cases h
  | binary => rfl

/-- An operator takes one operand when it stands before it, and two otherwise. -/
theorem count_arity (op : Operator) : op.arity.count = if op.isPrefix then 1 else 2 := by
  rcases op with ⟨symbol, arity⟩
  cases arity <;> rfl

/-- Comparisons bind less tightly than every other operator. -/
theorem precedence_comparison (op : Operator) :
    op.precedence = 5 ∧ op.isComparison = true ∨ 10 ≤ op.precedence ∧ op.isComparison = false := by
  rcases op with ⟨symbol, arity⟩
  cases symbol <;> cases arity <;> decide

theorem precedence_pos (op : Operator) : 0 < op.precedence := by
  rcases op.precedence_comparison with ⟨h, _⟩ | ⟨h, _⟩ <;> omega

end Operator

end Formulary
