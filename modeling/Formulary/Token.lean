import Formulary.Decimal.Layout
import Formulary.Operator
import Formulary.Provider

/-!
# Tokens

The units of a formula. A token is an operand, which has a value of its own, or an operator, which
makes one value of the values before it. An operand is a constant, a reference to a named value, or
a group: a parenthesised formula, kept with its provider, its text and its own tokens in both
orders.

## Main definitions

* `Constant` — a whole or a decimal number as it was written
* `Token` — the four sorts of token
* `Token.text` — a token as dumps show it
* `Token.same` — equality of tokens, under which numbers are compared as numbers
* `references` — the names that a list of tokens refers to, those inside groups included

## Implementation notes

Groups make tokens a tree, and every function that looks into groups is a pair: one function on a
token, one on a list of tokens.
-/

namespace Formulary

/-- A number as it was written: without a point or an exponent, or with one. -/
inductive Constant where
  | whole (n : Int)
  | decimal (x : Float)
deriving DecidableEq

namespace Constant

/-- The number as a binary64 number. -/
def value : Constant → Float
  | whole n => Float.ofInt n
  | decimal x => x

/-- The number as dumps show it. -/
def text : Constant → String
  | whole n => toString n
  | decimal x => Decimal.text x

/-- Equality of numbers of one sort; any two NaN are equal, and so are the two zeros. -/
def same : Constant → Constant → Bool
  | whole m, whole n => m == n
  | decimal x, decimal y => if x.isNaN then y.isNaN else x == y
  | _, _ => false

end Constant

/-- A unit of a formula. -/
inductive Token where
  /-- A number. -/
  | constant (c : Constant)
  /-- A name whose value is looked up at each evaluation. -/
  | reference (name : String)
  /-- An operator or a function. -/
  | operator (op : Operator)
  /-- A parenthesised formula: its name, its provider, its text, its tokens in the order they were
  scanned, and its tokens in the order they are executed. -/
  | group (name : String) (provider : Provider) (source : String) (tokens program : List Token)

namespace Token

/-- Whether a token works on the values before it. -/
def isOperator : Token → Bool
  | operator _ => true
  | _ => false

/-- Whether a token has a value of its own. -/
def isOperand (t : Token) : Bool := !t.isOperator

/-- A token is an operand or an operator. -/
theorem isOperand_or_eq_operator (t : Token) : t.isOperand = true ∨ ∃ op, t = operator op := by
  cases t with
  | operator op => exact .inr ⟨op, rfl⟩
  | constant c => exact .inl rfl
  | reference name => exact .inl rfl
  | group name provider source tokens program => exact .inl rfl

/-- The sort of a token, as dumps name it. -/
def kind : Token → String
  | constant (.whole _) => "Int"
  | constant (.decimal _) => "Float"
  | reference _ => "Variable"
  | operator _ => "Operator"
  | group .. => "Expression"

/-- What a token was written as, a number in its shortest form. -/
def content : Token → String
  | constant c => c.text
  | reference name => name
  | operator op => op.symbol.text
  | group _ _ source _ _ => source

/-- One line of a dump: the sort of a token in ten columns, and its content. -/
def line (kind content : String) : String :=
  String.ofList (kind.toList.rightpad 10 ' ') ++ " : " ++ content

/-- A token as dumps show it. -/
def text (t : Token) : String := line t.kind t.content

end Token

/-! ### Equality -/

mutual

/-- Whether two tokens are the same: constants by their numbers, groups by name, text and tokens,
whatever their providers. -/
def Token.same : Token → Token → Bool
  | .constant a, .constant b => a.same b
  | .reference a, .reference b => a == b
  | .operator a, .operator b => a == b
  | .group name _ source tokens program, .group name' _ source' tokens' program' =>
    name == name' && source == source' && sameTokens tokens tokens'
      && sameTokens program program'
  | _, _ => false

/-- Whether two lists of tokens are the same, one by one. -/
def sameTokens : List Token → List Token → Bool
  | [], [] => true
  | a :: as, b :: bs => a.same b && sameTokens as bs
  | _, _ => false

end

/-! ### References -/

mutual

/-- The names a token refers to, those of a group in the order of its program. -/
def Token.references : Token → List String
  | .reference name => [name]
  | .group _ _ _ _ program => references program
  | _ => []

/-- The names a list of tokens refers to, in order, repetitions kept. -/
def references : List Token → List String
  | [] => []
  | t :: ts => t.references ++ references ts

end

@[simp] theorem references_nil : references [] = [] := by simp [references]

@[simp] theorem references_cons (t : Token) (ts : List Token) :
    references (t :: ts) = t.references ++ references ts := by simp [references]

@[simp] theorem references_append (l m : List Token) :
    references (l ++ m) = references l ++ references m := by
  induction l with
  | nil => simp
  | cons t ts ih => simp [ih]

end Formulary
