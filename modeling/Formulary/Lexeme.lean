import Formulary.Decimal.Reading
import Formulary.ParseError
import Formulary.Token

/-!
# Lexemes

What the scanner finds in a text, before anything is done about the text inside parentheses. A
lexeme is a token whose group is still a text.

## Main definitions

* `Lexeme` — the four sorts of lexeme
* `Constant.ofLiteral` — the number that a literal stands for, or why it stands for none
* `Scan` — the lexemes found, and what stopped the search for more
-/

namespace Formulary

/-- The largest whole number that can be written; the next one has no exact neighbour. -/
def largestWhole : Nat := Nat.pow 2 53 - 1

/-- The number that a literal stands for. A literal with a point or an exponent is a decimal
number; any other one is a whole number, which must not exceed `largestWhole`. -/
def Constant.ofLiteral (literal : String) : Except ParseError Constant :=
  if literal.toList.any (fun c => c == '.' || c == 'e' || c == 'E') then
    match Decimal.read? literal.toList with
    | some x => .ok (.decimal x)
    | none => .error (.unreadable literal)
  else
    let n := Decimal.digitsValue literal.toList
    if n ≤ largestWhole then .ok (.whole n) else .error (.tooLarge literal)

/-- A unit of a text as it is found. -/
inductive Lexeme where
  /-- A number. -/
  | constant (c : Constant)
  /-- A name that is not the name of a function. -/
  | reference (name : String)
  /-- An operator or a function. -/
  | operator (op : Operator)
  /-- The text between a pair of parentheses. -/
  | group (source : String)
deriving DecidableEq

/-- The outcome of a search for lexemes: those found, in order, and the cause that stopped it
before the end of the text, if one did. -/
structure Scan where
  lexemes : List Lexeme
  failure : Option ParseError
deriving DecidableEq

namespace Scan

/-- The outcome with a lexeme found before it, if there is one. -/
def after (found : Option Lexeme) (s : Scan) : Scan := ⟨found.toList ++ s.lexemes, s.failure⟩

@[simp] theorem after_none (s : Scan) : s.after none = s := rfl

@[simp] theorem lexemes_after (found : Option Lexeme) (s : Scan) :
    (s.after found).lexemes = found.toList ++ s.lexemes := rfl

@[simp] theorem failure_after (found : Option Lexeme) (s : Scan) :
    (s.after found).failure = s.failure := rfl

end Scan

end Formulary
