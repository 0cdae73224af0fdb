import Formulary.Operator

/-!
# Why a text is no formula

The causes for which a text is refused, and the message of each.

## Main definitions

* `Phase` — what the scanner was in the middle of
* `ParseError` — the causes
* `ParseError.message` — their wording
-/

namespace Formulary

/-- What the scanner is in the middle of when it reads a character. -/
inductive Phase where
  /-- At the start, or after an operator: a sign belongs to the operand that follows. -/
  | start
  /-- Between two tokens. -/
  | top
  /-- In a name. -/
  | name
  /-- In the digits of a number, before any point. -/
  | number
  /-- In the digits of a number after its point. -/
  | decimal
  /-- In the exponent of a number. -/
  | exponent
  /-- In a parenthesised group. -/
  | group
deriving DecidableEq, Repr

/-- The name of a phase in messages. -/
def Phase.label : Phase → String
  | start => "START"
  | top => "TOP"
  | name => "NAME"
  | number => "NUMBER"
  | decimal => "NUMBER_DEC"
  | exponent => "NUMBER_EXP"
  | group => "PARAN"

/-- Why a text is no formula. -/
inductive ParseError where
  /-- A character that cannot stand where it does. -/
  | unexpected (c : Char) (phase : Phase)
  /-- The text ended with this many groups open. -/
  | unclosed (depth : Nat)
  /-- There is nothing but blanks. -/
  | emptyText
  /-- A pair of parentheses with nothing in it. -/
  | emptyGroup
  /-- A whole number past `2 ^ 53 - 1`, as written. -/
  | tooLarge (literal : String)
  /-- A number that cannot be read, as written. -/
  | unreadable (literal : String)
  /-- An operator with fewer operands before it than it takes. -/
  | missingOperand (symbol : Symbol)
  /-- More than one value is left, this many. -/
  | unjoined (count : Nat)
deriving DecidableEq, Repr

namespace ParseError

/-- The number of a character in hexadecimal. -/
def hexadecimal (c : Char) : String :=
  String.ofList ((Nat.toDigits 16 c.toNat).map Char.toUpper)

/-- What went wrong when tokens do not arrange, or a number does not read. -/
private def structural (details : String) : String := "Structure error: " ++ details

/-- The wording of a cause. -/
def message : ParseError → String
  | unexpected c phase =>
    s!"Parse error on '{c}' 0x{hexadecimal c}. State: {phase.label}"
  | unclosed depth => s!"Unclosed parenthesis: input ended at nesting depth {depth}"
  | emptyText => "Expression is empty"
  | emptyGroup => "Empty parenthesis group"
  | tooLarge literal => s!"Literal '{literal}' is too large"
  | unreadable literal => structural s!"invalid number '{literal}'"
  | missingOperand symbol => structural s!"operator '{symbol.text}' is missing an operand"
  | unjoined count => structural s!"{count} operands are not joined by an operator"

end ParseError

end Formulary
