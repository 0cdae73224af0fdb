/-!
# Reading numbers

The decimal texts that stand for a binary64 number, and the number nearest to each.

A text is an optional sign followed by a name (`inf`, `infinity` or `nan`, in any case) or by a
numeral. A numeral has digits with at most one point among, before or after them, at least one
digit in all, and optionally `e` or `E`, an optional sign and at least one digit.

## Main definitions

* `digitsValue` — the natural number that a word of digits stands for
* `Numeral` — the parts of a numeral
* `Numeral.read?` — cutting a text into these parts
* `Numeral.toFloat` — the binary64 number nearest to a numeral, ties to even
* `read?` — the number of a text with its sign, names included

## Implementation notes

`Float.ofScientific` rounds correctly, but forms the power of ten it is given. A numeral beyond
`10 ^ 400` or below `10 ^ (-400)` is decided by its size before that power is formed.
-/

namespace Formulary

namespace Decimal

/-- The value of a word of digits. -/
def digitsValue (digits : List Char) : Nat :=
  digits.foldl (fun value c => 10 * value + (c.toNat - '0'.toNat)) 0

/-- A numeral: its digits before and after the point, and its power of ten. -/
structure Numeral where
  whole : List Char
  fraction : List Char
  exponent : Int
deriving DecidableEq, Repr

namespace Numeral

/-- The exponent of a numeral, from the text after its digits: none, or `e` and an integer. -/
def readExponent? : List Char → Option Int
  | [] => some 0
  | e :: rest =>
    if e = 'e' ∨ e = 'E' then
      let (negative, digits) := match rest with
        | '-' :: digits => (true, digits)
        | '+' :: digits => (false, digits)
        | digits => (false, digits)
      if !digits.isEmpty && digits.all Char.isDigit then
        some (if negative then -(digitsValue digits : Int) else digitsValue digits)
      else none
    else none

/-- The parts of a numeral without a sign. -/
def read? (text : List Char) : Option Numeral :=
  let whole := text.takeWhile Char.isDigit
  let rest := text.dropWhile Char.isDigit
  let (fraction, tail) := match rest with
    | '.' :: more => (more.takeWhile Char.isDigit, more.dropWhile Char.isDigit)
    | _ => ([], rest)
  if whole.isEmpty && fraction.isEmpty then none
  else (readExponent? tail).map fun exponent => ⟨whole, fraction, exponent⟩

/-- The digits of a numeral from the first that is not zero. -/
def significant (n : Numeral) : List Char := (n.whole ++ n.fraction).dropWhile (· == '0')

/-- The number of places before the point of the same number written without leading zeros. -/
def magnitude (n : Numeral) : Int :=
  n.significant.length + n.exponent - n.fraction.length

/-- The binary64 number nearest to a numeral, an even significand winning a tie. -/
def toFloat (n : Numeral) : Float :=
  let scale := n.exponent - n.fraction.length
  if n.significant.isEmpty || n.magnitude < -400 then 0.0
  else if 400 < n.magnitude then 1.0 / 0.0
  else Float.ofScientific (digitsValue n.significant) (scale < 0) scale.natAbs

end Numeral

/-- The number of a text without a sign. -/
def readUnsigned? (text : List Char) : Option Float :=
  let lower := text.map Char.toLower
  if lower = "inf".toList || lower = "infinity".toList then some (1.0 / 0.0)
  else if lower = "nan".toList then some (0.0 / 0.0)
  else (Numeral.read? text).map Numeral.toFloat

/-- The number that a text stands for. -/
def read? : List Char → Option Float
  | '-' :: rest => (readUnsigned? rest).map (- ·)
  | '+' :: rest => readUnsigned? rest
  | text => readUnsigned? text

end Decimal

end Formulary
