/-!
# Shortest decimal digits of a binary64 number

A finite nonzero number is the decimal `digits · 10 ^ exponent` with the fewest digits among those
that read back as the number itself, and the nearest of these when several have that few.

Everything happens in exact natural arithmetic. A binary64 number is `m · 2 ^ q`, and every such
number is a whole multiple of a power of ten, because `2 ^ (-k) = 5 ^ k · 10 ^ (-k)`. So the
number and the two ends of the interval that rounds to it become three natural numbers over one
power of ten (`Window`), and choosing `n` digits is dividing by a power of ten.

## Main definitions

* `Window` — a number between the ends of its rounding interval, as multiples of `10 ^ exponent`
* `Window.ofFloat` — the window of a finite nonzero number
* `Window.atLength?` — the decimal of `n` digits in the window, if the grid of `n` digits has one
* `shortest` — the decimal of fewest digits

## Implementation notes

If any point of the grid of `n` digits lies in the window, one of the two grid points around the
number does, so `atLength?` looks at these two only. A number exactly between them takes the upper
one. The search starts at no digits at all, whose grid offers the power of ten just above the
number: very small numbers have windows wide enough to hold it. Seventeen digits always separate
binary64 numbers; the fallback past that length is the exact value.
-/

namespace Formulary

namespace Decimal

/-- A positive decimal `digits · 10 ^ exponent`. -/
structure Scaled where
  digits : Nat
  exponent : Int
deriving DecidableEq, Repr

/-- A number and the ends of the interval of reals that round to it, all three multiples of
`10 ^ exponent`. The ends belong to the interval when `closed` holds. -/
structure Window where
  low : Nat
  value : Nat
  high : Nat
  closed : Bool
  exponent : Int

namespace Window

/-- Whether a multiple of `10 ^ exponent` reads back as the number of the window. -/
def accepts (w : Window) (n : Nat) : Bool :=
  if w.closed then w.low ≤ n && n ≤ w.high else w.low < n && n < w.high

/-- The window of `quarters / 4 · 2 ^ power`, whose interval reaches `below` quarters down and two
quarters up. -/
def ofQuarters (quarters below : Nat) (power : Int) (closed : Bool) : Window :=
  if 2 ≤ power then
    let scale := Nat.pow 2 (power - 2).toNat
    ⟨(quarters - below) * scale, quarters * scale, (quarters + 2) * scale, closed, 0⟩
  else
    let scale := Nat.pow 5 (2 - power).toNat
    ⟨(quarters - below) * scale, quarters * scale, (quarters + 2) * scale, closed, power - 2⟩

/-- The window of a finite nonzero number, its sign left aside. The number below a power of two is
half as far away as the one above it. -/
def ofFloat (x : Float) : Window :=
  let bits := x.toBits.toNat
  let fraction := bits % Nat.pow 2 52
  let biased := bits / Nat.pow 2 52 % Nat.pow 2 11
  let significand := if biased = 0 then fraction else fraction + Nat.pow 2 52
  let power : Int := (max biased 1 : Nat) - 1075
  let below := if significand = Nat.pow 2 52 then 1 else 2
  ofQuarters (4 * significand) below power (significand % 2 = 0)

/-- The number of digits of the number of the window. -/
def width (w : Window) : Nat := (Nat.toDigits 10 w.value).length

/-- The nearest decimal of `n` digits that lies in the window. -/
def atLength? (w : Window) (n : Nat) : Option Scaled :=
  let place := w.width - n
  let grid := Nat.pow 10 place
  let lower := w.value / grid
  let upper := lower + 1
  let pick (digits : Nat) : Scaled := ⟨digits, w.exponent + place⟩
  match w.accepts (lower * grid), w.accepts (upper * grid) with
  | true, true =>
    some (pick (if w.value - lower * grid < upper * grid - w.value then lower else upper))
  | true, false => some (pick lower)
  | false, true => some (pick upper)
  | false, false => none

end Window

/-- The decimal of fewest digits that reads back as a finite nonzero number, its sign left
aside. -/
def shortest (x : Float) : Scaled :=
  let w := Window.ofFloat x
  ((List.range 18).findSome? w.atLength?).getD ⟨w.value, w.exponent⟩

/-! ### Small facts -/

/-- The number of a window is one of its own decimals as soon as the interval is not empty. -/
theorem Window.accepts_value {w : Window} (h₁ : w.low < w.value) (h₂ : w.value < w.high) :
    w.accepts w.value = true := by
  unfold Window.accepts
  split <;> simp <;> omega

/-- A decimal of `n` digits is only given when it reads back. -/
theorem Window.accepts_of_atLength? {w : Window} {n : Nat} {d : Scaled}
    (h : w.atLength? n = some d) : w.accepts (d.digits * Nat.pow 10 (w.width - n)) = true := by
  unfold Window.atLength? at h
  simp only at h
  split at h
  · obtain rfl := Option.some.inj h
    dsimp only
    split <;> assumption
  · obtain rfl := Option.some.inj h
    assumption
  · obtain rfl := Option.some.inj h
    assumption
  · cases h

end Decimal

end Formulary
