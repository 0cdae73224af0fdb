import Formulary.Decimal.Shortest

/-!
# Writing numbers

A number is written with its shortest digits (`Decimal.shortest`). Where the digits go is decided
by a `Layout`: results, tokens and error messages use `Layout.plain`, which never writes an
exponent and no point for a whole number; log records use `Layout.pointed`, which marks a whole
number by `.0` and writes very large and very small numbers with an exponent.

## Main definitions

* `Scaled.positional`, `Scaled.scientific` — a decimal with all its places, and with an exponent
* `Layout` — the choice between them, and the mark of a whole number
* `text`, `Layout.write` — a number as results show it, and in a given layout

## Main results

* `Scaled.of_mem_positional` — the characters of a decimal with all its places
-/

namespace Formulary

namespace Decimal

/-- `n` zeros. -/
private def zeros (n : Nat) : String := String.ofList (List.replicate n '0')

namespace Scaled

/-- The digits, leading one first. -/
def figures (d : Scaled) : List Char := Nat.toDigits 10 d.digits

/-- Where the point stands: the number of places before it, counted from the leading digit. It is
negative when zeros separate the point from the leading digit. -/
def point (d : Scaled) : Int := d.figures.length + d.exponent

/-- The decimal with all its places; `whole` is appended when there is no fraction. -/
def positional (d : Scaled) (whole : String) : String :=
  if d.point ≤ 0 then
    "0." ++ zeros (-d.point).toNat ++ String.ofList d.figures
  else if 0 ≤ d.exponent then
    String.ofList d.figures ++ zeros d.exponent.toNat ++ whole
  else
    let before := d.point.toNat
    String.ofList (d.figures.take before) ++ "." ++ String.ofList (d.figures.drop before)

/-- A decimal with all its places is digits, perhaps with a point among them. -/
theorem of_mem_positional (d : Scaled) {whole : String} {c : Char}
    (h : c ∈ (d.positional whole).toList) : c.isDigit = true ∨ c = '.' ∨ c ∈ whole.toList := by
  have hfigures : ∀ c ∈ d.figures, c.isDigit = true :=
    fun c hc => Nat.isDigit_of_mem_toDigits (by decide) (by decide) hc
  have hzeros : ∀ {n : Nat}, c ∈ (zeros n).toList → c.isDigit = true := by
    intro n hc
    rw [zeros, String.toList_ofList] at hc
    rw [List.eq_of_mem_replicate hc]
    rfl
  rw [positional] at h
  split at h
  · simp only [String.toList_append, String.toList_ofList, List.mem_append] at h
    rcases h with (hzero | hmem) | hmem
    · rcases List.mem_cons.mp hzero with rfl | hpoint
      · exact .inl rfl
      · exact .inr (.inl (List.mem_singleton.mp hpoint))
    · exact .inl (hzeros hmem)
    · exact .inl (hfigures c hmem)
  · split at h
    · simp only [String.toList_append, String.toList_ofList, List.mem_append] at h
      rcases h with (hmem | hmem) | hmem
      · exact .inl (hfigures c hmem)
      · exact .inl (hzeros hmem)
      · exact .inr (.inr hmem)
    · simp only [String.toList_append, String.toList_ofList, List.mem_append] at h
      rcases h with (hmem | hmem) | hmem
      · exact .inl (hfigures c (List.mem_of_mem_take hmem))
      · exact .inr (.inl (List.mem_singleton.mp hmem))
      · exact .inl (hfigures c (List.mem_of_mem_drop hmem))

/-- The decimal as its leading digit, a fraction if there is one, and a power of ten. -/
def scientific (d : Scaled) : String :=
  let fraction := d.figures.drop 1
  String.ofList (d.figures.take 1)
    ++ (if fraction.isEmpty then "" else "." ++ String.ofList fraction)
    ++ "e" ++ toString (d.point - 1)

end Scaled

/-- How the digits of a number are laid out. -/
structure Layout where
  /-- What a whole number ends in. -/
  whole : String
  /-- Whether numbers from `10 ^ 16` on and below `10 ^ (-4)` are written with an exponent. -/
  exponents : Bool

namespace Layout

/-- All places, and nothing after a whole number. -/
def plain : Layout := ⟨"", false⟩

/-- A whole number ends in `.0`; numbers far from one have an exponent. -/
def pointed : Layout := ⟨".0", true⟩

/-- Whether a decimal is outside the range that is written with all its places. -/
def isFar (d : Scaled) : Bool := 16 < d.point || d.point ≤ -4

/-- A nonzero finite number, its sign left aside. -/
def magnitude (layout : Layout) (d : Scaled) : String :=
  if layout.exponents && isFar d then d.scientific else d.positional layout.whole

/-- Whether the sign bit of a number is set. -/
def isNegative (x : Float) : Bool := Nat.pow 2 63 ≤ x.toBits.toNat

/-- A number in a layout. Zero keeps its sign, and a NaN has none. -/
def write (layout : Layout) (x : Float) : String :=
  if x.isNaN then "NaN"
  else
    (if isNegative x then "-" else "")
      ++ if x.isInf then "inf"
        else if x == 0.0 then "0" ++ layout.whole
        else layout.magnitude (shortest x)

end Layout

/-- A number as results, tokens and messages show it. -/
def text (x : Float) : String := Layout.plain.write x

end Decimal

end Formulary
