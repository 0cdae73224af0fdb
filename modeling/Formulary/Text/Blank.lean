/-!
# Blank characters

The characters that carry the Unicode property `White_Space`, and the two things the library does
with them: `visible` drops them all, which is how a formula's text is read, and `trimmed` drops
them at the two ends only, which is how a line of a file and the two halves of a binding are read.

## Main definitions

* `isBlank` — membership in the property, as a test on code points
* `visible` — a text without its blanks
* `trimmed` — a text without the blanks it starts and ends with

## Implementation notes

`Char.isWhitespace` of the core library knows only six characters, so the table is written out.
-/

namespace Formulary

namespace Text

/-- The code points with the Unicode property `White_Space`, as closed ranges. -/
def blankRanges : List (Nat × Nat) :=
  [(0x09, 0x0D), (0x20, 0x20), (0x85, 0x85), (0xA0, 0xA0), (0x1680, 0x1680), (0x2000, 0x200A),
    (0x2028, 0x2029), (0x202F, 0x202F), (0x205F, 0x205F), (0x3000, 0x3000)]

/-- Whether a character is a blank. -/
def isBlank (c : Char) : Bool :=
  blankRanges.any fun r => r.1 ≤ c.toNat && c.toNat ≤ r.2

/-- The characters of a text that are not blanks, in order. -/
def visible (text : String) : List Char :=
  text.toList.filter fun c => !isBlank c

/-- A text without the blanks at its start and at its end. -/
def trimmed (text : String) : String :=
  String.ofList ((text.toList.dropWhile isBlank).reverse.dropWhile isBlank).reverse

/-- Every character that the core library takes for white space is a blank. -/
theorem isBlank_of_isWhitespace {c : Char} (h : c.isWhitespace = true) : isBlank c = true := by
  simp only [Char.isWhitespace, Bool.or_eq_true, decide_eq_true_eq] at h
  rcases h with ((rfl | rfl) | rfl) | rfl <;> decide

theorem not_isBlank_of_mem_visible {text : String} {c : Char} (h : c ∈ visible text) :
    isBlank c = false := by
  simpa using (List.mem_filter.mp h).2

/-- Characters of which none is a blank are all kept. -/
theorem filter_eq_self {cs : List Char} (h : ∀ c ∈ cs, isBlank c = false) :
    cs.filter (fun c => !isBlank c) = cs := by
  rw [List.filter_eq_self]
  intro c hc
  rw [h c hc]
  rfl

/-- Reading skips blanks, so dropping them twice is dropping them once. -/
@[simp] theorem visible_ofList_visible (text : String) :
    visible (String.ofList (visible text)) = visible text := by
  simp [visible]

end Text

end Formulary
