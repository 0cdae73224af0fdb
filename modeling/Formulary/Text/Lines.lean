import Formulary.Text.Blank

/-!
# Lines

A text is cut into lines at its line feeds. A file of formulas holds one formula on each line;
blanks around it do not count, and lines that are empty or start with `#` hold none.

## Main definitions

* `cutLines` — the lines of a text
* `fileLines` — the lines of a file that hold a formula

## Main results

* `intercalate_cutLines` — lines joined by line feeds are the text again
* `lineFeed_not_mem_of_mem_cutLines` — no line holds a line feed, so the cuts are all of them
-/

namespace Formulary

namespace Text

/-- A text cut at each line feed. A text without a line feed is one line, even if it is empty. -/
def cutLines : List Char → List (List Char)
  | [] => [[]]
  | c :: rest =>
    if c = '\n' then [] :: cutLines rest
    else
      match cutLines rest with
      | [] => [[c]]
      | line :: lines => (c :: line) :: lines

/-- The lines of a file, cut at line feeds only and trimmed, that are neither empty nor a comment
started by `#`. A carriage return is a blank, so it needs no cut of its own. -/
def fileLines (contents : String) : List String :=
  ((cutLines contents.toList).map fun line => trimmed (String.ofList line)).filter fun line =>
    !line.isEmpty && line.toList.head? != some '#'

/-- There is always a line. -/
theorem cutLines_ne_nil (text : List Char) : cutLines text ≠ [] := by
  cases text with
  | nil => simp [cutLines]
  | cons c rest =>
    unfold cutLines
    split
    · simp
    · split <;> simp

@[simp] theorem cutLines_lineFeed (rest : List Char) :
    cutLines ('\n' :: rest) = [] :: cutLines rest := by
  simp [cutLines]

/-- A character other than a line feed belongs to the first line of what follows it. -/
theorem cutLines_cons {c : Char} {rest line : List Char} {lines : List (List Char)}
    (hc : c ≠ '\n') (h : cutLines rest = line :: lines) :
    cutLines (c :: rest) = (c :: line) :: lines := by
  simp [cutLines, hc, h]

/-- **Nothing is lost.** Lines joined by line feeds are the text again. -/
theorem intercalate_cutLines (text : List Char) :
    List.intercalate ['\n'] (cutLines text) = text := by
  induction text with
  | nil => rfl
  | cons c rest ih =>
    obtain ⟨line, lines, h⟩ := List.exists_cons_of_ne_nil (cutLines_ne_nil rest)
    rw [h] at ih
    by_cases hc : c = '\n'
    · subst hc
      rw [cutLines_lineFeed, h, ← ih]
      rfl
    · rw [cutLines_cons hc h, ← ih]
      cases lines <;> rfl

/-- No line holds a line feed. -/
theorem lineFeed_not_mem_of_mem_cutLines {text line : List Char} (h : line ∈ cutLines text) :
    '\n' ∉ line := by
  induction text generalizing line with
  | nil =>
    obtain rfl := List.mem_singleton.mp h
    exact List.not_mem_nil
  | cons c rest ih =>
    obtain ⟨first, lines, hrest⟩ := List.exists_cons_of_ne_nil (cutLines_ne_nil rest)
    by_cases hc : c = '\n'
    · subst hc
      rw [cutLines_lineFeed] at h
      rcases List.mem_cons.mp h with rfl | h
      · exact List.not_mem_nil
      · exact ih h
    · rw [cutLines_cons hc hrest] at h
      rcases List.mem_cons.mp h with rfl | h
      · have hfirst : '\n' ∉ first := ih (by rw [hrest]; exact List.mem_cons_self)
        simpa [Ne.symm hc] using hfirst
      · exact ih (by rw [hrest]; exact List.mem_cons_of_mem _ h)

end Text

end Formulary
