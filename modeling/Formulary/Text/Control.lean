/-!
# Control characters

A text can hold characters that a terminal obeys instead of showing them: the control characters,
and the sequences that the escape character begins. There are two ways to make such a text fit to
be shown. `withoutControls` drops what a terminal would not show; complaints about arguments are
written so. `withControlsSpelt` writes the dangerous control characters out; log messages are
written so.

## Main definitions

* `Sequence`, `Sequence.next` — the sequence that a terminal is in the middle of, and what a
  character makes of it
* `Screen`, `Screen.read` — whether a terminal shows a character
* `withoutControls` — the characters of a text that a terminal shows
* `withControlsSpelt` — a text with the dangerous control characters written out

## Main results

* `isShown_of_mem_withoutControls` — only characters that can be shown are left
* `withoutControls_eq_self` — a text without control characters is left as it is

## Implementation notes

The sequences are those of ECMA-48 in their seven-bit form. Terminals differ in what they do with
white space in the middle of a sequence. Here it is shown at once and so is what follows it; but
the sequence stays open, and the next control character goes on with it.
-/

namespace Formulary

namespace Text

/-! ### Characters that are shown -/

/-- Whether a control character only moves the place where text is shown. -/
def isSpacing (c : Char) : Bool := c == '\t' || c == '\n' || c == '\x0c' || c == '\r'

/-- Whether a character can be shown. Every character past ASCII can. -/
def isShown (c : Char) : Bool := isSpacing c || (' ' ≤ c && c ≠ '\x7f')

/-! ### Sequences -/

/-- What a terminal is in the middle of. -/
inductive Sequence where
  /-- Plain text. -/
  | plain
  /-- An escape sequence of which nothing but the escape character has been read. -/
  | escape
  /-- An escape sequence of more than one character. -/
  | intermediate
  /-- A control sequence. -/
  | control
  /-- The parameters of a device control string. -/
  | device
  /-- A character string that byte `9C` ends. -/
  | string
  /-- A command to the operating system, which the bell ends. -/
  | command
deriving DecidableEq, Repr

/-- Whether the UTF-8 form of a character holds byte `9C`. -/
def holdsTerminator (c : Char) : Bool := (String.utf8EncodeChar c).contains 0x9C

namespace Sequence

/-- Whether a sequence of this sort can end with a character. -/
private def isFinal (least c : Char) : Bool := least ≤ c && c ≤ '~'

/-- The sequence that a character begins right after the escape character. -/
def begin (c : Char) : Sequence :=
  match c with
  | '[' => control
  | ']' => command
  | 'P' => device
  | 'X' | '^' | '_' => string
  | _ =>
    if ' ' ≤ c && c ≤ '/' then intermediate
    else if isFinal '0' c then plain
    else escape

/-- What a terminal is in the middle of after a character. The escape character begins a sequence
wherever it stands, and cancel and substitute end one. -/
def next (s : Sequence) (c : Char) : Sequence :=
  if c = '\x1b' then escape
  else if c = '\x18' ∨ c = '\x1a' then plain
  else
    match s with
    | plain => plain
    | escape => begin c
    | intermediate => if isFinal '0' c then plain else intermediate
    | control => if isFinal '@' c then plain else control
    | device => if isFinal '@' c then string else device
    | string => if holdsTerminator c then plain else string
    | command => if c = '\x07' then plain else command

/-- Whether a character that is met in the middle of a sequence is shown. -/
def shows (s : Sequence) (c : Char) : Bool :=
  match s with
  | plain => isShown c
  | escape | intermediate | control => isSpacing c
  | device | string | command => false

end Sequence

/-! ### Showing a text -/

/-- A terminal: the sequence it is in the middle of, and whether it shows text all the same. -/
structure Screen where
  sequence : Sequence
  showing : Bool
deriving DecidableEq, Repr

namespace Screen

/-- A terminal at the start of a text. -/
def start : Screen := ⟨.plain, false⟩

/-- Whether the terminal shows a character. -/
def shows (s : Screen) (c : Char) : Bool := if s.showing then isShown c else s.sequence.shows c

/-- The terminal after a character. A character past ASCII that is shown ends the sequence. -/
def read (s : Screen) (c : Char) : Screen :=
  if s.showing && isShown c then
    if '\x7f' < c then ⟨.plain, true⟩ else s
  else ⟨s.sequence.next c, s.shows c⟩

/-- The characters of a text that the terminal shows. -/
def shown : Screen → List Char → List Char
  | _, [] => []
  | s, c :: rest => if s.shows c then c :: shown (s.read c) rest else shown (s.read c) rest

end Screen

/-- A text without what a terminal would not show. -/
def withoutControls (text : String) : String := String.ofList (Screen.start.shown text.toList)

/-! ### Spelling control characters -/

/-- A character as log messages write it: a control character that a terminal could obey by its
number in hexadecimal, and every other one as it is. -/
def spellControl (c : Char) : List Char :=
  let digits := Nat.toDigits 16 c.toNat
  if c = '\x07' ∨ c = '\x08' ∨ c = '\x0c' ∨ c = '\x1b' ∨ c = '\x7f' then
    '\\' :: 'x' :: (List.replicate (2 - digits.length) '0' ++ digits)
  else if 0x80 ≤ c.toNat ∧ c.toNat ≤ 0x9F then "\\u\x7b".toList ++ digits ++ "\x7d".toList
  else [c]

/-- A text with the control characters written out that a terminal could obey. -/
def withControlsSpelt (text : String) : String := String.ofList (text.toList.flatMap spellControl)

/-! ### Small facts -/

/-- A terminal shows no character that cannot be shown. -/
theorem Screen.isShown_of_shows {s : Screen} {c : Char} (h : s.shows c = true) :
    isShown c = true := by
  obtain ⟨sequence, showing⟩ := s
  have spacing : isSpacing c = true → isShown c = true := by
    intro hc
    simp [isShown, hc]
  cases showing with
  | true => exact h
  | false =>
    cases sequence with
    | plain => exact h
    | escape | intermediate | control => exact spacing h
    | device | string | command => cases h

/-- **Only what can be shown is left.** -/
theorem isShown_of_mem_withoutControls {text : String} {c : Char}
    (h : c ∈ (withoutControls text).toList) : isShown c = true := by
  have key : ∀ (l : List Char) (s : Screen), c ∈ s.shown l → isShown c = true := by
    intro l
    induction l with
    | nil => intro s hs; cases hs
    | cons d rest ih =>
      intro s hs
      unfold Screen.shown at hs
      split at hs
      · rename_i hd
        rcases List.mem_cons.mp hs with rfl | hs
        · exact Screen.isShown_of_shows hd
        · exact ih _ hs
      · exact ih _ hs
  rw [withoutControls, String.toList_ofList] at h
  exact key _ _ h

/-- Plain text stays plain text at a character that can be shown. -/
private theorem next_plain {c : Char} (h : isShown c = true) : Sequence.plain.next c = .plain := by
  have hne : c ≠ '\x1b' := by
    rintro rfl
    exact absurd h (by decide)
  simp [Sequence.next, hne]

/-- **Plain text is left as it is.** -/
theorem withoutControls_eq_self {text : String} (h : ∀ c ∈ text.toList, isShown c = true) :
    withoutControls text = text := by
  have key : ∀ (l : List Char) (showing : Bool), (∀ c ∈ l, isShown c = true) →
      (Screen.mk .plain showing).shown l = l := by
    intro l
    induction l with
    | nil => intro showing _; rfl
    | cons c rest ih =>
      intro showing hl
      have hc := hl c List.mem_cons_self
      have hrest := fun d hd => hl d (List.mem_cons_of_mem c hd)
      have hshows : (Screen.mk .plain showing).shows c = true := by
        cases showing <;> exact hc
      obtain ⟨showing', hread⟩ : ∃ b, (Screen.mk .plain showing).read c = ⟨.plain, b⟩ := by
        unfold Screen.read
        split
        · split
          · exact ⟨_, rfl⟩
          · exact ⟨_, rfl⟩
        · exact ⟨_, by rw [next_plain hc]⟩
      rw [Screen.shown, if_pos hshows, hread, ih showing' hrest]
  rw [withoutControls, Screen.start, key _ _ h, String.ofList_toList]

end Text

end Formulary
