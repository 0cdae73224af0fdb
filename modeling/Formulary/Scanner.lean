import Formulary.Lexeme
import Formulary.Text.Blank

/-!
# The scanner

A text is read one character at a time, without its blanks and with one blank put after it, so
that the last token ends like every other one.

The scanner is a machine. Its `Mode` says what it is in the middle of and holds what it has read of
the token it is in. For each character it makes one decision (`Mode.handle`), from the mode, the
character and the character after it: what it has found, what mode to go on in, and how many
characters are done with. A character that ends a token is not done with: it is read again in
another mode.

## Main definitions

* `Mode`, `Mode.phase` — what the scanner is in the middle of
* `Move` — how many characters are done with
* `Decision`, `Mode.handle` — one decision
* `scanFrom` — the lexemes of the rest of a text
* `lexemesOf` — the lexemes of a text

## Main results

* `Mode.rank_lt_of_handle_again` — a character is read again in a mode of smaller rank only, which
  is why scanning ends
* `length_add_two_le_of_group_mem` — a group is two characters shorter than the text it is in

## Implementation notes

A group is captured as it stands, by counting parentheses, and is not looked into here.
-/

namespace Formulary

/-! ### Characters -/

/-- The blank put after a text. -/
def endMark : Char := ' '

/-- Whether a character is a parenthesis or can start an operator. -/
def isOperatorChar (c : Char) : Bool := "+-*/=!()<>".toList.contains c

/-- Whether a character ends a number. -/
def isTerminator (c : Char) : Bool := c == endMark || isOperatorChar c

/-- Whether a character can stand in a name after its first letter. -/
def isNameChar (c : Char) : Bool := c.isAlphanum || c == '_'

/-- Whether two characters in a row are one operator. -/
def isPair : Char → Char → Bool
  | '-', '>' | '>', '=' | '<', '=' | '=', '=' | '!', '=' | '*', '*' => true
  | _, _ => false

/-! ### Modes and decisions -/

/-- What the scanner is in the middle of, with what it has read of it. -/
inductive Mode where
  | start
  | top
  | name (read : String)
  | number (read : String)
  | decimal (read : String)
  | exponent (read : String)
  | group (depth : Nat) (read : String)
deriving DecidableEq, Repr

/-- How many characters are done with after a decision. -/
inductive Move where
  /-- None: the character is read again. -/
  | again
  /-- The character. -/
  | one
  /-- The character and the one after it. -/
  | two
deriving DecidableEq, Repr

/-- The text that is left after a move made at the character `c`. -/
def Move.rest (c : Char) (rest : List Char) : Move → List Char
  | again => c :: rest
  | one => rest
  | two => rest.drop 1

/-- What the scanner decides at a character. -/
structure Decision where
  mode : Mode
  found : Option Lexeme
  move : Move
deriving DecidableEq

namespace Mode

/-- The phase that a mode belongs to. -/
def phase : Mode → Phase
  | start => .start
  | top => .top
  | name _ => .name
  | number _ => .number
  | decimal _ => .decimal
  | exponent _ => .exponent
  | group .. => .group

/-- Go on in a mode, the character done with and nothing found. -/
private def goOn (mode : Mode) : Decision := ⟨mode, none, .one⟩

/-- An operand may start here, and a sign belongs to it. -/
def atStart (c : Char) : Decision :=
  if c = '+' then ⟨.start, some (.operator (.unary .add)), .one⟩
  else if c = '-' then ⟨.start, some (.operator (.unary .subtract)), .one⟩
  else if c = endMark then goOn .start
  else ⟨.top, none, .again⟩

/-- An operator between operands, of two characters if they make one. A lone `=` or `!` is none. -/
def atOperator (c next : Char) : Except ParseError Decision :=
  if isPair c next then found [c, next] .two
  else if c = '=' ∨ c = '!' then .error (.unexpected c .top)
  else found [c] .one
where
  /-- The operator spelt so. -/
  found (spelling : List Char) (move : Move) : Except ParseError Decision :=
    match Symbol.ofText? (String.ofList spelling) with
    | some symbol => .ok ⟨.start, some (.operator (.binary symbol)), move⟩
    | none => .error (.unexpected c .top)

/-- Any token may start here. -/
def atTop (c next : Char) : Except ParseError Decision :=
  if c = endMark then .ok (goOn .top)
  else if c.isAlpha then .ok (goOn (.name (String.singleton c)))
  else if c.isDigit then .ok (goOn (.number (String.singleton c)))
  else if c = '.' then .ok (goOn (.decimal "0."))
  else if c = '(' then .ok (goOn (.group 1 ""))
  else if c = ')' then .error (.unexpected c .top)
  else if isOperatorChar c then atOperator c next
  else .error (.unexpected c .top)

/-- A name goes on or ends; the name of a function is an operator. -/
def inName (read : String) (c : Char) : Decision :=
  if isNameChar c then goOn (.name (read.push c))
  else
    match Symbol.ofText? read with
    | some symbol => ⟨.start, some (.operator (.unary symbol)), .again⟩
    | none => ⟨.top, some (.reference read), .again⟩

/-- A number has ended. -/
def endNumber (read : String) : Except ParseError Decision :=
  match Constant.ofLiteral read with
  | .ok c => .ok ⟨.top, some (.constant c), .again⟩
  | .error e => .error e

/-- The digits of a number go on or end, before its point or after it. -/
def inDigits (afterPoint : Bool) (read : String) (c next : Char) : Except ParseError Decision :=
  if c.isDigit then
    .ok (goOn (if afterPoint then .decimal (read.push c) else .number (read.push c)))
  else if c = '.' ∧ afterPoint = false then .ok (goOn (.decimal (read.push c)))
  else if c = 'e' ∨ c = 'E' then
    if next = '-' then .ok ⟨.exponent ((read.push c).push '-'), none, .two⟩
    else .ok (goOn (.exponent (read.push c)))
  else if isTerminator c then endNumber read
  else .error (.unexpected c (if afterPoint then .decimal else .number))

/-- The exponent of a number goes on or ends; it needs a digit. -/
def inExponent (read : String) (c : Char) : Except ParseError Decision :=
  if c.isDigit then .ok (goOn (.exponent (read.push c)))
  else if isTerminator c ∧ read.toList.getLast?.any Char.isDigit then endNumber read
  else .error (.unexpected c .exponent)

/-- A group goes on, or ends with the parenthesis that closes it. -/
def inGroup (depth : Nat) (read : String) (c : Char) : Except ParseError Decision :=
  if c = '(' then .ok (goOn (.group (depth + 1) (read.push c)))
  else if c = ')' then
    if depth - 1 = 0 then
      if read.isEmpty then .error .emptyGroup
      else .ok ⟨.top, some (.group read), .one⟩
    else .ok (goOn (.group (depth - 1) (read.push c)))
  else if c = endMark then .ok (goOn (.group depth read))
  else .ok (goOn (.group depth (read.push c)))

/-- The decision at a character, given the character after it. -/
def handle (mode : Mode) (c next : Char) : Except ParseError Decision :=
  match mode with
  | start => .ok (atStart c)
  | top => atTop c next
  | name read => .ok (inName read c)
  | number read => inDigits false read c next
  | decimal read => inDigits true read c next
  | exponent read => inExponent read c
  | group depth read => inGroup depth read c

/-- How many more times one character can be read again. -/
def rank : Mode → Nat
  | name _ => 2
  | start | number _ | decimal _ | exponent _ => 1
  | top | group .. => 0

/-- What is wrong when a text ends in a mode. -/
def unfinished? : Mode → Option ParseError
  | group depth _ => some (.unclosed depth)
  | _ => none

/-- The characters of the text that the group being captured has used up, its opening parenthesis
included. -/
def captured : Mode → Nat
  | group _ read => read.length + 1
  | _ => 0

end Mode

/-! ### Facts about one decision -/

namespace Mode

/-- A finished number leads back to the top and leaves its last character to be read again. -/
theorem eq_of_endNumber {read : String} {d : Decision} (h : endNumber read = .ok d) :
    ∃ c, Constant.ofLiteral read = .ok c ∧ d = ⟨.top, some (.constant c), .again⟩ := by
  unfold endNumber at h
  split at h
  · rename_i c hc
    exact ⟨c, hc, (Except.ok.inj h).symm⟩
  · cases h

/-- An operator between operands is found at once, and a sign may follow it. -/
theorem eq_of_atOperator {c next : Char} {d : Decision} (h : atOperator c next = .ok d) :
    ∃ symbol move, move ≠ .again ∧ d = ⟨.start, some (.operator (.binary symbol)), move⟩ := by
  have key : ∀ spelling move, move ≠ Move.again → atOperator.found c spelling move = .ok d →
      ∃ symbol move, move ≠ .again ∧ d = ⟨.start, some (.operator (.binary symbol)), move⟩ := by
    intro spelling move hmove hd
    unfold atOperator.found at hd
    split at hd
    · exact ⟨_, move, hmove, (Except.ok.inj hd).symm⟩
    · cases hd
  unfold atOperator at h
  split at h
  · exact key _ _ (by decide) h
  · split at h
    · cases h
    · exact key _ _ (by decide) h

/-- A character is read at most three times. -/
theorem rank_le (mode : Mode) : mode.rank ≤ 2 := by
  cases mode <;> simp [rank]

/-- **Reading again ends.** A character is read again in a mode of smaller rank only. -/
theorem rank_lt_of_handle_again {mode : Mode} {c next : Char} {d : Decision}
    (h : mode.handle c next = .ok d) (hd : d.move = .again) : d.mode.rank < mode.rank := by
  cases mode with
  | start => grind [handle, atStart, goOn, rank]
  | top => grind [handle, atTop, goOn, eq_of_atOperator]
  | name read => grind [handle, inName, goOn, rank]
  | number read => grind [handle, inDigits, goOn, rank, eq_of_endNumber]
  | decimal read => grind [handle, inDigits, goOn, rank, eq_of_endNumber]
  | exponent read => grind [handle, inExponent, goOn, rank, eq_of_endNumber]
  | group depth read => grind [handle, inGroup, goOn, rank]

/-- A group is found at the parenthesis that closes it. -/
theorem of_handle_found_group {mode : Mode} {c next : Char} {d : Decision} {g : String}
    (h : mode.handle c next = .ok d) (hd : d.found = some (.group g)) :
    c = ')' ∧ mode.captured = g.length + 1 := by
  cases mode with
  | start => grind [handle, atStart, goOn]
  | top => grind [handle, atTop, goOn, eq_of_atOperator]
  | name read => grind [handle, inName, goOn]
  | number read => grind [handle, inDigits, goOn, eq_of_endNumber]
  | decimal read => grind [handle, inDigits, goOn, eq_of_endNumber]
  | exponent read => grind [handle, inExponent, goOn, eq_of_endNumber]
  | group depth read => grind [handle, inGroup, goOn, captured]

/-- A group captures no character twice, and not the mark at the end. -/
theorem captured_add_countP_le {mode : Mode} {c : Char} {rest : List Char} {next : Char}
    {d : Decision} (h : mode.handle c next = .ok d) :
    d.mode.captured + (d.move.rest c rest).countP (· != endMark)
      ≤ mode.captured + (c :: rest).countP (· != endMark) := by
  have hrest : (d.move.rest c rest).countP (· != endMark) ≤ (c :: rest).countP (· != endMark) := by
    cases d.move with
    | again => exact Nat.le_refl _
    | one => exact (List.sublist_cons_self c rest).countP_le
    | two => exact ((List.drop_sublist 1 rest).trans (List.sublist_cons_self c rest)).countP_le
  cases mode with
  | group depth read =>
    grind [handle, inGroup, goOn, captured, Move.rest, endMark, String.length_push]
  | top =>
    grind [handle, atTop, goOn, captured, Move.rest, endMark, eq_of_atOperator,
      String.length_empty]
  | start => grind [handle, atStart, goOn, captured]
  | name read => grind [handle, inName, goOn, captured]
  | number read => grind [handle, inDigits, goOn, captured, eq_of_endNumber]
  | decimal read => grind [handle, inDigits, goOn, captured, eq_of_endNumber]
  | exponent read => grind [handle, inExponent, goOn, captured, eq_of_endNumber]

end Mode

/-- A decision brings the end nearer: three decisions cover a character, and one that reads it
again lowers the rank. -/
theorem Move.measure_rest_lt {m : Move} {c : Char} {rest : List Char} {rank rank' : Nat}
    (h : m = .again → rank' < rank) (hle : rank' ≤ 2) :
    3 * (m.rest c rest).length + rank' < 3 * (c :: rest).length + rank := by
  cases m with
  | again => have := h rfl; simp only [Move.rest]; omega
  | one => simp only [Move.rest, List.length_cons]; omega
  | two => simp only [Move.rest, List.length_cons, List.length_drop]; omega

/-! ### Scanning -/

/-- The lexemes of a text, from a mode on. -/
def scanFrom (mode : Mode) (text : List Char) : Scan :=
  match text with
  | [] => ⟨[], mode.unfinished?⟩
  | c :: rest =>
    match _h : mode.handle c (rest.headD endMark) with
    | .error e => ⟨[], some e⟩
    | .ok d => (scanFrom d.mode (d.move.rest c rest)).after d.found
termination_by 3 * text.length + mode.rank
decreasing_by exact Move.measure_rest_lt (Mode.rank_lt_of_handle_again _h) d.mode.rank_le

/-- The lexemes of a text. -/
def lexemesOf (source : String) : Scan := scanFrom .start (Text.visible source ++ [endMark])

@[simp] theorem scanFrom_nil (mode : Mode) : scanFrom mode [] = ⟨[], mode.unfinished?⟩ := by
  rw [scanFrom]

theorem scanFrom_cons_of_error {mode : Mode} {c : Char} {rest : List Char} {e : ParseError}
    (h : mode.handle c (rest.headD endMark) = .error e) :
    scanFrom mode (c :: rest) = ⟨[], some e⟩ := by
  rw [scanFrom]
  split <;> simp_all

theorem scanFrom_cons_of_ok {mode : Mode} {c : Char} {rest : List Char} {d : Decision}
    (h : mode.handle c (rest.headD endMark) = .ok d) :
    scanFrom mode (c :: rest) = (scanFrom d.mode (d.move.rest c rest)).after d.found := by
  rw [scanFrom]
  split <;> simp_all

/-- What is found on the way lies between what was captured before and the end of the text. -/
theorem length_add_two_le_of_group_mem_scanFrom {mode : Mode} {text : List Char} {g : String}
    (h : .group g ∈ (scanFrom mode text).lexemes) :
    g.length + 2 ≤ mode.captured + text.countP (· != endMark) := by
  fun_induction scanFrom mode text with
  | case1 => simp at h
  | case2 => simp at h
  | case3 mode c rest d hd ih =>
    simp only [Scan.lexemes_after, List.mem_append, Option.mem_toList] at h
    rcases h with h | h
    · obtain ⟨rfl, hc⟩ := Mode.of_handle_found_group hd h
      have : (')' :: rest).countP (· != endMark) = rest.countP (· != endMark) + 1 := by
        simp [endMark]
      omega
    · exact Nat.le_trans (ih h) (Mode.captured_add_countP_le hd)

/-- **Groups are shorter.** The text of a group and its two parentheses fit into the text that the
group is found in. -/
theorem length_add_two_le_of_group_mem {source g : String}
    (h : .group g ∈ (lexemesOf source).lexemes) : g.length + 2 ≤ (Text.visible source).length := by
  have hle := length_add_two_le_of_group_mem_scanFrom h
  have hcount : (Text.visible source ++ [endMark]).countP (· != endMark)
      ≤ (Text.visible source).length := by
    simpa [endMark] using List.countP_le_length
  simp only [Mode.captured] at hle
  omega

/-- The text of a group is shorter than the text that the group is found in. -/
theorem length_lt_of_group_mem {source g : String}
    (h : .group g ∈ (lexemesOf source).lexemes) : g.length < source.length := by
  have h₁ := length_add_two_le_of_group_mem h
  have h₂ : (Text.visible source).length ≤ source.length := by
    rw [← String.length_toList]
    exact List.length_filter_le _ _
  omega

end Formulary
