import Formulary.Proofs.Turns
import Mathlib.Algebra.Group.Int.Defs
import Mathlib.Algebra.Group.Nat.Defs

/-!
# Numbers that end can be read

Where a number ends, the scanner hands over what it has read of it, to be read as a number. What has
been read begins with a digit, if need be with the zero that is put before a point that comes first,
and has the form of a number: digits, with a point and more digits or without them, and with an
exponent that has a digit or without one. So it can always be read, and the only thing that can be
wrong with it is that it is a whole number that is too large.

Whole numbers can have any number of digits, more than fit into sixty-four bits. Reading them into
sixty-four bits, and giving up where a digit does not fit any more, refuses the same ones: a number
that has become too large on the way only grows with the digits that follow.

## Main definitions

* `Decimal.readWithin?`, `Constant.ofDigits` — reading a whole number digit by digit, into
  sixty-four bits
* `IsNumeral` — the texts of the form of a number
* `Turn.ended?` — what is handed over at a turn
* `IsAside` — the decisions that are about no number
* `Turn.Reads` — what comes of what is handed over

## Main results

* `Decimal.readWithin?_eq` — reading within a bound
* `Turn.isAside_of_ended?_eq_none` — numbers are read only where they end
* `Turn.isNumeral_of_ended?` — what is handed over has the form of a number
* `mem_range_of_whole_mem` — whole numbers among tokens are in range
* `endedNumbers_read` — what is handed over is read, at every depth
-/

namespace Formulary

variable {provider : Provider}

open Relation

/-! ### Reading whole numbers digit by digit -/

namespace Decimal

/-- One more digit. -/
def addDigit (value : Nat) (c : Char) : Nat := 10 * value + (c.toNat - '0'.toNat)

/-- One more digit, unless the number would exceed a bound. -/
def addDigitWithin? (bound value : Nat) (c : Char) : Option Nat :=
  if addDigit value c ≤ bound then some (addDigit value c) else none

/-- The number that digits stand for, read from the left into a number that cannot exceed a bound;
none as soon as it would. -/
def readWithin? (bound : Nat) (digits : List Char) : Option Nat :=
  digits.foldlM (addDigitWithin? bound) 0

/-- Digits that follow make a number no smaller. -/
theorem le_foldl_addDigit (digits : List Char) (value : Nat) :
    value ≤ digits.foldl addDigit value := by
  induction digits generalizing value with
  | nil => exact Nat.le_refl value
  | cons c digits ih =>
    refine Nat.le_trans ?_ (ih (addDigit value c))
    rw [addDigit]
    omega

/-- **Giving up early is right.** A number is read if it does not exceed the bound in the end. -/
theorem readWithin?_eq (bound : Nat) (digits : List Char) :
    readWithin? bound digits
      = if digitsValue digits ≤ bound then some (digitsValue digits) else none := by
  have key : ∀ (digits : List Char) (value : Nat), value ≤ bound →
      digits.foldlM (addDigitWithin? bound) value
        = if digits.foldl addDigit value ≤ bound then some (digits.foldl addDigit value)
          else none := by
    intro digits
    induction digits with
    | nil => exact fun value hvalue => (if_pos hvalue).symm
    | cons c digits ih =>
      intro value _
      rw [List.foldlM_cons, List.foldl_cons, addDigitWithin?]
      by_cases hfits : addDigit value c ≤ bound
      · rw [if_pos hfits]
        exact ih _ hfits
      · have hgrows := le_foldl_addDigit digits (addDigit value c)
        rw [if_neg hfits, if_neg (by omega)]
        rfl
  exact key digits 0 (Nat.zero_le bound)

end Decimal

/-- The whole number of a literal that is read into sixty-four bits, one of them for a sign, and
must not exceed `largestWhole` then. -/
def Constant.ofDigits (literal : String) : Except ParseError Constant :=
  match Decimal.readWithin? (2 ^ 63 - 1) literal.toList with
  | some n => if n ≤ largestWhole then .ok (.whole n) else .error (.tooLarge literal)
  | none => .error (.tooLarge literal)

/-- Sixty-four bits are enough. -/
theorem Constant.ofDigits_eq (literal : String) :
    Constant.ofDigits literal =
      if Decimal.digitsValue literal.toList ≤ largestWhole then
        .ok (.whole (Decimal.digitsValue literal.toList))
      else .error (.tooLarge literal) := by
  have hlarge : largestWhole < 2 ^ 63 - 1 := by decide
  rw [ofDigits, Decimal.readWithin?_eq]
  by_cases hfits : Decimal.digitsValue literal.toList ≤ 2 ^ 63 - 1
  · rw [if_pos hfits]
  · rw [if_neg hfits, if_neg (by omega)]

/-- A literal of digits is read so. -/
theorem Constant.ofLiteral_of_isDigit {literal : String}
    (h : ∀ c ∈ literal.toList, c.isDigit = true) : ofLiteral literal = ofDigits literal := by
  have hliteral := ofLiteral_digits h
  rwa [String.ofList_toList, ← ofDigits_eq] at hliteral

/-! ### The form of a number -/

/-- The texts of the form of a number: digits; digits, a point, perhaps more digits and perhaps an
exponent; digits and an exponent. The exponent has a digit, and may have a minus sign. -/
inductive IsNumeral : List Char → Prop where
  | digits {ds : List Char} (hne : ds ≠ []) (hds : ∀ c ∈ ds, c.isDigit = true) : IsNumeral ds
  | point {whole fraction : List Char} (e : Option Exponent) (hne : whole ≠ [])
      (hwhole : ∀ c ∈ whole, c.isDigit = true) (hfraction : ∀ c ∈ fraction, c.isDigit = true) :
      IsNumeral (whole ++ '.' :: fraction ++ e.elim [] Exponent.text)
  | exponent {whole : List Char} (e : Exponent) (hne : whole ≠ [])
      (hwhole : ∀ c ∈ whole, c.isDigit = true) : IsNumeral (whole ++ e.text)

/-- A number that is decimal is read. -/
theorem Literal.read?_and_ofLiteral {l : Literal} (h : l.whole ≠ [])
    (hdecimal : (l.fraction.isNone && l.exponent.isNone) = false) :
    ∃ x, Decimal.read? l.text = some x ∧
      Constant.ofLiteral (String.ofList l.text) = .ok (.decimal x) := by
  refine ⟨_, decimalRead?_text h, (ofLiteral_text h).trans ?_⟩
  rw [constant, hdecimal]
  rfl

/-- **Numerals can be read.** A text of the form of a number has nothing but digits, or it stands
for a decimal number. -/
theorem IsNumeral.isDigit_or_exists_read? {text : List Char} (h : IsNumeral text) :
    (∀ c ∈ text, c.isDigit = true) ∨
      ∃ x, Decimal.read? text = some x ∧
        Constant.ofLiteral (String.ofList text) = .ok (.decimal x) := by
  cases h with
  | digits _ hds => exact .inl hds
  | @point whole fraction e hne hwhole hfraction =>
    let l : Literal :=
      ⟨whole, some fraction, e, hwhole, by simpa using hfraction, .inl hne, by simp⟩
    have htext : l.text = whole ++ '.' :: fraction ++ e.elim [] Exponent.text := by
      simp [l, Literal.text]
    rw [← htext]
    exact .inr (Literal.read?_and_ofLiteral hne rfl)
  | @exponent whole e hne hwhole =>
    let l : Literal := ⟨whole, none, some e, hwhole, by simp, .inl hne, by simp⟩
    have htext : l.text = whole ++ e.text := by simp [l, Literal.text]
    rw [← htext]
    exact .inr (Literal.read?_and_ofLiteral hne rfl)

/-- A zero before a point that comes first makes a number of the form. -/
theorem isNumeral_point {whole fraction : List Char} (e : Option Exponent)
    (hwhole : ∀ c ∈ whole, c.isDigit = true) (hfraction : ∀ c ∈ fraction, c.isDigit = true) :
    IsNumeral ((if whole = [] then ['0'] else whole) ++ '.' :: fraction
      ++ e.elim [] Exponent.text) := by
  by_cases hne : whole = []
  · rw [if_pos hne]
    exact .point e (by simp) (by simp) hfraction
  · rw [if_neg hne]
    exact .point e hne hwhole hfraction

namespace ReadsAs

variable {written read : List Char} (h : ReadsAs written read)

include h

/-- The digits of a number have the form of a number, as they are read. -/
theorem isNumeral : IsNumeral read := by
  cases h with
  | whole hne hdigits => exact .digits hne hdigits
  | decimal hwhole hfraction =>
    have hform := isNumeral_point none hwhole hfraction
    rwa [Option.elim_none, List.append_nil] at hform

theorem isNumeral_append (e : Exponent) : IsNumeral (read ++ e.text) := by
  cases h with
  | whole hne hdigits => exact .exponent e hne hdigits
  | decimal hwhole hfraction => exact isNumeral_point (some e) hwhole hfraction

end ReadsAs

/-! ### What is handed over -/

/-- What has been read of a number that ends at a turn. -/
def Turn.ended? (t : Turn) : Option String :=
  match t.mode with
  | .number read | .decimal read => if isTerminator t.char then some read else none
  | .exponent read =>
    if isTerminator t.char = true ∧ read.toList.getLast?.any Char.isDigit = true then some read
    else none
  | _ => none

/-- The decisions that are about no number: they find none, and do not fail for one. -/
inductive IsAside : Except ParseError Decision → Prop where
  | ok {d : Decision} (h : ∀ constant, d.found ≠ some (.constant constant)) : IsAside (.ok d)
  | unexpected (c : Char) (phase : Phase) : IsAside (.error (.unexpected c phase))
  | emptyGroup : IsAside (.error .emptyGroup)

namespace Mode

variable {c next : Char}

/-- Nothing but an operator is found between operands. -/
theorem isAside_atOperator : IsAside (atOperator c next) := by
  have hfound : ∀ spelling move, IsAside (atOperator.found c spelling move) := by
    intro spelling move
    rw [atOperator.found]
    split
    · exact .ok fun _ h => by cases h
    · exact .unexpected c .top
  rw [atOperator]
  split_ifs
  · exact hfound _ _
  · exact .unexpected c .top
  · exact hfound _ _

theorem isAside_atTop : IsAside (atTop c next) := by
  rw [atTop]
  split_ifs
  all_goals first
    | exact isAside_atOperator
    | exact .unexpected c .top
    | exact .ok fun _ h => by cases h

/-- The digits of a number go on, or they are followed by what cannot end them. -/
theorem isAside_inDigits (hc : ¬ isTerminator c = true) (afterPoint : Bool) (read : String) :
    IsAside (inDigits afterPoint read c next) := by
  rw [inDigits, if_neg hc]
  split_ifs
  all_goals first
    | exact .unexpected c _
    | exact .ok fun _ h => by cases h

theorem isAside_inExponent {read : String}
    (hc : ¬ (isTerminator c = true ∧ read.toList.getLast?.any Char.isDigit = true)) :
    IsAside (inExponent read c) := by
  rw [inExponent, if_neg hc]
  split_ifs
  · exact .ok fun _ h => by cases h
  · exact .unexpected c .exponent

theorem isAside_inGroup (depth : Nat) (read : String) : IsAside (inGroup depth read c) := by
  rw [inGroup]
  split_ifs
  all_goals first
    | exact .emptyGroup
    | exact .ok fun _ h => by cases h

end Mode

namespace Turn

variable {t : Turn} {literal : String}

/-- What is handed over is read as a literal. -/
theorem decision_of_ended? (h : t.ended? = some literal) :
    t.decision = Mode.endNumber literal := by
  obtain ⟨index, mode, c, next⟩ := t
  rw [ended?] at h
  cases mode with
  | number read =>
    obtain ⟨hc, ⟨⟩⟩ := Option.ite_none_right_eq_some.mp h
    exact Mode.inDigits_of_isTerminator hc _ _ _
  | decimal read =>
    obtain ⟨hc, ⟨⟩⟩ := Option.ite_none_right_eq_some.mp h
    exact Mode.inDigits_of_isTerminator hc _ _ _
  | exponent read =>
    obtain ⟨hc, ⟨⟩⟩ := Option.ite_none_right_eq_some.mp h
    have hdigit := (ne_of_isTerminator hc.1).1
    rw [decision, Mode.handle, Mode.inExponent, if_neg (by simp [hdigit]), if_pos hc]
  | start => cases h
  | top => cases h
  | name read => cases h
  | group depth read => cases h

/-- Where no number ends, a decision is about none. -/
theorem isAside_of_ended?_eq_none (h : t.ended? = none) : IsAside t.decision := by
  obtain ⟨index, mode, c, next⟩ := t
  cases mode with
  | start =>
    refine .ok ?_
    rw [Mode.atStart]
    split_ifs
    all_goals exact fun _ h => by cases h
  | top => exact Mode.isAside_atTop
  | name read =>
    refine .ok ?_
    rw [Mode.inName]
    split
    · exact fun _ h => by cases h
    · split
      all_goals exact fun _ h => by cases h
  | number read => exact Mode.isAside_inDigits (by simpa [ended?] using h) false read
  | decimal read => exact Mode.isAside_inDigits (by simpa [ended?] using h) true read
  | exponent read => exact Mode.isAside_inExponent (by simpa [ended?] using h)
  | group depth read => exact Mode.isAside_inGroup depth read

/-- A number is found only where one ends, and it is what has been handed over. -/
theorem exists_ended?_of_found? {constant : Constant} (h : t.found? = some (.constant constant)) :
    ∃ literal, t.ended? = some literal ∧ Constant.ofLiteral literal = .ok constant := by
  rw [found?] at h
  cases hended : t.ended? with
  | none =>
    have haside := isAside_of_ended?_eq_none hended
    split at h
    · cases h
    · rename_i d hd
      rw [hd] at haside
      cases haside with
      | ok hfound => exact absurd h (hfound constant)
  | some literal =>
    refine ⟨literal, rfl, ?_⟩
    rw [decision_of_ended? hended] at h
    split at h
    · cases h
    · rename_i d hd
      obtain ⟨constant', hliteral, rfl⟩ := Mode.eq_of_endNumber hd
      cases h
      exact hliteral

/-- **What is handed over has the form of a number.** -/
theorem isNumeral_of_ended? {source : String} (ht : t ∈ turnsOf source)
    (h : t.ended? = some literal) : IsNumeral literal.toList := by
  obtain ⟨-, -, -, hpasses⟩ := Passes.start.of_mem_turnsFrom ht
  obtain ⟨prior, written, ahead, hstands⟩ := hpasses.exists_stands (endMark_not_mem_visible source)
  have hholds := hstands.holds
  obtain ⟨index, mode, c, next⟩ := t
  cases hholds with
  | number hne hds =>
    obtain ⟨-, ⟨⟩⟩ := Option.ite_none_right_eq_some.mp h
    rw [String.toList_ofList]
    exact .digits hne hds
  | decimal whole fraction hwhole hfraction =>
    obtain ⟨-, ⟨⟩⟩ := Option.ite_none_right_eq_some.mp h
    rw [String.toList_ofList]
    exact ReadsAs.isNumeral (.decimal hwhole hfraction)
  | exponent sign digits hread hmark hsign hdigits =>
    obtain ⟨⟨-, hlast⟩, ⟨⟩⟩ := Option.ite_none_right_eq_some.mp h
    rw [String.toList_ofList] at hlast ⊢
    have hne : digits ≠ [] := by
      rintro rfl
      rw [List.append_nil, any_isDigit_getLast?_of_mark _ hmark hsign] at hlast
      cases hlast
    obtain ⟨e, hexponent⟩ := exists_exponent_text_eq hmark hsign hdigits hne
    rw [← hexponent]
    exact hread.isNumeral_append e
  | start => cases h
  | top => cases h
  | name _ => cases h
  | group _ _ => cases h

/-- If there are only digits in it, it stands in the text as it is, with all its digits. -/
theorem isRunOfDigits_of_ended? {source : String} (ht : t ∈ turnsOf source)
    (h : t.ended? = some literal) (hdigits : ∀ c ∈ literal.toList, c.isDigit = true) :
    IsRunOfDigits literal.toList (Text.visible source) := by
  obtain ⟨-, -, -, hpasses⟩ := Passes.start.of_mem_turnsFrom ht
  obtain ⟨prior, written, ahead, hstands⟩ := hpasses.exists_stands (endMark_not_mem_visible source)
  have hholds := hstands.holds
  obtain ⟨index, mode, c, next⟩ := t
  cases hholds with
  | number hne hds =>
    obtain ⟨hc, ⟨⟩⟩ := Option.ite_none_right_eq_some.mp h
    rw [String.toList_ofList]
    exact hstands.isRunOfDigits (Bool.not_eq_true _ ▸ (ne_of_isTerminator hc).1) hne hds
  | decimal whole fraction hwhole hfraction =>
    obtain ⟨-, ⟨⟩⟩ := Option.ite_none_right_eq_some.mp h
    exact absurd (hdigits '.' (by simp)) (by decide)
  | @exponent _ _ mark sign digits _ hmark _ _ =>
    obtain ⟨-, ⟨⟩⟩ := Option.ite_none_right_eq_some.mp h
    have hdigit := hdigits mark (by simp)
    rcases hmark with rfl | rfl
    all_goals exact absurd hdigit (by decide)
  | start => cases h
  | top => cases h
  | name _ => cases h
  | group _ _ => cases h

end Turn

/-! ### What comes of it -/

/-- What comes of a literal that is handed over at a turn on a text: it has the form of a number.
If it has nothing but digits they stand in the text, and it is a whole number or too large; if not,
it is a decimal number. -/
structure Turn.Reads (source : String) (t : Turn) (literal : String) : Prop where
  form : IsNumeral literal.toList
  /-- Digits are those of the text, leading zeros included. -/
  run : (∀ c ∈ literal.toList, c.isDigit = true) →
    IsRunOfDigits literal.toList (Text.visible source)
  /-- They are read into sixty-four bits. -/
  whole : (∀ c ∈ literal.toList, c.isDigit = true) →
    Constant.ofLiteral literal = Constant.ofDigits literal
  /-- They are the whole number that they stand for, unless it is too large. -/
  found_iff : (∀ c ∈ literal.toList, c.isDigit = true) →
    ∀ n : Nat, t.decision = .ok ⟨.top, some (.constant (.whole n)), .again⟩ ↔
      n = Decimal.digitsValue literal.toList ∧ n ≤ 2 ^ 53 - 1
  /-- It is too large past `2 ^ 53 - 1`. -/
  tooLarge_iff : (∀ c ∈ literal.toList, c.isDigit = true) →
    (t.decision = .error (.tooLarge literal) ↔
      2 ^ 53 - 1 < Decimal.digitsValue literal.toList)
  /-- Any other literal is a decimal number. -/
  decimal : (¬ ∀ c ∈ literal.toList, c.isDigit = true) →
    ∃ x, Decimal.read? literal.toList = some x ∧
      t.decision = .ok ⟨.top, some (.constant (.decimal x)), .again⟩

namespace Turn

variable {t : Turn} {literal source : String}

/-- What comes of digits. -/
theorem decision_of_digits (h : t.ended? = some literal)
    (hdigits : ∀ c ∈ literal.toList, c.isDigit = true) :
    t.decision =
      if Decimal.digitsValue literal.toList ≤ largestWhole then
        .ok ⟨.top, some (.constant (.whole (Decimal.digitsValue literal.toList))), .again⟩
      else .error (.tooLarge literal) := by
  rw [decision_of_ended? h, Mode.endNumber, Constant.ofLiteral_of_isDigit hdigits,
    Constant.ofDigits_eq]
  by_cases hle : Decimal.digitsValue literal.toList ≤ largestWhole
  · rw [if_pos hle, if_pos hle]
  · rw [if_neg hle, if_neg hle]

/-- **What is handed over is read.** -/
theorem reads_of_ended? (ht : t ∈ turnsOf source) (h : t.ended? = some literal) :
    t.Reads source literal where
  form := isNumeral_of_ended? ht h
  run := isRunOfDigits_of_ended? ht h
  whole := Constant.ofLiteral_of_isDigit
  found_iff := by
    intro hdigits n
    have hlarge : largestWhole = 2 ^ 53 - 1 := rfl
    rw [decision_of_digits h hdigits, hlarge]
    split <;> simp <;> omega
  tooLarge_iff := by
    intro hdigits
    have hlarge : largestWhole = 2 ^ 53 - 1 := rfl
    rw [decision_of_digits h hdigits, hlarge]
    split <;> simp <;> omega
  decimal := by
    intro hdigits
    rcases (isNumeral_of_ended? ht h).isDigit_or_exists_read? with hall | ⟨x, hread, hliteral⟩
    · exact absurd hall hdigits
    · rw [String.ofList_toList] at hliteral
      refine ⟨x, hread, ?_⟩
      rw [decision_of_ended? h, Mode.endNumber, hliteral]

end Turn

/-- A constant among the tokens of a text is handed over at a turn on it. -/
theorem exists_ended?_of_constant_mem {source : String} {tokens : List Token}
    (h : scan provider source = .ok tokens) {constant : Constant}
    (hmem : .constant constant ∈ tokens) :
    ∃ t ∈ turnsOf source, ∃ literal, t.ended? = some literal ∧
      Constant.ofLiteral literal = .ok constant := by
  obtain ⟨l, hl, htoken⟩ := exists_lexeme_of_mem (scan_eq_ok_iff.mp h).2 hmem
  obtain rfl := Lexeme.eq_lexeme_of_token htoken
  rw [← filterMap_found?_turnsOf] at hl
  obtain ⟨t, ht, hfound⟩ := List.mem_filterMap.mp hl
  obtain ⟨literal, hended, hliteral⟩ := Turn.exists_ended?_of_found? hfound
  exact ⟨t, ht, literal, hended, hliteral⟩

/-- **Whole numbers are in range.** -/
theorem mem_range_of_whole_mem {source : String} {tokens : List Token}
    (h : scan provider source = .ok tokens) {n : Int} (hmem : .constant (.whole n) ∈ tokens) :
    0 ≤ n ∧ n ≤ 2 ^ 53 - 1 := by
  obtain ⟨t, ht, literal, hended, hliteral⟩ := exists_ended?_of_constant_mem h hmem
  rcases (Turn.isNumeral_of_ended? ht hended).isDigit_or_exists_read? with hdigits | ⟨x, -, hx⟩
  · rw [Constant.ofLiteral_of_isDigit hdigits, Constant.ofDigits_eq] at hliteral
    have hlarge : largestWhole = 2 ^ 53 - 1 := rfl
    split at hliteral
    · cases hliteral
      omega
    · cases hliteral
  · rw [String.ofList_toList, hliteral] at hx
    cases hx

/-- The tokens of a text and of its groups are those of texts. -/
theorem exists_scan_of_within {source : String} {tokens : List Token}
    (h : scan provider source = .ok tokens) {inner : List Token} (hw : Within inner tokens) :
    ∃ text, scan provider text = .ok inner := by
  cases hw with
  | self => exact ⟨source, h⟩
  | group hmem hw =>
    obtain ⟨l, -, htoken⟩ := exists_lexeme_of_mem (scan_eq_ok_iff.mp h).2 hmem
    obtain ⟨-, -, rfl, hparse⟩ := Lexeme.eq_of_token_eq_group htoken
    obtain ⟨text, program, htext⟩ := exists_parse_of_within hparse hw
    exact ⟨text, (parse_eq_ok_iff.mp htext).1⟩

/-- **Numbers that end can be read.** At every turn on a text, or on the text of a group in it at
any depth, what is handed over as a number has the form of one. With a point or an exponent it
stands for a decimal number. Digits, however many and whatever zeros they begin with, are the whole
number that they stand for if it does not exceed `2 ^ 53 - 1`, and are reported as they are written
if it does; sixty-four bits are enough to tell. A turn that hands nothing over finds no number and
does not fail for one. So no number is reported that cannot be read, and every whole number among
the tokens lies between zero and `2 ^ 53 - 1`, at every depth. -/
theorem endedNumbers_read (provider : Provider) (source : String) :
    (∀ inner, ReflTransGen HasGroup source inner → ∀ t ∈ turnsOf inner,
      (∀ literal, t.ended? = some literal →
        t.decision = Mode.endNumber literal ∧ t.Reads inner literal) ∧
      (t.ended? = none → IsAside t.decision)) ∧
    (∀ literal, scan provider source ≠ .error (.unreadable literal) ∧
      parse provider source ≠ .error (.unreadable literal)) ∧
    ∀ tokens, scan provider source = .ok tokens → ∀ inner, Within inner tokens →
      ∀ n, .constant (.whole n) ∈ inner → 0 ≤ n ∧ n ≤ 2 ^ 53 - 1 := by
  refine ⟨fun inner _ t ht => ⟨fun literal h => ⟨Turn.decision_of_ended? h,
    Turn.reads_of_ended? ht h⟩, Turn.isAside_of_ended?_eq_none⟩, fun literal => ?_, ?_⟩
  · have hparse : parse provider source ≠ .error (.unreadable literal) := by
      intro h
      obtain ⟨inner, -, -, hbears⟩ := exists_bearsOut_of_parse h nofun nofun nofun
      cases hbears
    refine ⟨fun h => hparse ?_, hparse⟩
    rw [parse_eq, h]
  · intro tokens h inner hw n hmem
    obtain ⟨text, htext⟩ := exists_scan_of_within h hw
    exact mem_range_of_whole_mem htext hmem

/-- A point and an exponent in a group are read with a zero before them, and a whole number with
zeros before it is too large by one. -/
theorem endedNumbers_read_point_and_zeros :
    HasGroup "(.e5)+0009007199254740992" ".e5" ∧
      (∃ t ∈ turnsOf ".e5", t.ended? = some "0.e5" ∧ t.Reads ".e5" "0.e5") ∧
      ∃ t ∈ turnsOf "(.e5)+0009007199254740992", t.ended? = some "0009007199254740992" ∧
        t.decision = .error (.tooLarge "0009007199254740992") := by
  obtain ⟨hreads, -, -⟩ := endedNumbers_read .sole "(.e5)+0009007199254740992"
  have hgroup : HasGroup "(.e5)+0009007199254740992" ".e5" := by
    have hlexemes : (lexemesOf "(.e5)+0009007199254740992").lexemes
        = [.group ".e5", .operator (.binary .add)] := by decide +kernel
    rw [HasGroup, hlexemes]
    exact List.mem_cons_self
  have hinner : (⟨4, .exponent "0.e5", ' ', ' '⟩ : Turn) ∈ turnsOf ".e5" := by decide +kernel
  have houter : (⟨26, .number "0009007199254740992", ' ', ' '⟩ : Turn)
      ∈ turnsOf "(.e5)+0009007199254740992" := by decide +kernel
  have hpoint : Turn.ended? ⟨4, .exponent "0.e5", ' ', ' '⟩ = some "0.e5" := by decide +kernel
  have hzeros : Turn.ended? ⟨26, .number "0009007199254740992", ' ', ' '⟩
      = some "0009007199254740992" := by
    simp [Turn.ended?, isTerminator, endMark]
  have hdigits : ∀ c ∈ "0009007199254740992".toList, c.isDigit = true := by simp
  obtain ⟨-, hpointReads⟩ := (hreads _ (.single hgroup) _ hinner).1 _ hpoint
  obtain ⟨-, hzerosReads⟩ := (hreads _ .refl _ houter).1 _ hzeros
  exact ⟨hgroup, ⟨_, hinner, hpoint, hpointReads⟩, _, houter, hzeros,
    (hzerosReads.tooLarge_iff hdigits).mpr (by decide +kernel)⟩

end Formulary
