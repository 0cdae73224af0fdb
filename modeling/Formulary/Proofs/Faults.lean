import Formulary.Proofs.Counting
import Formulary.Proofs.Generated
import Formulary.Proofs.Passages
import Mathlib.Algebra.Group.Nat.Defs
import Mathlib.Logic.Relation

/-!
# What is true of a text that is refused

A cause for which a text is refused says something of the text, and what it says is true: there is
nothing in it, or there is a pair of parentheses with nothing in it, or as many parentheses are open
at its end, or such digits stand in it, or such a character.

A fault can lie in a group, at any depth, and is then reported for the text around it. What the
cause says is true of that text as well, because a group stands in it as it is, between two
parentheses. Two causes never come from a group: a group is not empty, and its parentheses match.

## Main definitions

* `IsRunOfDigits` — digits of a text that go on no further
* `BearsOut` — what a text has to show for a cause that stops the scanner
* `HasGroup` — the groups of a text
* `Raises` — the causes that lie in a text itself and not in a group

## Main results

* `bearsOut_of_failure` — what stops the scanner is there
* `HasGroup.exists_visible_eq` — a group stands in its text, between parentheses
* `exists_raises_of_parse` — each fault lies in the text or in one of its groups
* `Formula.generate_error_tells` — what the cause says is true
-/

namespace Formulary

variable {provider : Provider}

open Relation

/-! ### What stops the scanner -/

/-- Whether digits stand in a text, and neither begin nor end among other digits. -/
def IsRunOfDigits (digits text : List Char) : Prop :=
  digits ≠ [] ∧ (∀ c ∈ digits, c.isDigit = true) ∧
    ∃ before after, text = before ++ (digits ++ after) ∧
      (∀ c ∈ before.getLast?, c.isDigit = false) ∧ ∀ c ∈ after.head?, c.isDigit = false

/-- The causes that can stop the scanner, with what the text has to show for them. -/
inductive BearsOut (text : List Char) : ParseError → Prop where
  | unexpected {c : Char} {phase : Phase} (hphase : phase ∈ [.top, .number, .decimal, .exponent])
      (hc : c ∈ text) : BearsOut text (.unexpected c phase)
  | unended (h : EndsInMark text) : BearsOut text (.unexpected endMark .exponent)
  | unclosed {depth : Nat} (hpos : 0 < depth) (hcount : text.count '(' = text.count ')' + depth) :
      BearsOut text (.unclosed depth)
  | emptyGroup (h : ['(', ')'] <:+: text) : BearsOut text .emptyGroup
  | tooLarge {digits : List Char} (h : IsRunOfDigits digits text)
      (hlarge : largestWhole < Decimal.digitsValue digits) :
      BearsOut text (.tooLarge (String.ofList digits))

theorem EndsInMark.append_left {text : List Char} (h : EndsInMark text) (before : List Char) :
    EndsInMark (before ++ text) := by
  obtain ⟨before', c, mark, sign, rfl, hc, hmark, hsign⟩ := h
  exact ⟨before ++ before', c, mark, sign, by simp, hc, hmark, hsign⟩

namespace Stands

variable {text rest prior written ahead : List Char} {mode : Mode} {c : Char} {e : ParseError}

/-- A number that has been taken in is a run of digits if no digit comes after it. -/
theorem isRunOfDigits (h : Stands text mode (c :: rest) prior written ahead)
    (hc : c.isDigit = false) (hne : written ≠ [])
    (hdigits : ∀ d ∈ written, d.isDigit = true) : IsRunOfDigits written text := by
  refine ⟨hne, hdigits, prior, ahead, h.eq.symm, fun last hlast => ?_, fun next hnext => ?_⟩
  · rw [Bool.eq_false_iff]
    intro hlast'
    obtain ⟨d, digits, rfl⟩ := List.exists_cons_of_ne_nil hne
    have hfirst := h.parted last hlast hlast' d rfl
    rw [hdigits d List.mem_cons_self] at hfirst
    cases hfirst
  · have heq := h.cons_eq
    cases ahead with
    | nil => cases hnext
    | cons next' ahead =>
      cases heq
      cases hnext
      exact hc

/-- A decision that fails does so for a cause that the text bears out. -/
theorem bearsOut_of_error (h : Stands text mode (c :: rest) prior written ahead)
    (hend : endMark ∉ text) (he : mode.handle c (rest.headD endMark) = .error e) :
    BearsOut text e := by
  have hdecides := h.holds.decides c (rest.headD endMark)
  rw [he] at hdecides
  cases hdecides with
  | unexpected hphase hc => exact .unexpected hphase (h.mem_text hc)
  | unended hc hmark =>
    subst hc
    rw [← h.eq, h.ahead_eq_nil hend, List.append_nil]
    exact .unended (hmark.append_left prior)
  | emptyGroup hc hwritten =>
    subst hc hwritten
    obtain ⟨more, rfl⟩ := h.exists_ahead_eq (by decide)
    exact .emptyGroup ⟨prior, more, by rw [← h.eq]; simp⟩
  | tooLarge hc hne hdigits hlarge => exact .tooLarge (h.isRunOfDigits hc hne hdigits) hlarge

/-- A text that ends in a group leaves parentheses open. -/
theorem bearsOut_of_unfinished (h : Stands text mode [] prior written ahead)
    (he : mode.unfinished? = some e) : BearsOut text e := by
  have hahead : ahead = [] := h.left_eq.elim (fun hleft => by simp at hleft) And.right
  have hholds := h.holds
  cases hholds with
  | @group depth read hopen =>
    cases he
    have hdepth : openAfter? 0 text = some (depth + 1) := by
      rw [← h.eq, hahead, List.append_nil, h.balanced.openAfter?_append, openAfter?_open]
      simpa using openAfter?_add hopen 1
    have hcount := (openAfter?_eq_some_iff.mp hdepth).2
    exact .unclosed (Nat.succ_pos depth) (by omega)
  | _ => cases he

end Stands

/-- **What stops the scanner is there.** -/
theorem bearsOut_of_failure {source : String} {e : ParseError}
    (h : (lexemesOf source).failure = some e) : BearsOut (Text.visible source) e := by
  have hend := endMark_not_mem_visible source
  rcases Passes.start.exists_of_failure h with
    ⟨mode, c, rest, hpasses, he⟩ | ⟨mode, hpasses, he⟩
  · obtain ⟨prior, written, ahead, hstands⟩ := hpasses.exists_stands hend
    exact hstands.bearsOut_of_error hend he
  · obtain ⟨prior, written, ahead, hstands⟩ := hpasses.exists_stands hend
    exact hstands.bearsOut_of_unfinished he

/-! ### Groups -/

/-- Whether a text has a group with this text in it. -/
def HasGroup (source g : String) : Prop := .group g ∈ (lexemesOf source).lexemes

/-- A group is found with what has been taken in since its first parenthesis. -/
theorem Mode.Holds.of_found_group {mode : Mode} {written : List Char} (h : mode.Holds written)
    {c next : Char} {d : Decision} (hd : mode.handle c next = .ok d) {g : String}
    (hfound : d.found = some (.group g)) :
    c = ')' ∧ written = '(' :: g.toList ∧ Balanced g.toList ∧ g.toList ≠ [] := by
  obtain ⟨rfl, hcaptured⟩ := Mode.of_handle_found_group hd hfound
  cases h with
  | @group depth read hopen =>
    cases depth with
    | zero =>
      rw [Nat.zero_add, handle_group_end] at hd
      split at hd
      · cases hd
      · rename_i hne
        cases hd
        cases hfound
        rw [String.toList_ofList]
        exact ⟨rfl, rfl, hopen, by simpa using hne⟩
    | succ depth =>
      rw [handle_group_close] at hd
      cases hd
      cases hfound
  | _ => cases hcaptured

namespace HasGroup

variable {source g : String} (h : HasGroup source g)

include h

theorem exists_eq : ∃ before after,
    Text.visible source = before ++ ('(' :: g.toList ++ ')' :: after) ∧
      Balanced g.toList ∧ g.toList ≠ [] := by
  obtain ⟨mode, c, rest, d, hpasses, hd, hfound⟩ := Passes.start.exists_of_mem h
  obtain ⟨prior, written, ahead, hstands⟩ :=
    hpasses.exists_stands (endMark_not_mem_visible source)
  obtain ⟨rfl, rfl, hbalanced, hne⟩ := hstands.holds.of_found_group hd hfound
  obtain ⟨more, rfl⟩ := hstands.exists_ahead_eq (by decide)
  exact ⟨prior, more, hstands.eq.symm, hbalanced, hne⟩

/-- The text of a group has no blanks. -/
theorem visible_eq : Text.visible g = g.toList := by
  obtain ⟨before, after, heq, -⟩ := h.exists_eq
  refine Text.filter_eq_self fun c hc => ?_
  have hmem : c ∈ Text.visible source := by
    rw [heq]
    simp [hc]
  exact Text.not_isBlank_of_mem_visible hmem

/-- **A group stands in its text**, between parentheses. -/
theorem exists_visible_eq : ∃ before after,
    Text.visible source = before ++ ('(' :: Text.visible g ++ ')' :: after) := by
  obtain ⟨before, after, heq, -⟩ := h.exists_eq
  exact ⟨before, after, by rw [h.visible_eq, heq]⟩

theorem balanced : Balanced (Text.visible g) := by
  obtain ⟨-, -, -, hbalanced, -⟩ := h.exists_eq
  rwa [h.visible_eq]

theorem visible_ne_nil : Text.visible g ≠ [] := by
  obtain ⟨-, -, -, -, hne⟩ := h.exists_eq
  rwa [h.visible_eq]

end HasGroup

/-- What a text has, the text around it has. -/
theorem visible_infix_of_reflTransGen {source inner : String}
    (h : ReflTransGen HasGroup source inner) :
    Text.visible inner <:+: Text.visible source := by
  induction h with
  | refl => exact List.infix_refl _
  | tail _ hgroup ih =>
    obtain ⟨before, after, heq⟩ := hgroup.exists_visible_eq
    exact List.IsInfix.trans ⟨before ++ ['('], ')' :: after, by simp [heq]⟩ ih

/-- A run of digits goes on no further in the text around, for a parenthesis comes next. -/
theorem isRunOfDigits_of_reflTransGen {source inner : String} {digits : List Char}
    (h : ReflTransGen HasGroup source inner) (hrun : IsRunOfDigits digits (Text.visible inner)) :
    IsRunOfDigits digits (Text.visible source) := by
  induction h with
  | refl => exact hrun
  | tail _ hgroup ih =>
    refine ih ?_
    obtain ⟨before, after, heq⟩ := hgroup.exists_visible_eq
    obtain ⟨hne, hdigits, before', after', heq', hbefore, hafter⟩ := hrun
    refine ⟨hne, hdigits, before ++ '(' :: before', after' ++ ')' :: after, ?_, ?_, ?_⟩
    · rw [heq, heq']
      simp
    · rcases before'.eq_nil_or_concat with rfl | ⟨init, last, rfl⟩
      · simp
      · rw [List.concat_eq_append, List.getLast?_concat] at hbefore
        rwa [List.concat_eq_append, ← List.cons_append, ← List.append_assoc, List.getLast?_concat]
    · cases after' with
      | nil => simp
      | cons c after' => exact hafter

/-! ### Where a fault lies -/

/-- Whether a cause lies in a text itself: it stops the scanner, or its tokens cannot be
arranged. -/
def Raises (provider : Provider) (source : String) (e : ParseError) : Prop :=
  (lexemesOf source).failure = some e ∨
    ∃ tokens, scan provider source = .ok tokens ∧ arrange tokens = .error e

/-- Lexemes have no tokens only if a group among them does not parse. -/
theorem exists_of_tokensOf_error {parseGroup : String → Except ParseError Parsed}
    {lexemes : List Lexeme} {e : ParseError}
    (h : tokensOf provider lexemes (fun g _ => parseGroup g) = .error e) :
    ∃ g, .group g ∈ lexemes ∧ parseGroup g = .error e := by
  induction lexemes with
  | nil => cases h
  | cons l rest ih =>
    rw [tokensOf_cons] at h
    split at h
    · rename_i htoken
      cases h
      cases l with
      | group g => exact ⟨g, List.mem_cons_self, map_eq_error_iff.mp htoken⟩
      | constant c => cases htoken
      | reference name => cases htoken
      | operator op => cases htoken
    · obtain ⟨g, hg, herror⟩ := ih (map_eq_error_iff.mp h)
      exact ⟨g, List.mem_cons_of_mem _ hg, herror⟩

/-- A fault lies in the text itself, or in one of its groups. -/
theorem raises_or_of_parse {source : String} {e : ParseError}
    (h : parse provider source = .error e) :
    Raises provider source e ∨ ∃ g, HasGroup source g ∧ parse provider g = .error e := by
  rw [parse_eq] at h
  split at h
  · rename_i hscan
    cases h
    rw [scan, tokensOfScan] at hscan
    split at hscan
    · rename_i htokens
      cases hscan
      exact .inr (exists_of_tokensOf_error htokens)
    · split at hscan
      · rename_i hfailure
        cases hscan
        exact .inl (.inl hfailure)
      · cases hscan
  · rename_i tokens hscan
    exact .inl (.inr ⟨tokens, hscan, map_eq_error_iff.mp h⟩)

/-- **Each fault lies somewhere**: in the text itself, or in a group at some depth. -/
theorem exists_raises_of_parse {source : String} {e : ParseError}
    (h : parse provider source = .error e) :
    ∃ inner, ReflTransGen HasGroup source inner ∧ Raises provider inner e := by
  induction hlength : source.length using Nat.strong_induction_on generalizing source with
  | _ n ih =>
    rcases raises_or_of_parse h with hraises | ⟨g, hgroup, hparse⟩
    · exact ⟨source, .refl, hraises⟩
    · obtain ⟨inner, hinner, hraises⟩ :=
        ih g.length (hlength ▸ length_lt_of_group_mem hgroup) hparse rfl
      exact ⟨inner, hinner.head hgroup, hraises⟩

/-- Tokens cannot be arranged if there are none, or if their operands and operators do not fit. -/
theorem of_arrange_error {tokens : List Token} {e : ParseError} (h : arrange tokens = .error e) :
    (e = .emptyText ∧ tokens = []) ∨ (∃ symbol, e = .missingOperand symbol) ∨
      ∃ count, e = .unjoined count := by
  have hshape : checkShape (arrangeOnto [] tokens) = .error e := by
    rw [arrange] at h
    split at h
    · cases h
    · cases h
      assumption
  by_cases hne : arrangeOnto [] tokens = []
  · rw [hne] at hshape
    cases hshape
    have hlength := length_arrangeOnto [] tokens
    rw [hne] at hlength
    exact .inl ⟨rfl, by simpa using hlength.symm⟩
  · rcases exists_of_checkShape_error hne hshape with
      ⟨k, op, depth, hstops⟩ | ⟨depth, hdepth, hone⟩
    · rw [checkShape_of_ne_nil hne, hstops.depthAfter_eq] at hshape
      cases hshape
      exact .inr (.inl ⟨_, rfl⟩)
    · rw [checkShape_of_depthAfter hne hdepth hone] at hshape
      cases hshape
      exact .inr (.inr ⟨_, rfl⟩)

/-- A text has no tokens exactly when there is nothing in it. -/
theorem scan_eq_ok_nil_iff {source : String} :
    scan provider source = .ok [] ↔ Text.visible source = [] := by
  rw [scan_eq_ok_iff, List.forall₂_nil_right_iff]
  constructor
  · rintro ⟨hfailure, hlexemes⟩
    have hscan : lexemesOf source = ⟨[], none⟩ := by rw [← hlexemes, ← hfailure]
    have hlexes := lexemesOf_eq_iff_lexes.mp hscan
    generalize Text.visible source = text at hlexes
    cases hlexes
    rfl
  · intro h
    have hscan : lexemesOf source = ⟨[], none⟩ := lexemesOf_eq_iff_lexes.mpr (h ▸ .nil true)
    rw [hscan]
    exact ⟨rfl, rfl⟩

namespace Raises

variable {source : String} {e : ParseError}

/-- A cause that lies in a text stops the scanner and is borne out, those of arranging apart. -/
theorem bearsOut (h : Raises provider source e) (hempty : e ≠ .emptyText)
    (hmissing : ∀ symbol, e ≠ .missingOperand symbol) (hjoined : ∀ count, e ≠ .unjoined count) :
    (lexemesOf source).failure = some e ∧ BearsOut (Text.visible source) e := by
  rcases h with hfailure | ⟨tokens, -, harrange⟩
  · exact ⟨hfailure, bearsOut_of_failure hfailure⟩
  · rcases of_arrange_error harrange with ⟨heq, -⟩ | ⟨symbol, heq⟩ | ⟨count, heq⟩
    · exact absurd heq hempty
    · exact absurd heq (hmissing symbol)
    · exact absurd heq (hjoined count)

theorem visible_eq_nil (h : Raises provider source .emptyText) : Text.visible source = [] := by
  rcases h with hfailure | ⟨tokens, hscan, harrange⟩
  · cases bearsOut_of_failure hfailure
  · rcases of_arrange_error harrange with ⟨-, rfl⟩ | ⟨_, heq⟩ | ⟨_, heq⟩
    · exact scan_eq_ok_nil_iff.mp hscan
    · cases heq
    · cases heq

end Raises

/-- A cause that is reported is borne out by the text or by a group, those of arranging apart. -/
theorem exists_bearsOut_of_parse {source : String} {e : ParseError}
    (h : parse provider source = .error e) (hempty : e ≠ .emptyText)
    (hmissing : ∀ symbol, e ≠ .missingOperand symbol) (hjoined : ∀ count, e ≠ .unjoined count) :
    ∃ inner, ReflTransGen HasGroup source inner ∧ (lexemesOf inner).failure = some e ∧
      BearsOut (Text.visible inner) e := by
  obtain ⟨inner, hinner, hraises⟩ := exists_raises_of_parse h
  exact ⟨inner, hinner, hraises.bearsOut hempty hmissing hjoined⟩

/-! ### Characters in messages -/

/-- The number that hexadecimal digits stand for, the letters among them being capital. -/
def hexadecimalValue (digits : List Char) : Nat :=
  digits.foldl (fun value c => 16 * value + digitValue c) 0
where
  digitValue (c : Char) : Nat :=
    if c.isDigit then c.toNat - '0'.toNat else c.toNat - 'A'.toNat + 10

theorem hexadecimalValue_concat (digits : List Char) (c : Char) :
    hexadecimalValue (digits ++ [c])
      = 16 * hexadecimalValue digits + hexadecimalValue.digitValue c := by
  rw [hexadecimalValue, List.foldl_append]
  rfl

/-- A number is read back from its hexadecimal digits. -/
theorem hexadecimalValue_toDigits (n : Nat) :
    hexadecimalValue ((Nat.toDigits 16 n).map Char.toUpper) = n := by
  have hdigit : ∀ d < 16, hexadecimalValue.digitValue d.digitChar.toUpper = d := by decide
  induction n using Nat.strong_induction_on with
  | _ n ih =>
    by_cases hn : n < 16
    · rw [Nat.toDigits_of_lt_base hn]
      simpa [hexadecimalValue] using hdigit n hn
    · rw [Nat.toDigits_of_base_le (by decide) (Nat.le_of_not_lt hn), List.map_append,
        List.map_singleton, hexadecimalValue_concat, ih (n / 16) (by omega),
        hdigit _ (Nat.mod_lt n (by decide))]
      omega

/-- The message about a character gives the number of the character. -/
theorem ParseError.exists_message_unexpected (c : Char) (phase : Phase) :
    ∃ digits : String, (unexpected c phase).message
        = s!"Parse error on '{c}' 0x{digits}. State: {phase.label}" ∧
      hexadecimalValue digits.toList = c.toNat := by
  refine ⟨hexadecimal c, rfl, ?_⟩
  rw [hexadecimal, String.toList_ofList, hexadecimalValue_toDigits]

/-! ### What is reported -/

/-- A group is not empty. -/
theorem HasGroup.not_raises_emptyText {source g : String} (h : HasGroup source g) :
    ¬ Raises provider g .emptyText :=
  fun hraises => h.visible_ne_nil hraises.visible_eq_nil

/-- The parentheses of a group match. -/
theorem HasGroup.not_raises_unclosed {depth : Nat} {source g : String} (h : HasGroup source g) :
    ¬ Raises provider g (.unclosed depth) := by
  intro hraises
  obtain ⟨-, hbears⟩ := hraises.bearsOut nofun nofun nofun
  cases hbears with
  | unclosed hpos hcount =>
    have hmatch := (balanced_iff_countsMatch.mp h.balanced).count_eq
    omega

section Outermost

variable {e : ParseError}
  (hgroup : ∀ {source g : String}, HasGroup source g → ¬ Raises provider g e)

include hgroup

/-- A cause that lies in no group lies in the text that is parsed. -/
theorem raises_of_parse {source : String} (h : parse provider source = .error e) :
    Raises provider source e := by
  obtain ⟨inner, hinner, hraises⟩ := exists_raises_of_parse h
  rcases hinner.cases_tail with rfl | ⟨outer, -, hlast⟩
  · exact hraises
  · exact absurd hraises (hgroup hlast)

/-- A cause that lies in no group is not reported for one, at any depth. -/
theorem parse_ne_of_transGen {source g : String} (h : TransGen HasGroup source g) :
    parse provider g ≠ .error e := by
  intro hparse
  obtain ⟨outer, -, hlast⟩ := TransGen.tail'_iff.mp h
  exact hgroup hlast (raises_of_parse hgroup hparse)

end Outermost

theorem Formula.snd_generate_eq_error_iff {f : Formula} {e : ParseError} :
    f.generate.2 = .error e ↔ parse f.provider f.source = .error e := by
  cases hparse : parse f.provider f.source with
  | error e' => rw [generate_of_parse_error hparse]; simp
  | ok p => rw [generate_of_parse hparse]; simp

/-- **What the cause says is true**, wherever in the text the fault lies. The text is reported to be
empty if it is, and only then. An empty pair of parentheses stands in the text. Parentheses are left
open by the text itself, and so many more are opened than closed in it. A literal that is too large
stands in the text with all its digits. A character that is unexpected, whose number the message
gives, stands in the text and is met between tokens or in a number; or it is the mark at the end,
and the text or a group ends in an exponent without digits. No group is reported to be empty or
unclosed. -/
theorem Formula.generate_error_tells (f : Formula) :
    (f.generate.2 = .error .emptyText ↔ Text.visible f.source = []) ∧
    (f.generate.2 = .error .emptyGroup → ['(', ')'] <:+: Text.visible f.source) ∧
    (∀ depth, f.generate.2 = .error (.unclosed depth) →
      (lexemesOf f.source).failure = some (.unclosed depth) ∧ 1 ≤ depth ∧
        (Text.visible f.source).count '(' = (Text.visible f.source).count ')' + depth) ∧
    (∀ literal, f.generate.2 = .error (.tooLarge literal) →
      IsRunOfDigits literal.toList (Text.visible f.source) ∧
        2 ^ 53 - 1 < Decimal.digitsValue literal.toList) ∧
    (∀ c phase, f.generate.2 = .error (.unexpected c phase) →
      phase ∈ [.top, .number, .decimal, .exponent] ∧
      (∃ digits : String, (ParseError.unexpected c phase).message
            = s!"Parse error on '{c}' 0x{digits}. State: {phase.label}" ∧
          hexadecimalValue digits.toList = c.toNat) ∧
      (c ∈ Text.visible f.source ∨
        c = endMark ∧ phase = .exponent ∧ ∃ inner, ReflTransGen HasGroup f.source inner ∧
          (lexemesOf inner).failure = some (.unexpected c phase) ∧
            EndsInMark (Text.visible inner))) ∧
    ∀ g, TransGen HasGroup f.source g →
      parse f.provider g ≠ .error .emptyText ∧
        ∀ depth, parse f.provider g ≠ .error (.unclosed depth) := by
  simp only [snd_generate_eq_error_iff]
  refine ⟨⟨fun h => ?_, fun h => ?_⟩, fun h => ?_, fun depth h => ?_, fun literal h => ?_,
    fun c phase h => ?_, fun g h => ⟨?_, fun depth => ?_⟩⟩
  · exact (raises_of_parse HasGroup.not_raises_emptyText h).visible_eq_nil
  · rw [parse_eq, scan_eq_ok_nil_iff.mpr h]
    rfl
  · obtain ⟨inner, hinner, -, hbears⟩ := exists_bearsOut_of_parse h nofun nofun nofun
    cases hbears with
    | emptyGroup hpair => exact hpair.trans (visible_infix_of_reflTransGen hinner)
  · have hraises := raises_of_parse HasGroup.not_raises_unclosed h
    obtain ⟨hfailure, hbears⟩ := hraises.bearsOut nofun nofun nofun
    cases hbears with
    | unclosed hpos hcount => exact ⟨hfailure, hpos, hcount⟩
  · obtain ⟨inner, hinner, -, hbears⟩ := exists_bearsOut_of_parse h nofun nofun nofun
    cases hbears with
    | tooLarge hrun hlarge =>
      rw [String.toList_ofList]
      exact ⟨isRunOfDigits_of_reflTransGen hinner hrun, hlarge⟩
  · obtain ⟨inner, hinner, hfailure, hbears⟩ := exists_bearsOut_of_parse h nofun nofun nofun
    have hmessage := ParseError.exists_message_unexpected c phase
    cases hbears with
    | unexpected hphase hc =>
      exact ⟨hphase, hmessage, .inl ((visible_infix_of_reflTransGen hinner).subset hc)⟩
    | unended hmark =>
      exact ⟨by decide, hmessage, .inr ⟨rfl, rfl, inner, hinner, hfailure, hmark⟩⟩
  · exact parse_ne_of_transGen HasGroup.not_raises_emptyText h
  · exact parse_ne_of_transGen HasGroup.not_raises_unclosed h

/-- An exponent without digits at the end of a group in a group: the mark at the end is reported,
which is no character of the text. -/
theorem Formula.generate_error_tells_exponent :
    (ofText "f" .sole "2*((.5e-))").generate.2 = .error (.unexpected ' ' .exponent) ∧
      ' ' ∉ Text.visible "2*((.5e-))" ∧
      ∃ inner, ReflTransGen HasGroup "2*((.5e-))" inner ∧ EndsInMark (Text.visible inner) := by
  have hparse : parse .sole "2*((.5e-))" = .error (.unexpected ' ' .exponent) := by
    have hinner : lexemesOf ".5e-" = ⟨[], some (.unexpected ' ' .exponent)⟩ := by decide +kernel
    have hmiddle : lexemesOf "(.5e-)" = ⟨[.group ".5e-"], none⟩ := by decide +kernel
    have houter : lexemesOf "2*((.5e-))"
        = ⟨[.constant (.whole 2), .operator (.binary .multiply), .group "(.5e-)"], none⟩ := by
      decide +kernel
    have hdeep : parse .sole ".5e-" = .error (.unexpected ' ' .exponent) := by
      rw [parse_eq, scan, hinner]
      rfl
    have hgroup : parse .sole "(.5e-)" = .error (.unexpected ' ' .exponent) := by
      rw [parse_eq, scan, hmiddle, tokensOfScan, tokensOf_cons, Lexeme.token, hdeep]
      rfl
    rw [parse_eq, scan, houter, tokensOfScan]
    simp only [tokensOf_cons, Lexeme.token, hgroup]
    rfl
  let f := ofText "f" .sole "2*((.5e-))"
  have h : f.generate.2 = .error (.unexpected ' ' .exponent) :=
    snd_generate_eq_error_iff.mpr hparse
  obtain ⟨-, -, -, -, hunexpected, -⟩ := f.generate_error_tells
  have hend : ' ' ∉ Text.visible "2*((.5e-))" := by decide
  obtain ⟨-, -, hmem | ⟨-, -, inner, hinner, -, hmark⟩⟩ := hunexpected _ _ h
  · exact absurd hmem hend
  · exact ⟨h, hend, inner, hinner, hmark⟩

end Formulary
