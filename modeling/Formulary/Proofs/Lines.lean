import Formulary.Proofs.Failures
import Formulary.Proofs.Faults
import Formulary.Proofs.Resolution
import Formulary.Proofs.Runs
import Formulary.Proofs.SourceOrder

/-!
# Messages of one line

What a run tells of a text holds the text itself, as it was given, and what has been found out about
it: a value, names, or a message. Only the text can hold a line feed. A value is digits with a sign
and a point, or a word. Names are names of formulas, or have been read by the scanner, which takes
letters, digits and underscores into a name. A message consists of words, numbers and symbols, and
of what it shows of the text; and what it shows has been read, which no blank ever is.

So a text of one line is told of in one line, and the lines that are written, each with a line feed
after it, can be cut apart again.

## Main definitions

* `Text.IsLine` — texts without a line feed
* `Text.written` — lines as they are written
* `ParseError.shown`, `EvalError.names` — what a message shows of a text, and the names in it

## Main results

* `Text.cutLines_written` — lines that have been written are cut apart again
* `isLine_message_of_parse` — what is wrong with a text is told in one line
* `isLine_of_mem_references` — names of formulas are of one line
* `CommandLine.isLine_event` — what becomes of a formula is told in one line
-/

namespace Formulary

variable {provider : Provider}

/-! ### Texts without a line feed -/

namespace Text

/-- Whether a text is one line. -/
def IsLine (text : String) : Prop := '\n' ∉ text.toList

instance (text : String) : Decidable (IsLine text) :=
  inferInstanceAs (Decidable ('\n' ∉ text.toList))

@[simp] theorem isLine_append {a b : String} : IsLine (a ++ b) ↔ IsLine a ∧ IsLine b := by
  simp [IsLine]

/-- A text of characters that are none. -/
theorem isLine_of_forall (good : Char → Bool) (hgood : good '\n' = false) {text : String}
    (h : ∀ c ∈ text.toList, good c = true) : IsLine text := by
  intro hmem
  rw [h '\n' hmem] at hgood
  cases hgood

theorem isLine_intercalate {separator : String} (hseparator : IsLine separator)
    {parts : List String} (h : ∀ part ∈ parts, IsLine part) :
    IsLine (String.intercalate separator parts) := by
  induction parts with
  | nil => exact List.not_mem_nil
  | cons part rest ih =>
    obtain ⟨hpart, hrest⟩ := List.forall_mem_cons.mp h
    cases rest with
    | nil => exact hpart
    | cons next rest =>
      rw [String.intercalate_cons_cons]
      simp [hpart, hseparator, ih hrest]

@[simp] theorem isLine_toString {text : String} : IsLine (toString text) ↔ IsLine text := Iff.rfl

@[simp] theorem isLine_toString_char {c : Char} : IsLine (toString c) ↔ '\n' ≠ c := by
  show '\n' ∉ (String.singleton c).toList ↔ _
  simp

@[simp] theorem isLine_repr (n : Nat) : IsLine n.repr := by
  refine isLine_of_forall Char.isDigit rfl fun c hc => ?_
  rw [Nat.toList_repr] at hc
  exact Nat.isDigit_of_mem_toDigits (by decide) (by decide) hc

/-- Lines as they are written, a line feed after each. -/
def written (lines : List String) : List Char := lines.flatMap fun line => line.toList ++ ['\n']

/-- A text is cut where its first line ends. -/
theorem cutLines_append {line : List Char} (h : '\n' ∉ line) (rest : List Char) :
    cutLines (line ++ '\n' :: rest) = line :: cutLines rest := by
  induction line with
  | nil => exact cutLines_lineFeed rest
  | cons c line ih =>
    obtain ⟨hc, hline⟩ := not_or.mp (mt List.mem_cons.mpr h)
    exact cutLines_cons (Ne.symm hc) (ih hline)

/-- **Lines come apart.** What has been written is cut into its lines again, and the empty rest. -/
theorem cutLines_written {lines : List String} (h : ∀ line ∈ lines, IsLine line) :
    cutLines (written lines) = lines.map String.toList ++ [[]] := by
  induction lines with
  | nil => rfl
  | cons line lines ih =>
    obtain ⟨hline, hlines⟩ := List.forall_mem_cons.mp h
    rw [written, List.flatMap_cons, List.append_assoc, List.singleton_append, ← written,
      cutLines_append hline, ih hlines]
    rfl

end Text

open Text

/-! ### Numbers and symbols -/

theorem Symbol.isLine_text (symbol : Symbol) : IsLine symbol.text := by
  cases symbol <;> decide

/-- A value is one line. -/
theorem Decimal.isLine_text (x : Float) : IsLine (Decimal.text x) := by
  have hmagnitude : ∀ d, IsLine (Layout.plain.magnitude d) := by
    intro d
    refine isLine_of_forall (fun c => c.isDigit || c == '.') rfl fun c hc => ?_
    rcases d.of_mem_positional hc with hdigit | rfl | hnone
    · simp [hdigit]
    · rfl
    · cases hnone
  rw [Decimal.text, Layout.write]
  split_ifs
  all_goals simp +decide [hmagnitude]

/-! ### What is wrong with a text -/

namespace ParseError

/-- What the message of a cause shows of a text. -/
def shown : ParseError → List Char
  | unexpected c _ => [c]
  | tooLarge literal | unreadable literal => literal.toList
  | unclosed _ | emptyText | emptyGroup | missingOperand _ | unjoined _ => []

theorem isLine_hexadecimal (c : Char) : IsLine (hexadecimal c) := by
  have hdigit : ∀ d < 16, d.digitChar.toUpper ≠ '\n' := by decide
  rw [hexadecimal, IsLine, String.toList_ofList]
  generalize c.toNat = n
  induction n using Nat.strong_induction_on with
  | _ n ih =>
    by_cases hn : n < 16
    · rw [Nat.toDigits_of_lt_base hn]
      simpa using (hdigit n hn).symm
    · rw [Nat.toDigits_of_base_le (by decide) (Nat.le_of_not_lt hn), List.map_append,
        List.map_singleton, List.mem_append, List.mem_singleton, not_or]
      exact ⟨ih (n / 16) (by omega), (hdigit _ (Nat.mod_lt n (by decide))).symm⟩

/-- A message is one line if it shows no line feed. -/
theorem isLine_message {e : ParseError} (h : '\n' ∉ e.shown) : IsLine e.message := by
  cases e with
  | unexpected c phase =>
    have hc : '\n' ≠ c := by simpa [shown] using h
    have hlabel : IsLine phase.label := by cases phase <;> decide
    show IsLine (_ ++ _ ++ _ ++ _ ++ _ ++ _)
    simp +decide [hc, hlabel, isLine_hexadecimal]
  | unclosed depth =>
    show IsLine (_ ++ _)
    simp +decide
  | emptyText => decide
  | emptyGroup => decide
  | tooLarge literal =>
    have hliteral : IsLine literal := h
    show IsLine (_ ++ _ ++ _)
    simp +decide [hliteral]
  | unreadable literal =>
    have hliteral : IsLine literal := h
    show IsLine (_ ++ (_ ++ _ ++ _))
    simp +decide [hliteral]
  | missingOperand symbol =>
    show IsLine (_ ++ (_ ++ _ ++ _))
    simp +decide [symbol.isLine_text]
  | unjoined count =>
    show IsLine (_ ++ (_ ++ _))
    simp +decide

/-- **What a message shows has been read**: it is in the text, or it is the mark at the end. -/
theorem mem_of_mem_shown {source : String} {e : ParseError}
    (h : parse provider source = .error e) {c : Char} (hc : c ∈ e.shown) :
    c ∈ visible source ∨ c = endMark := by
  cases e with
  | unexpected c' phase =>
    obtain ⟨inner, hinner, -, hbears⟩ := exists_bearsOut_of_parse h nofun nofun nofun
    obtain rfl := List.mem_singleton.mp hc
    cases hbears with
    | unexpected _ hmem => exact .inl ((visible_infix_of_reflTransGen hinner).subset hmem)
    | unended _ => exact .inr rfl
  | tooLarge literal =>
    obtain ⟨inner, hinner, -, hbears⟩ := exists_bearsOut_of_parse h nofun nofun nofun
    cases hbears with
    | tooLarge hrun _ =>
      obtain ⟨-, -, before, after, heq, -⟩ := hrun
      rw [shown, String.toList_ofList] at hc
      refine .inl ((visible_infix_of_reflTransGen hinner).subset ?_)
      simp [heq, hc]
  | unreadable literal =>
    obtain ⟨inner, hinner, -, hbears⟩ := exists_bearsOut_of_parse h nofun nofun nofun
    cases hbears
  | unclosed _ | emptyText | emptyGroup | missingOperand _ | unjoined _ => cases hc

end ParseError

/-- What is wrong with a text is told in one line. -/
theorem isLine_message_of_parse {source : String} {e : ParseError}
    (h : parse provider source = .error e) : IsLine e.message := by
  refine ParseError.isLine_message fun hmem => ?_
  rcases ParseError.mem_of_mem_shown h hmem with hvisible | hend
  · exact absurd (not_isBlank_of_mem_visible hvisible) (by decide)
  · exact absurd hend (by decide)

/-! ### Why a formula has no value -/

namespace EvalError

/-- The names in the message of a cause. -/
def names : EvalError → List String
  | unresolved name | notGenerated name => [name]
  | cycle names => names
  | underflow _ _ _ | leftover _ | malformed _ | unsupported _ _ | divisionByZero | domain _ _ => []

/-- A message is one line if the names in it are of one line. -/
theorem isLine_message {e : EvalError} (h : ∀ name ∈ e.names, IsLine name) : IsLine e.message := by
  cases e with
  | unresolved name =>
    have hname : IsLine name := h name (List.mem_singleton_self name)
    show IsLine (_ ++ _ ++ _)
    simp +decide [hname]
  | notGenerated name =>
    have hname : IsLine name := h name (List.mem_singleton_self name)
    show IsLine (_ ++ _ ++ _)
    simp +decide [hname]
  | underflow symbol needed available =>
    show IsLine (_ ++ _ ++ _ ++ _ ++ _ ++ _ ++ _)
    simp +decide [symbol.isLine_text]
  | leftover count =>
    show IsLine (_ ++ _ ++ _)
    simp +decide
  | malformed cause =>
    cases cause <;> decide
  | unsupported symbol arity =>
    show IsLine (_ ++ _ ++ _ ++ _ ++ _)
    simp +decide [symbol.isLine_text]
  | divisionByZero => decide
  | domain symbol arguments =>
    have harguments : IsLine (String.intercalate ", " (arguments.map Decimal.text)) := by
      refine isLine_intercalate (by decide) fun part hpart => ?_
      obtain ⟨x, -, rfl⟩ := List.mem_map.mp hpart
      exact Decimal.isLine_text x
    show IsLine (_ ++ _ ++ _ ++ _ ++ _)
    simp +decide [symbol.isLine_text, harguments]
  | cycle names =>
    have hnames : IsLine (String.intercalate ", " names) := isLine_intercalate (by decide) h
    show IsLine (_ ++ _)
    simp +decide [hnames]

end EvalError

/-! ### Names in formulas -/

/-- The names that a formula refers to have been read as names. -/
theorem isNameChar_of_mem_references {source : String} {p : Parsed}
    (h : parse provider source = .ok p) :
    ∀ name ∈ references p.program, ∀ c ∈ name.toList, isNameChar c = true := by
  refine parse_induction (motive := fun _ p =>
    ∀ name ∈ references p.program, ∀ c ∈ name.toList, isNameChar c = true)
    (fun {source p} h ih name hname => ?_) h
  rw [references_eq_flatMap, List.mem_flatMap] at hname
  obtain ⟨t, ht, hname⟩ := hname
  have htoken : t ∈ p.tokens := (program_perm_tokens h).subset ht
  cases t with
  | constant c => simp [Token.references] at hname
  | operator op => simp [Token.references] at hname
  | group name' provider inner written program =>
    rw [Token.references] at hname
    exact ih htoken name hname
  | reference name' =>
    rw [Token.references, List.mem_singleton] at hname
    subst hname
    obtain ⟨hlexes, htokens⟩ := lexes_of_parse h
    obtain ⟨l, hl, htoken⟩ := exists_lexeme_of_mem htokens htoken
    obtain rfl := Lexeme.eq_lexeme_of_token htoken
    obtain ⟨due, text, rest, hspells, -⟩ := hlexes.exists_spells_of_mem hl
    cases hspells with
    | reference n _ =>
      rw [String.toList_ofList]
      exact n.isNameChar_text

theorem isLine_of_mem_references {source : String} {p : Parsed} (h : parse provider source = .ok p)
    {name : String} (hname : name ∈ references p.program) : IsLine name :=
  isLine_of_forall isNameChar (by decide) (isNameChar_of_mem_references h name hname)

/-- A formula that has no value for a name refers to it. -/
theorem mem_references_of_mem_names {lib : MathLibrary} {env : Environment} {source : String}
    {p : Parsed} (h : parse env.provider source = .ok p) {e : EvalError}
    (he : valueOf lib env p.program = .error e) {name : String} (hname : name ∈ e.names) :
    name ∈ references p.program := by
  have hpossible := succeeds_of_parse lib env h
  rw [he] at hpossible
  cases e with
  | unresolved name' =>
    obtain rfl := List.mem_singleton.mp hname
    have hfirst := head?_unresolved_of_valueOf (sharesProvider_program h) he
    exact (List.mem_filter.mp (List.mem_of_head? hfirst)).1
  | notGenerated name' => cases hpossible
  | cycle names => cases hpossible
  | underflow _ _ _ | leftover _ | malformed _ | unsupported _ _ | divisionByZero | domain _ _ =>
    cases hname

/-! ### What a run tells -/

namespace CommandLine

theorem isLine_nameAt (i : Nat) : IsLine (nameAt i) := by
  simp +decide [nameAt]

section Texts

variable {texts : List String} (hlines : ∀ text ∈ texts, IsLine text)

include hlines

theorem isLine_getElem?_getD (i : Nat) : IsLine (texts[i]?.getD "") := by
  cases htext : texts[i]? with
  | none => exact List.not_mem_nil
  | some text => exact hlines text (List.mem_of_getElem? htext)

theorem isLine_title (i : Nat) : IsLine (formulaAt texts i).title := by
  rw [title_formulaAt]
  simp +decide [isLine_nameAt, isLine_getElem?_getD hlines]

/-- A text that is no formula is told of in one line. -/
theorem isLine_complaintAt? {i : Nat} {event : Event} (h : complaintAt? texts i = some event) :
    IsLine event.text := by
  rw [complaintAt?] at h
  split at h
  · rename_i e hparse
    cases h
    show IsLine (_ ++ _ ++ _ ++ _ ++ _)
    simp +decide [isLine_nameAt, isLine_getElem?_getD hlines, isLine_message_of_parse hparse]
  · cases h

/-- **One line.** What becomes of a formula is told in one line. -/
theorem isLine_event {i : Nat} {p : Parsed} (hp : parsedAt? texts i = some p) (lib : MathLibrary)
    (table : Table) :
    IsLine ((outcomeOf lib table (formulaAt texts i)).event (formulaAt texts i)).text := by
  obtain ⟨text, -, hparse⟩ := parsedAt?_eq_some_iff.mp hp
  have htitle := isLine_title hlines i
  have htells : Tells table.environment p.program (valueOf lib table.environment p.program)
      (outcomeOf lib table (formulaAt texts i)) := by
    rw [← program_formulaAt hp, ← environment_formulaAt texts i]
    exact tells_outcomeOf (checkShape_formulaAt hp) (sharesProvider_formulaAt texts i).program table
  cases houtcome : outcomeOf lib table (formulaAt texts i) with
  | unresolved names =>
    obtain ⟨rfl, -⟩ := (htells.unresolved names).mp houtcome
    have hnames : IsLine (String.intercalate ", " (unresolved table.environment p.program)) :=
      isLine_intercalate (by decide) fun name hname =>
        isLine_of_mem_references hparse (List.mem_filter.mp hname).1
    show IsLine (_ ++ _ ++ _)
    simp +decide [htitle, hnames]
  | failed cause =>
    obtain ⟨hcause, -⟩ := (htells.failed cause).mp houtcome
    have hmessage : IsLine cause.message := EvalError.isLine_message fun name hname =>
      isLine_of_mem_references hparse (mem_references_of_mem_names hparse hcause hname)
    show IsLine (_ ++ _ ++ _)
    simp +decide [htitle, hmessage]
  | value comparison v =>
    have hvalue : IsLine (if comparison then Outcome.truthText v else Decimal.text v) := by
      split
      · rw [Outcome.truthText]
        split <;> simp +decide [Decimal.isLine_text]
      · exact Decimal.isLine_text v
    show IsLine (_ ++ _ ++ _)
    simp +decide [htitle, hvalue]

end Texts

end CommandLine

end Formulary
