import Formulary.Proofs.Parentheses
import Formulary.Proofs.Printing
import Mathlib.Data.List.TakeWhile
import Mathlib.Data.Nat.Init

/-!
# What the scanner accepts

The texts that the scanner reads to their end are those that can be cut into the texts of lexemes.
Where the cuts are is decided from the left: a sign where an operand is due belongs to the operand,
a symbol is the longest one there is, a name goes on for as long as its characters do, a number is
followed by a character that ends it, and a group goes on to the parenthesis that matches its first
one.

## Main definitions

* `Spells` — the text of one lexeme, before a given rest
* `Lexes` — the texts of lexemes, one after another

## Main results

* `Spells.scanFrom_eq` — the scanner finds a lexeme and goes on with the rest
* `exists_spells` — where the scanner reads to the end, there is a first lexeme
* `lexemesOf_eq_iff_lexes` — the scanner finds lexemes exactly in the texts that are cut into them
-/

namespace Formulary

/-! ### Numbers -/

/-- A text goes on with characters of one sort up to the first one that is not. -/
theorem exists_eq_append (good : Char → Bool) (text : List Char) :
    ∃ cs rest, text = cs ++ rest ∧ (∀ c ∈ cs, good c = true) ∧
      ∀ c ∈ rest.head?, good c = false := by
  refine ⟨text.takeWhile good, text.dropWhile good, List.takeWhile_append_dropWhile.symm,
    fun c hc => List.mem_takeWhile_imp hc, fun c hc => ?_⟩
  have := List.head?_dropWhile_not good text
  rw [Option.mem_def.mp hc] at this
  exact this

/-- What holds of the mark at the end holds of the character after a text, which may be the mark, if
it holds of the first character of the rest, if there is one. -/
theorem forall_mem_head?_iff {good : Char → Bool} {b : Bool} (hend : good endMark = b)
    (rest : List Char) :
    (∀ c ∈ rest.head?, good c = b) ↔ good (rest.headD endMark) = b := by
  cases rest with
  | nil => simpa using hend
  | cons c rest => simp

theorem headD_append_endMark (text : List Char) :
    (text ++ [endMark]).headD endMark = text.headD endMark := by
  cases text <;> rfl

/-- The end of a text is read as the mark at the end. -/
theorem append_endMark_eq_cons (text : List Char) :
    text ++ [endMark]
      = text.headD endMark :: (text.tail ++ if text.isEmpty then [] else [endMark]) := by
  cases text <;> rfl

/-- A scanner that reaches the end has made a decision at each character. -/
theorem exists_decision {mode : Mode} {c : Char} {rest : List Char}
    (h : (scanFrom mode (c :: rest)).failure = none) :
    ∃ d, mode.handle c (rest.headD endMark) = .ok d ∧
      (scanFrom d.mode (d.move.rest c rest)).failure = none := by
  cases hd : mode.handle c (rest.headD endMark) with
  | error e =>
    rw [scanFrom_cons_of_error hd] at h
    cases h
  | ok d =>
    rw [scanFrom_cons_of_ok hd, Scan.failure_after] at h
    exact ⟨d, rfl, h⟩

/-- After its mark and its sign an exponent has digits, and a character that ends it. -/
theorem exists_digits_of_scanFrom_exponent {read text : List Char}
    (h : (scanFrom (.exponent (String.ofList read)) (text ++ [endMark])).failure = none)
    (hread : read.getLast?.any Char.isDigit = false) :
    ∃ digits rest, text = digits ++ rest ∧ (∀ c ∈ digits, c.isDigit = true) ∧ digits ≠ [] ∧
      isTerminator (rest.headD endMark) = true := by
  obtain ⟨digits, rest, rfl, hdigits, hrest⟩ := exists_eq_append Char.isDigit text
  rw [List.append_assoc, scanFrom_exponent_digits read hdigits, append_endMark_eq_cons] at h
  obtain ⟨d, hd, -⟩ := exists_decision h
  have hdigit : ¬ (rest.headD endMark).isDigit = true := by
    cases rest with
    | nil => decide
    | cons c rest => simp [hrest c rfl]
  rw [Mode.handle, Mode.inExponent, if_neg hdigit] at hd
  split at hd
  · rename_i hends
    refine ⟨digits, rest, rfl, hdigits, ?_, hends.1⟩
    rintro rfl
    have := hends.2
    rw [String.toList_ofList, List.append_nil, hread] at this
    cases this
  · cases hd

/-- After the digits of a number comes its exponent, if it has one, and a character that ends it. -/
theorem exists_exponent_of_scanFrom_digits {afterPoint : Bool} {read text : List Char}
    (h : (scanFrom (.digits afterPoint (String.ofList read)) (text ++ [endMark])).failure = none)
    (hdigit : ∀ c ∈ text.head?, c.isDigit = false)
    (hpoint : afterPoint = false → text.head? ≠ some '.') :
    ∃ (e : Option Exponent) (rest : List Char), text = e.elim [] Exponent.text ++ rest ∧
      isTerminator (rest.headD endMark) = true ∧
      (e = none → ∃ c, Constant.ofLiteral (String.ofList read) = .ok c) := by
  by_cases hmark : text.headD endMark = 'e' ∨ text.headD endMark = 'E'
  · obtain ⟨c, cs, rfl⟩ : ∃ c cs, text = c :: cs := by
      cases text with
      | nil => exact absurd hmark (by decide)
      | cons c cs => exact ⟨c, cs, rfl⟩
    rw [List.headD_cons] at hmark
    have hlast : ∀ more, more = [c] ∨ more = [c, '-'] →
        (read ++ more).getLast?.any Char.isDigit = false := by
      rintro more (rfl | rfl) <;> rcases hmark with rfl | rfl <;> simp
    rw [List.cons_append] at h
    by_cases hminus : (cs ++ [endMark]).headD endMark = '-'
    · have hstep := (Mode.handle_digits_mark afterPoint read hmark _).trans (if_pos hminus)
      rw [headD_append_endMark] at hminus
      obtain ⟨cs, rfl⟩ : ∃ cs', cs = '-' :: cs' := by
        cases cs with
        | nil => exact absurd hminus (by decide)
        | cons c' cs => exact ⟨cs, by rw [List.headD_cons] at hminus; rw [hminus]⟩
      rw [scanFrom_cons_of_ok hstep, Scan.after_none] at h
      obtain ⟨digits, rest, rfl, hdigits, hne, hends⟩ :=
        exists_digits_of_scanFrom_exponent h (hlast _ (.inr rfl))
      exact ⟨some ⟨c, true, digits, hmark, hdigits, hne⟩, rest, rfl, hends, by simp⟩
    · have hstep := (Mode.handle_digits_mark afterPoint read hmark _).trans (if_neg hminus)
      rw [scanFrom_cons_of_goOn hstep] at h
      obtain ⟨digits, rest, rfl, hdigits, hne, hends⟩ :=
        exists_digits_of_scanFrom_exponent h (hlast _ (.inl rfl))
      exact ⟨some ⟨c, false, digits, hmark, hdigits, hne⟩, rest, rfl, hends, by simp⟩
  · rw [append_endMark_eq_cons] at h
    obtain ⟨d, hd, -⟩ := exists_decision h
    have hnotdigit : ¬ (text.headD endMark).isDigit = true := by
      cases text with
      | nil => decide
      | cons c cs => simp [hdigit c rfl]
    have hnotpoint : ¬ (text.headD endMark = '.' ∧ afterPoint = false) := by
      rintro ⟨hhead, hafter⟩
      cases text with
      | nil => exact absurd hhead (by decide)
      | cons c cs => exact hpoint hafter (congrArg some hhead)
    rw [Mode.handle_digits, Mode.inDigits, if_neg hnotdigit, if_neg hnotpoint, if_neg hmark] at hd
    split at hd
    · rename_i hends
      obtain ⟨c, hc, -⟩ := Mode.eq_of_endNumber hd
      exact ⟨none, text, rfl, hends, fun _ => ⟨c, hc⟩⟩
    · cases hd

/-- A word of digits stands for a whole number, unless it is too large. -/
theorem Constant.ofLiteral_digits {digits : List Char} (h : ∀ c ∈ digits, c.isDigit = true) :
    Constant.ofLiteral (String.ofList digits)
      = if Decimal.digitsValue digits ≤ largestWhole then .ok (.whole (Decimal.digitsValue digits))
        else .error (.tooLarge (String.ofList digits)) := by
  have hwhole : ¬ (digits.any fun c => c == '.' || c == 'e' || c == 'E') = true := by
    rw [Bool.not_eq_true, List.any_eq_false]
    intro c hc
    obtain ⟨hpoint, he, hE, -⟩ := ne_of_isDigit (h c hc)
    simp [hpoint, he, hE]
  rw [Constant.ofLiteral, String.toList_ofList, if_neg hwhole]

/-- A word of digits that stands for a number is not too large. -/
theorem le_largestWhole_of_ofLiteral {digits : List Char}
    (hdigits : ∀ c ∈ digits, c.isDigit = true) {c : Constant}
    (h : Constant.ofLiteral (String.ofList digits) = .ok c) :
    Decimal.digitsValue digits ≤ largestWhole := by
  rw [Constant.ofLiteral_digits hdigits] at h
  split at h
  · assumption
  · cases h

/-- After the point of a number come digits, its exponent, if it has one, and a character that ends
it. -/
theorem exists_fraction_of_scanFrom_digits {read text : List Char}
    (h : (scanFrom (.digits true (String.ofList read)) (text ++ [endMark])).failure = none) :
    ∃ (digits : List Char) (e : Option Exponent) (rest : List Char),
      text = digits ++ (e.elim [] Exponent.text ++ rest) ∧ (∀ c ∈ digits, c.isDigit = true) ∧
      isTerminator (rest.headD endMark) = true := by
  obtain ⟨digits, more, rfl, hdigits, hmore⟩ := exists_eq_append Char.isDigit text
  rw [List.append_assoc, scanFrom_digits_append true _ hdigits] at h
  obtain ⟨e, rest, rfl, hends, -⟩ := exists_exponent_of_scanFrom_digits h hmore (by simp)
  exact ⟨digits, e, rest, rfl, hdigits, hends⟩

/-- **Numbers are literals.** Where a number begins and the scanner reaches the end, there is a
number as it is written, and a character that ends it. -/
theorem exists_literal {c : Char} {cs : List Char} (hc : c.isDigit = true ∨ c = '.')
    (h : (scanFrom .top (c :: cs ++ [endMark])).failure = none) :
    ∃ (l : Literal) (rest : List Char), c :: cs = l.text ++ rest ∧
      isTerminator (rest.headD endMark) = true := by
  rw [List.cons_append] at h
  rcases hc with hc | rfl
  · rw [scanFrom_cons_of_goOn (Mode.handle_top_of_isDigit hc _)] at h
    obtain ⟨digits, more, rfl, hdigits, hmore⟩ := exists_eq_append Char.isDigit cs
    have hwhole : ∀ d ∈ c :: digits, d.isDigit = true := List.forall_mem_cons.mpr ⟨hc, hdigits⟩
    rw [List.append_assoc, scanFrom_digits_append false [c] hdigits, List.singleton_append] at h
    by_cases hpoint : more.head? = some '.'
    · obtain ⟨more, rfl⟩ := List.head?_eq_some_iff.mp hpoint
      rw [List.cons_append, scanFrom_cons_of_goOn (Mode.handle_digits_point _ _)] at h
      obtain ⟨fraction, e, rest, rfl, hfraction, hends⟩ := exists_fraction_of_scanFrom_digits h
      refine ⟨⟨c :: digits, some fraction, e, hwhole, ?_, .inr rfl, by simp⟩, rest, ?_, hends⟩
      · rintro _ ⟨⟩
        exact hfraction
      · simp [Literal.text]
    · obtain ⟨e, rest, rfl, hends, hread⟩ :=
        exists_exponent_of_scanFrom_digits h hmore fun _ => hpoint
      refine ⟨⟨c :: digits, none, e, hwhole, by simp, .inl (by simp), fun _ he => ?_⟩, rest, ?_,
        hends⟩
      · obtain ⟨value, hvalue⟩ := hread he
        exact le_largestWhole_of_ofLiteral hwhole hvalue
      · simp [Literal.text]
  · rw [scanFrom_cons_of_goOn (Mode.handle_top_point _)] at h
    obtain ⟨fraction, e, rest, rfl, hfraction, hends⟩ := exists_fraction_of_scanFrom_digits h
    refine ⟨⟨[], some fraction, e, by simp, ?_, .inr rfl, by simp⟩, rest, ?_, hends⟩
    · rintro _ ⟨⟩
      exact hfraction
    · simp [Literal.text]

/-! ### Lexemes -/

/-- The text of a lexeme before a rest. Where an operand is due (`due`), a sign stands before it;
elsewhere, it stands between operands. Nothing of the rest could belong to the lexeme as well. -/
inductive Spells (due : Bool) : Lexeme → List Char → List Char → Prop where
  /-- A sign before its operand. -/
  | sign {symbol : Symbol} {rest : List Char} (hdue : due = true)
      (hsymbol : symbol = .add ∨ symbol = .subtract) :
      Spells due (.operator (.unary symbol)) symbol.text.toList rest
  /-- A symbol between operands, which is the longest one that there is. -/
  | binary {symbol : Symbol} {rest : List Char} (hsymbol : symbol.isFunction = false)
      (hdue : due = true → symbol ∉ [.add, .subtract, .arrow])
      (hnext : ∀ c, symbol.text.toList = [c] → isPair c (rest.headD endMark) = false) :
      Spells due (.operator (.binary symbol)) symbol.text.toList rest
  /-- The name of a function. -/
  | function {symbol : Symbol} {rest : List Char} (hsymbol : symbol.isFunction = true)
      (hnext : isNameChar (rest.headD endMark) = false) :
      Spells due (.operator (.unary symbol)) symbol.text.toList rest
  /-- Any other name. -/
  | reference {rest : List Char} (n : Name) (hnext : isNameChar (rest.headD endMark) = false) :
      Spells due (.reference (String.ofList n.text)) n.text rest
  /-- A number. -/
  | constant {rest : List Char} (l : Literal) (hnext : isTerminator (rest.headD endMark) = true) :
      Spells due (.constant l.constant) l.text rest
  /-- A text in parentheses that match. -/
  | group {g rest : List Char} (hbalanced : Balanced g) (hne : g ≠ []) :
      Spells due (.group (String.ofList g)) ('(' :: g ++ [')']) rest

/-- Whether an operand is due after a lexeme, so that a sign belongs to it. -/
def Lexeme.isOperator : Lexeme → Bool
  | .operator _ => true
  | _ => false

/-- The texts of lexemes, one after another. -/
inductive Lexes : (due : Bool) → List Char → List Lexeme → Prop where
  | nil (due : Bool) : Lexes due [] []
  | cons {due : Bool} {lexeme : Lexeme} {text rest : List Char} {lexemes : List Lexeme}
      (hspells : Spells due lexeme text rest) (hrest : Lexes lexeme.isOperator rest lexemes) :
      Lexes due (text ++ rest) (lexeme :: lexemes)

/-- The mode of the scanner between lexemes. -/
def Mode.between (due : Bool) : Mode := if due then .start else .top

/-- Where an operand is due, a character that is no sign can begin any lexeme. -/
theorem scanFrom_between {due : Bool} {c : Char} (hsign : due = true → c ≠ '+' ∧ c ≠ '-')
    (hend : c ≠ endMark) (rest : List Char) :
    scanFrom (.between due) (c :: rest) = scanFrom .top (c :: rest) := by
  cases due with
  | false => rfl
  | true => exact scanFrom_start (hsign rfl).1 (hsign rfl).2 hend rest

theorem ne_of_isAlpha {c : Char} (h : c.isAlpha = true) : (c ≠ '+' ∧ c ≠ '-') ∧ c ≠ endMark := by
  refine ⟨⟨?_, ?_⟩, ?_⟩ <;> rintro rfl <;> exact absurd h (by decide)

/-- A symbol that is no sign, or stands where no operand is due, does not begin with a sign that
belongs to an operand. -/
theorem Symbol.exists_text_eq_cons (symbol : Symbol) :
    ∃ c cs, symbol.text.toList = c :: cs ∧ c ≠ endMark ∧
      (symbol ∉ [.add, .subtract, .arrow] → c ≠ '+' ∧ c ≠ '-') := by
  cases symbol <;> exact ⟨_, _, rfl, by decide, by decide⟩

/-- **Lexemes are found.** The scanner finds the lexeme that a text begins with, and goes on with
the rest. -/
theorem Spells.scanFrom_eq {due : Bool} {lexeme : Lexeme} {text rest : List Char}
    (h : Spells due lexeme text rest) (hend : endMark ∉ text) :
    scanFrom (.between due) (text ++ (rest ++ [endMark]))
      = (scanFrom (.between lexeme.isOperator) (rest ++ [endMark])).after (some lexeme) := by
  -- All lexemes but signs are found where no operand is due.
  have htop : ∀ {c cs}, text = c :: cs → (due = true → c ≠ '+' ∧ c ≠ '-') → c ≠ endMark →
      scanFrom (.between due) (text ++ (rest ++ [endMark]))
        = scanFrom .top (text ++ (rest ++ [endMark])) := by
    rintro c cs rfl hsign hc
    exact scanFrom_between hsign hc _
  cases h with
  | sign hdue hsymbol =>
    subst hdue
    exact scanFrom_sign hsymbol _
  | @binary symbol _ hsymbol hdue hnext =>
    obtain ⟨c, cs, htext, hc, hsign⟩ := symbol.exists_text_eq_cons
    rw [htop htext (fun h => hsign (hdue h)) hc, scanFrom_binary hsymbol _ fun c hc => by
      rw [headD_append_endMark]
      exact hnext c hc]
    rfl
  | @function symbol _ hsymbol hnext =>
    obtain ⟨c, cs, htext, hc, -⟩ := symbol.exists_text_eq_of_isFunction hsymbol
    rw [htop htext (fun _ => (ne_of_isAlpha hc).1) (ne_of_isAlpha hc).2, append_endMark_eq_cons,
      scanFrom_function hsymbol hnext]
    rfl
  | reference n hnext =>
    have hc := ne_of_isAlpha n.isAlpha_first
    rw [htop rfl (fun _ => hc.1) hc.2, append_endMark_eq_cons, Name.text,
      scanFrom_reference n.isAlpha_first n.isNameChar_others n.not_function hnext]
    rfl
  | constant l hnext =>
    obtain ⟨c, cs, htext, hc⟩ := l.exists_text_eq_cons
    have hne : (c ≠ '+' ∧ c ≠ '-') ∧ c ≠ endMark := by
      refine ⟨⟨?_, ?_⟩, ?_⟩ <;> rintro rfl <;> revert hc <;> decide
    rw [htop htext (fun _ => hne.1) hne.2, append_endMark_eq_cons, l.scanFrom_text hnext]
    rfl
  | @group g _ hbalanced hne =>
    have hg : endMark ∉ g := fun hmem => hend (by simp [hmem])
    have hassoc : '(' :: g ++ [')'] ++ (rest ++ [endMark])
        = '(' :: g ++ ')' :: (rest ++ [endMark]) := by simp
    rw [htop rfl (fun _ => by decide) (by decide), hassoc,
      (hbalanced.captured hg).scanFrom_group hne]
    rfl

/-- The symbol that a character begins between tokens is the longest one. -/
theorem exists_binary_of_atOperator {c : Char} {cs : List Char} {d : Decision}
    (h : Mode.atOperator c (cs.headD endMark) = .ok d) (hc : c.isAlpha = false) :
    ∃ (symbol : Symbol) (rest : List Char), c :: cs = symbol.text.toList ++ rest ∧
      symbol.isFunction = false ∧
      ∀ d, symbol.text.toList = [d] → isPair d (rest.headD endMark) = false := by
  have hspelt : ∀ spelling move, Mode.atOperator.found c (c :: spelling) move = .ok d →
      ∃ symbol : Symbol, symbol.text.toList = c :: spelling ∧ symbol.isFunction = false := by
    intro spelling move hfound
    rw [Mode.atOperator.found] at hfound
    split at hfound
    · rename_i symbol hsymbol
      have htext : symbol.text.toList = c :: spelling := by
        rw [Symbol.text_of_ofText? hsymbol, String.toList_ofList]
      refine ⟨symbol, htext, ?_⟩
      rw [symbol.isFunction_eq_isAlpha_head, htext]
      simp [hc]
    · cases hfound
  rw [Mode.atOperator] at h
  split at h
  · rename_i hpair
    cases cs with
    | nil =>
      rw [List.headD_nil, isPair_eq_false (by decide) c] at hpair
      cases hpair
    | cons next rest =>
    obtain ⟨symbol, htext, hsymbol⟩ := hspelt _ _ h
    refine ⟨symbol, rest, by rw [htext]; rfl, hsymbol, fun d hd => ?_⟩
    rw [htext] at hd
    cases hd
  · rename_i hpair
    split at h
    · cases h
    · obtain ⟨symbol, htext, hsymbol⟩ := hspelt _ _ h
      refine ⟨symbol, cs, by rw [htext]; rfl, hsymbol, fun d hd => ?_⟩
      rw [htext] at hd
      cases hd
      simpa using hpair

/-- A text that begins with a letter begins with a name. -/
theorem exists_spells_of_isAlpha (due : Bool) {c : Char} (hc : c.isAlpha = true) (cs : List Char) :
    ∃ lexeme text rest, c :: cs = text ++ rest ∧ Spells due lexeme text rest := by
  obtain ⟨others, rest, rfl, hothers, hrest⟩ := exists_eq_append isNameChar cs
  have hnext : isNameChar (rest.headD endMark) = false := by
    cases rest with
    | nil => decide
    | cons d rest => exact hrest d rfl
  cases hname : Symbol.ofText? (String.ofList (c :: others)) with
  | none => exact ⟨_, _, rest, rfl, .reference ⟨c, others, hc, hothers, hname⟩ hnext⟩
  | some symbol =>
    have htext : symbol.text.toList = c :: others := by
      rw [Symbol.text_of_ofText? hname, String.toList_ofList]
    have hsymbol : symbol.isFunction = true := by
      rw [symbol.isFunction_eq_isAlpha_head, htext]
      simpa using hc
    exact ⟨_, _, rest, by rw [htext]; rfl, .function hsymbol hnext⟩

/-- **There is a first lexeme** where the scanner reaches the end. -/
theorem exists_spells {due : Bool} {c : Char} {cs : List Char}
    (h : (scanFrom (.between due) (c :: cs ++ [endMark])).failure = none)
    (hend : endMark ∉ c :: cs) :
    ∃ lexeme text rest, c :: cs = text ++ rest ∧ Spells due lexeme text rest := by
  obtain ⟨hc, hcs⟩ := not_or.mp (mt List.mem_cons.mpr hend)
  by_cases hsign : due = true ∧ (c = '+' ∨ c = '-')
  · obtain ⟨hdue, rfl | rfl⟩ := hsign
    · exact ⟨_, Symbol.add.text.toList, cs, rfl, .sign hdue (.inl rfl)⟩
    · exact ⟨_, Symbol.subtract.text.toList, cs, rfl, .sign hdue (.inr rfl)⟩
  have hnosign : due = true → c ≠ '+' ∧ c ≠ '-' :=
    fun hdue => not_or.mp fun hc => hsign ⟨hdue, hc⟩
  rw [List.cons_append, scanFrom_between hnosign (Ne.symm hc)] at h
  obtain ⟨d, hd, hrest⟩ := exists_decision h
  -- The cases are those of the mode between tokens, in its order.
  rw [Mode.handle, Mode.atTop, if_neg (Ne.symm hc), headD_append_endMark] at hd
  by_cases halpha : c.isAlpha = true
  · exact exists_spells_of_isAlpha due halpha cs
  rw [if_neg halpha] at hd
  by_cases hnumber : c.isDigit = true ∨ c = '.'
  · obtain ⟨l, rest, heq, hends⟩ := exists_literal hnumber h
    exact ⟨_, _, rest, heq, .constant l hends⟩
  obtain ⟨hdigit, hpoint⟩ := not_or.mp hnumber
  rw [if_neg hdigit, if_neg hpoint] at hd
  by_cases hopen : c = '('
  · subst hopen
    rw [if_pos rfl] at hd
    cases hd
    have hgroup : (scanFrom (.group (0 + 1) (String.ofList [])) (cs ++ [endMark])).failure = none :=
      hrest
    obtain ⟨g, rest, rfl, hbalanced, hne⟩ := exists_of_scanFrom_group hgroup hcs
    exact ⟨_, _, rest, by simp, .group hbalanced hne⟩
  rw [if_neg hopen] at hd
  split at hd
  · cases hd
  · split at hd
    · obtain ⟨symbol, rest, heq, hsymbol, hnext⟩ :=
        exists_binary_of_atOperator hd (by simpa using halpha)
      refine ⟨_, _, rest, heq, .binary hsymbol (fun hdue hmem => ?_) hnext⟩
      obtain ⟨hadd, hsubtract⟩ := hnosign hdue
      simp only [List.mem_cons, List.not_mem_nil, or_false] at hmem
      rcases hmem with rfl | rfl | rfl <;> cases heq
      · exact hadd rfl
      · exact hsubtract rfl
      · exact hsubtract rfl
    · cases hd

/-! ### Texts -/

theorem Spells.text_ne_nil {due : Bool} {lexeme : Lexeme} {text rest : List Char}
    (h : Spells due lexeme text rest) : text ≠ [] := by
  have hsymbol : ∀ symbol : Symbol, symbol.text.toList ≠ [] := by
    intro symbol
    obtain ⟨c, cs, htext, -⟩ := symbol.exists_text_eq_cons
    rw [htext]
    exact List.cons_ne_nil c cs
  cases h with
  | sign _ _ => exact hsymbol _
  | binary _ _ _ => exact hsymbol _
  | function _ _ => exact hsymbol _
  | reference n _ => exact List.cons_ne_nil _ _
  | constant l _ =>
    obtain ⟨c, cs, htext, -⟩ := l.exists_text_eq_cons
    rw [htext]
    exact List.cons_ne_nil c cs
  | group _ _ => simp

/-- The parentheses of a lexeme match. -/
theorem Spells.balanced {due : Bool} {lexeme : Lexeme} {text rest : List Char}
    (h : Spells due lexeme text rest) : Balanced text := by
  cases h with
  | sign _ _ => exact balanced_of_forall fun c hc => (Symbol.of_mem_text _ c hc).2
  | binary _ _ _ => exact balanced_of_forall fun c hc => (Symbol.of_mem_text _ c hc).2
  | function _ _ => exact balanced_of_forall fun c hc => (Symbol.of_mem_text _ c hc).2
  | reference n _ => exact balanced_of_forall fun c hc => (of_isLeafChar (n.isLeafChar_text c hc)).2
  | constant l _ => exact balanced_of_forall fun c hc => (of_isLeafChar (l.isLeafChar_text c hc)).2
  | group hbalanced _ => exact hbalanced.parens

theorem Lexes.balanced {due : Bool} {text : List Char} {lexemes : List Lexeme}
    (h : Lexes due text lexemes) : Balanced text := by
  induction h with
  | nil due => rfl
  | cons hspells _ ih => exact hspells.balanced.append ih

theorem Lexes.eq_nil {due : Bool} {text : List Char} {lexemes : List Lexeme}
    (h : Lexes due text lexemes) (htext : text = []) : lexemes = [] := by
  cases h with
  | nil due => rfl
  | cons hspells _ => exact absurd (List.append_eq_nil_iff.mp htext).1 hspells.text_ne_nil

/-- Each lexeme is spelt by a part of the text. -/
theorem Lexes.exists_spells_of_mem {due : Bool} {text : List Char} {lexemes : List Lexeme}
    (h : Lexes due text lexemes) {l : Lexeme} (hl : l ∈ lexemes) :
    ∃ due' part rest, Spells due' l part rest ∧ part ⊆ text := by
  induction h with
  | nil due => cases hl
  | cons hspells _ ih =>
    rcases List.mem_cons.mp hl with rfl | hl
    · exact ⟨_, _, _, hspells, List.subset_append_left _ _⟩
    · obtain ⟨due', part, rest, hspells', hpart⟩ := ih hl
      exact ⟨due', part, rest, hspells', fun c hc => List.mem_append_right _ (hpart hc)⟩

/-- The text of a group is a part of the text that it stands in. -/
theorem Lexes.subset_of_group_mem {due : Bool} {text : List Char} {lexemes : List Lexeme}
    (h : Lexes due text lexemes) {g : String} (hg : .group g ∈ lexemes) : g.toList ⊆ text := by
  obtain ⟨due', part, rest, hspells, hpart⟩ := h.exists_spells_of_mem hg
  cases hspells with
  | group _ _ =>
    rw [String.toList_ofList]
    exact fun c hc => hpart (by simp [hc])

theorem scanFrom_between_end (due : Bool) : scanFrom (.between due) [endMark] = ⟨[], none⟩ := by
  cases due with
  | false => exact scanFrom_top_end
  | true => exact scanFrom_start_end

/-- A text that is cut into lexemes is read to its end, and these are found. -/
theorem Lexes.scanFrom_eq {due : Bool} {text : List Char} {lexemes : List Lexeme}
    (h : Lexes due text lexemes) (hend : endMark ∉ text) :
    scanFrom (.between due) (text ++ [endMark]) = ⟨lexemes, none⟩ := by
  induction h with
  | nil due => exact scanFrom_between_end due
  | cons hspells _ ih =>
    rw [List.mem_append, not_or] at hend
    rw [List.append_assoc, hspells.scanFrom_eq hend.1, ih hend.2]
    rfl

/-- A text that is read to its end is cut into the lexemes that are found. -/
theorem lexes_of_scanFrom {due : Bool} {text : List Char} {lexemes : List Lexeme}
    (h : scanFrom (.between due) (text ++ [endMark]) = ⟨lexemes, none⟩) (hend : endMark ∉ text) :
    Lexes due text lexemes := by
  induction hlength : text.length using Nat.strong_induction_on generalizing due text lexemes with
  | _ n ih =>
    cases text with
    | nil =>
      rw [List.nil_append, scanFrom_between_end] at h
      cases h
      exact .nil due
    | cons c cs =>
      obtain ⟨lexeme, text, rest, heq, hspells⟩ := exists_spells (by rw [h]) hend
      rw [heq] at h hend hlength ⊢
      rw [List.mem_append, not_or] at hend
      rw [List.append_assoc, hspells.scanFrom_eq hend.1] at h
      have hshorter : rest.length < n := by
        have := List.length_pos_iff.mpr hspells.text_ne_nil
        rw [← hlength, List.length_append]
        omega
      -- What is found in the rest is what is found after the first lexeme.
      cases hscan : scanFrom (.between lexeme.isOperator) (rest ++ [endMark])
      rw [hscan] at h
      cases h
      exact .cons hspells (ih _ hshorter hscan hend.2 rfl)

theorem endMark_not_mem_visible (source : String) : endMark ∉ Text.visible source := by
  intro h
  exact absurd (Text.not_isBlank_of_mem_visible h) (by decide)

/-- **The scanner accepts texts of lexemes.** It finds lexemes in a text and reaches its end exactly
when the text, without its blanks, is cut into them. -/
theorem lexemesOf_eq_iff_lexes {source : String} {lexemes : List Lexeme} :
    lexemesOf source = ⟨lexemes, none⟩ ↔ Lexes true (Text.visible source) lexemes :=
  have hend := endMark_not_mem_visible source
  have hstart : lexemesOf source
      = scanFrom (.between true) (Text.visible source ++ [endMark]) := rfl
  ⟨fun h => lexes_of_scanFrom (hstart ▸ h) hend, fun h => hstart.trans (h.scanFrom_eq hend)⟩

end Formulary
