import Formulary.Proofs.Scanning

/-!
# Numbers as they are written

A number is written with digits, with at most one point after or among or before them, and with an
exponent or none. The point needs no digit on either side. Without a point and an exponent a number
is whole, and must not be too large to have an exact neighbour; every other number is decimal, and
its value is the binary64 number nearest to its numeral.

The scanner reads a number into its mode before it knows where the number ends, puts a zero before
a point that comes first, and takes a minus sign after the mark of the exponent along with it. What
it has read in the end is again a number as it is written, of the same value.

## Main definitions

* `Exponent`, `Literal` — a number as it is written, by its parts
* `Literal.text` — the text of these parts
* `Literal.constant` — the number that is meant

## Main results

* `Literal.scanFrom_text` — the scanner finds the number that is meant
-/

namespace Formulary

/-- An exponent as it is written: its mark, whether a minus sign follows, and its digits. -/
structure Exponent where
  mark : Char
  negative : Bool
  digits : List Char
  mark_eq : mark = 'e' ∨ mark = 'E'
  isDigit : ∀ c ∈ digits, c.isDigit = true
  ne_nil : digits ≠ []

namespace Exponent

/-- The text of an exponent. -/
def text (e : Exponent) : List Char := e.mark :: ((if e.negative then ['-'] else []) ++ e.digits)

/-- The power of ten that is meant. -/
def value (e : Exponent) : Int :=
  if e.negative then -(Decimal.digitsValue e.digits : Int) else Decimal.digitsValue e.digits

end Exponent

/-- A number as it is written: the digits before its point, those after the point if there is one,
and its exponent if there is one. A number without any digit before the point has a point, and a
whole number is not too large. -/
structure Literal where
  whole : List Char
  fraction : Option (List Char)
  exponent : Option Exponent
  isDigit_whole : ∀ c ∈ whole, c.isDigit = true
  isDigit_fraction : ∀ digits ∈ fraction, ∀ c ∈ digits, c.isDigit = true
  starts : whole ≠ [] ∨ fraction.isSome = true
  fits : fraction = none → exponent = none → Decimal.digitsValue whole ≤ largestWhole

namespace Literal

/-- The text of a number. -/
def text (l : Literal) : List Char :=
  l.whole ++ (l.fraction.elim [] ('.' :: ·) ++ l.exponent.elim [] Exponent.text)

/-- The text of a number without its exponent. -/
def mantissa (l : Literal) : List Char := l.whole ++ l.fraction.elim [] ('.' :: ·)

theorem text_eq_mantissa_append (l : Literal) :
    l.text = l.mantissa ++ l.exponent.elim [] Exponent.text := by
  rw [text, mantissa, List.append_assoc]

/-- The numeral of a number. -/
def numeral (l : Literal) : Decimal.Numeral :=
  ⟨l.whole, l.fraction.getD [], l.exponent.elim 0 Exponent.value⟩

/-- The number that is meant. -/
def constant (l : Literal) : Constant :=
  if l.fraction.isNone && l.exponent.isNone then .whole (Decimal.digitsValue l.whole)
  else .decimal l.numeral.toFloat

end Literal

/-! ### Reading the parts -/

/-- A number begins with a digit or with a point, before its exponent. -/
theorem Literal.exists_mantissa_eq_cons (l : Literal) :
    ∃ c cs, l.mantissa = c :: cs ∧ (c.isDigit = true ∨ c = '.') := by
  cases hwhole : l.whole with
  | cons d digits =>
    exact ⟨d, _, by rw [mantissa, hwhole]; rfl, .inl (l.isDigit_whole d (by simp [hwhole]))⟩
  | nil =>
    obtain ⟨digits, hfraction⟩ :=
      Option.isSome_iff_exists.mp (l.starts.resolve_left (by simp [hwhole]))
    exact ⟨'.', _, by rw [mantissa, hwhole, hfraction]; rfl, .inr rfl⟩

theorem Literal.exists_text_eq_cons (l : Literal) :
    ∃ c cs, l.text = c :: cs ∧ (c.isDigit = true ∨ c = '.') := by
  obtain ⟨c, cs, hmantissa, hc⟩ := l.exists_mantissa_eq_cons
  exact ⟨c, _, by rw [text_eq_mantissa_append, hmantissa]; rfl, hc⟩

/-- A digit is none of the other characters that numbers are read by. -/
theorem ne_of_isDigit {c : Char} (h : c.isDigit = true) :
    c ≠ '.' ∧ c ≠ 'e' ∧ c ≠ 'E' ∧ c ≠ '-' ∧ c ≠ '+' := by
  refine ⟨?_, ?_, ?_, ?_, ?_⟩ <;> rintro rfl <;> exact absurd h (by decide)

/-- The code points of letters. -/
theorem toNat_of_isAlpha {c : Char} (h : c.isAlpha = true) :
    (65 ≤ c.toNat ∧ c.toNat ≤ 90) ∨ (97 ≤ c.toNat ∧ c.toNat ≤ 122) := by
  have hletter : (c.isUpper || c.isLower) = true := h
  rcases (Bool.or_eq_true _ _).mp hletter with hupper | hlower
  · exact .inl (of_decide_eq_true hupper)
  · obtain ⟨ha, hz⟩ := (Bool.and_eq_true _ _).mp hlower
    exact .inr ⟨of_decide_eq_true ha, of_decide_eq_true hz⟩

theorem not_isAlpha_of_isDigit {c : Char} (h : c.isDigit = true) : ¬ c.isAlpha = true := by
  intro halpha
  have hdigit := (Char.isDigit_iff_toNat.mp h).2
  have h9 : '9'.toNat = 57 := rfl
  have hletter := toNat_of_isAlpha halpha
  omega

/-- Characters of one sort end where the first one of another sort stands. -/
theorem takeWhile_dropWhile_append {good : Char → Bool} {cs : List Char}
    (h : ∀ c ∈ cs, good c = true) {rest : List Char} (hrest : ∀ c ∈ rest.head?, good c = false) :
    (cs ++ rest).takeWhile good = cs ∧ (cs ++ rest).dropWhile good = rest := by
  rw [List.takeWhile_append_of_pos h, List.dropWhile_append_of_pos h]
  cases rest with
  | nil => simp
  | cons c rest => simp [hrest c rfl]

/-- What is of one sort ends at something of another sort, whatever comes after it. -/
theorem takeWhile_dropWhile_append_cons {α : Type} (good : α → Bool) {a : α} (ha : good a = false)
    (l rest : List α) : (l ++ a :: rest).takeWhile good = l.takeWhile good ∧
      (l ++ a :: rest).dropWhile good = l.dropWhile good ++ a :: rest := by
  induction l with
  | nil => simp [ha]
  | cons b l ih => cases hb : good b <;> simp [hb, ih.1, ih.2]

/-- The text of an exponent is read as its value. -/
theorem Exponent.readExponent?_text (e : Exponent) :
    Decimal.Numeral.readExponent? e.text = some e.value := by
  have hdigits : (!e.digits.isEmpty && e.digits.all Char.isDigit) = true := by
    simpa [e.ne_nil] using e.isDigit
  cases hnegative : e.negative with
  | true =>
    have htext : e.text = e.mark :: '-' :: e.digits := by simp [text, hnegative]
    rw [htext]
    unfold Decimal.Numeral.readExponent?
    simp only [if_pos e.mark_eq, hdigits, if_true, value, hnegative]
  | false =>
    obtain ⟨d, digits, heq⟩ := List.exists_cons_of_ne_nil e.ne_nil
    obtain ⟨-, -, -, hminus, hplus⟩ := ne_of_isDigit (e.isDigit d (by simp [heq]))
    have htext : e.text = e.mark :: d :: digits := by simp [text, hnegative, heq]
    rw [htext]
    unfold Decimal.Numeral.readExponent?
    dsimp only
    rw [if_pos e.mark_eq]
    split
    · rename_i h
      cases h
      exact absurd rfl hminus
    · rename_i h
      cases h
      exact absurd rfl hplus
    · rw [← heq, if_pos hdigits]
      simp [value, hnegative]

theorem Exponent.isDigit_head?_text (e : Exponent) : ∀ c ∈ e.text.head?, c.isDigit = false := by
  rintro c ⟨⟩
  rcases e.mark_eq with h | h <;> rw [h] <;> rfl

namespace Literal

/-- The text after the digits of a number, which the exponent is read from. -/
theorem readExponent?_tail (l : Literal) :
    Decimal.Numeral.readExponent? (l.exponent.elim [] Exponent.text)
      = some (l.exponent.elim 0 Exponent.value) := by
  cases l.exponent with
  | none => rfl
  | some e => exact e.readExponent?_text

theorem isDigit_head?_tail (l : Literal) :
    ∀ c ∈ (l.exponent.elim [] Exponent.text).head?, c.isDigit = false := by
  cases l.exponent with
  | none => rintro c ⟨⟩
  | some e => exact e.isDigit_head?_text

theorem head?_tail_ne_point (l : Literal) {more : List Char} :
    (l.exponent.elim [] Exponent.text).head? ≠ ('.' :: more).head? := by
  cases l.exponent with
  | none => simp
  | some e => rcases e.mark_eq with h | h <;> simp [Exponent.text, h]

/-- The text of a number that begins with a digit is read as its numeral. -/
theorem read?_text (l : Literal) (h : l.whole ≠ []) :
    Decimal.Numeral.read? l.text = some l.numeral := by
  cases hfraction : l.fraction with
  | none =>
    obtain ⟨htake, hdrop⟩ := takeWhile_dropWhile_append l.isDigit_whole l.isDigit_head?_tail
    have htext : l.text = l.whole ++ l.exponent.elim [] Exponent.text := by
      simp [text, hfraction]
    rw [Decimal.Numeral.read?, htext, htake, hdrop]
    dsimp only
    split
    · -- The mark of an exponent is no point.
      rename_i more hmore
      exact absurd (congrArg List.head? hmore) l.head?_tail_ne_point
    · simp [readExponent?_tail, h, numeral, hfraction]
  | some digits =>
    have hpoint : ∀ c ∈ ('.' :: (digits ++ l.exponent.elim [] Exponent.text)).head?,
        c.isDigit = false := by
      rintro c ⟨⟩
      rfl
    obtain ⟨htake, hdrop⟩ := takeWhile_dropWhile_append l.isDigit_whole hpoint
    obtain ⟨htake', hdrop'⟩ :=
      takeWhile_dropWhile_append (l.isDigit_fraction digits hfraction) l.isDigit_head?_tail
    have htext : l.text = l.whole ++ '.' :: (digits ++ l.exponent.elim [] Exponent.text) := by
      simp [text, hfraction]
    rw [Decimal.Numeral.read?, htext, htake, hdrop]
    simp [htake', hdrop', readExponent?_tail, h, numeral, hfraction]

/-! ### The number that is meant -/

/-- The number as it is read: a zero is put before a point that comes first. -/
def padded (l : Literal) : Literal :=
  if h : l.whole = [] then
    { l with
      whole := ['0']
      isDigit_whole := by simp
      starts := .inl (by simp)
      fits := fun hfraction _ => by
        rcases l.starts with hw | hf
        · exact absurd h hw
        · simp [hfraction] at hf }
  else l

theorem padded_of_ne_nil {l : Literal} (h : l.whole ≠ []) : l.padded = l := by
  simp [padded, h]

theorem whole_padded_ne_nil (l : Literal) : l.padded.whole ≠ [] := by
  unfold padded
  split
  · simp
  · assumption

/-- A leading zero changes nothing. -/
theorem constant_padded (l : Literal) : l.padded.constant = l.constant := by
  by_cases h : l.whole = []
  · have hfraction : l.fraction.isNone = false := by
      rcases l.starts with hw | hf
      · exact absurd h hw
      · cases hl : l.fraction <;> simp_all
    simp [padded, h, constant, hfraction, numeral, Decimal.Numeral.toFloat,
      Decimal.Numeral.magnitude, Decimal.Numeral.significant]
  · rw [padded_of_ne_nil h]

theorem toLower_of_isDigit {d : Char} (hd : d.isDigit = true) : d.toLower = d := by
  show dite _ _ _ = d
  rw [dif_neg]
  rw [Char.isDigit_iff_toNat] at hd
  have h9 : '9'.toNat < 'A'.toNat := by decide
  rintro ⟨hA, -⟩
  have : 'A'.toNat ≤ d.toNat := hA
  omega

/-- A text that begins with a digit is read as a numeral, not as a name. -/
theorem read?_of_isDigit_head {d : Char} (hd : d.isDigit = true) (rest : List Char) :
    Decimal.read? (d :: rest)
      = (Decimal.Numeral.read? (d :: rest)).map Decimal.Numeral.toFloat := by
  obtain ⟨-, -, -, hminus, hplus⟩ := ne_of_isDigit hd
  have hname : ∀ {c : Char} {name : List Char}, c.isDigit = false →
      ¬ (d :: rest).map Char.toLower = c :: name := by
    intro c name hc h
    rw [List.map_cons, toLower_of_isDigit hd, List.cons.injEq] at h
    rw [h.1, hc] at hd
    cases hd
  have hunsigned : Decimal.readUnsigned? (d :: rest)
      = (Decimal.Numeral.read? (d :: rest)).map Decimal.Numeral.toFloat := by
    rw [Decimal.readUnsigned?]
    rw [if_neg, if_neg]
    · simpa using hname (by decide)
    · rw [Bool.or_eq_true, decide_eq_true_eq, decide_eq_true_eq]
      rintro (h | h) <;> exact hname (by decide) h
  unfold Decimal.read?
  split
  · rename_i h
    cases h
    exact absurd rfl hminus
  · rename_i h
    cases h
    exact absurd rfl hplus
  · exact hunsigned

/-- A number that is not whole has a point or a mark in its text. -/
theorem exists_mark_mem_text {l : Literal} (h : l.fraction = none → l.exponent ≠ none) :
    ∃ c ∈ l.text, (c == '.' || c == 'e' || c == 'E') = true := by
  cases hfraction : l.fraction with
  | some digits => exact ⟨'.', by simp [text, hfraction], rfl⟩
  | none =>
    cases hexponent : l.exponent with
    | none => exact absurd hexponent (h hfraction)
    | some e =>
      refine ⟨e.mark, by simp [text, hexponent, Exponent.text], ?_⟩
      rcases e.mark_eq with hmark | hmark <;> rw [hmark] <;> rfl

/-- A number that begins with a digit is read as the number of its numeral. -/
theorem decimalRead?_text {l : Literal} (h : l.whole ≠ []) :
    Decimal.read? l.text = some l.numeral.toFloat := by
  obtain ⟨d, digits, hd⟩ := List.exists_cons_of_ne_nil h
  have htext : ∃ rest, l.text = d :: rest := ⟨_, by rw [text, hd]; rfl⟩
  obtain ⟨rest, htext⟩ := htext
  have hdigit : d.isDigit = true := l.isDigit_whole d (by simp [hd])
  rw [htext, read?_of_isDigit_head hdigit, ← htext, l.read?_text h]
  rfl

/-- **Literals are numbers.** A number as it is written stands for the number that is meant. -/
theorem ofLiteral_text {l : Literal} (h : l.whole ≠ []) :
    Constant.ofLiteral (String.ofList l.text) = .ok l.constant := by
  have hwhole : (l.whole.any fun c => c == '.' || c == 'e' || c == 'E') = false := by
    rw [List.any_eq_false]
    intro c hc
    obtain ⟨hpoint, he, hE, -⟩ := ne_of_isDigit (l.isDigit_whole c hc)
    simp [hpoint, he, hE]
  rw [Constant.ofLiteral, String.toList_ofList]
  by_cases hparts : (l.fraction.isNone && l.exponent.isNone) = true
  · simp only [Bool.and_eq_true, Option.isNone_iff_eq_none] at hparts
    have htext : l.text = l.whole := by simp [text, hparts]
    rw [htext, if_neg (by simp [hwhole])]
    simp [l.fits hparts.1 hparts.2, constant, hparts]
  · have hmarked : (l.text.any fun c => c == '.' || c == 'e' || c == 'E') = true :=
      List.any_eq_true.mpr (exists_mark_mem_text (by simpa using hparts))
    rw [if_pos hmarked, decimalRead?_text h]
    simp [constant, hparts]

end Literal

/-! ### Scanning -/

/-- The mode for the digits of a number, before its point or after it. -/
def Mode.digits (afterPoint : Bool) (read : String) : Mode :=
  if afterPoint then .decimal read else .number read

theorem Mode.handle_digits (afterPoint : Bool) (read : String) (c next : Char) :
    (Mode.digits afterPoint read).handle c next = Mode.inDigits afterPoint read c next := by
  cases afterPoint <;> rfl

/-- A digit begins a number. -/
theorem Mode.handle_top_of_isDigit {d : Char} (h : d.isDigit = true) (next : Char) :
    Mode.top.handle d next = .ok ⟨.digits false (String.ofList [d]), none, .one⟩ := by
  have hend : d ≠ endMark := by
    rintro rfl
    exact absurd h (by decide)
  rw [Mode.handle, Mode.atTop, if_neg hend, if_neg (not_isAlpha_of_isDigit h), if_pos h,
    String.singleton_eq_ofList]
  rfl

/-- A point begins a number, and a zero is put before it. -/
theorem Mode.handle_top_point (next : Char) :
    Mode.top.handle '.' next = .ok ⟨.digits true (String.ofList ['0', '.']), none, .one⟩ := by
  rw [handle, atTop, if_neg (by decide), if_neg (by decide), if_neg (by decide), if_pos rfl]
  rfl

/-- A point in a number begins the digits after it. -/
theorem Mode.handle_digits_point (read : List Char) (next : Char) :
    (Mode.digits false (String.ofList read)).handle '.' next
      = .ok ⟨.digits true (String.ofList (read ++ ['.'])), none, .one⟩ := by
  rw [Mode.handle_digits, Mode.inDigits, if_neg (by decide), if_pos ⟨rfl, rfl⟩, push_ofList]
  rfl

/-- What is true of the mark at the end and of each character that begins an operator or is a
parenthesis is true of the characters that end numbers. -/
theorem of_isTerminator (good : Char → Bool) (hall : " +-*/=!()<>".toList.all good = true)
    {c : Char} (h : isTerminator c = true) : good c = true := by
  have hmem : c ∈ " +-*/=!()<>".toList := by
    simpa [isTerminator, isOperatorChar, endMark] using h
  exact List.all_eq_true.mp hall c hmem

/-- A character that ends a number is none that a number goes on with. -/
theorem ne_of_isTerminator {c : Char} (h : isTerminator c = true) :
    c.isDigit = false ∧ c ≠ '.' ∧ c ≠ 'e' ∧ c ≠ 'E' := by
  have hc := of_isTerminator (fun d => !d.isDigit && d != '.' && d != 'e' && d != 'E')
    (by decide) h
  simpa [and_assoc] using hc

/-- At a character that ends numbers, the digits of a number end. -/
theorem Mode.inDigits_of_isTerminator {c : Char} (hc : isTerminator c = true) (afterPoint : Bool)
    (read : String) (next : Char) : inDigits afterPoint read c next = endNumber read := by
  obtain ⟨hdigit, hpoint, he, hE⟩ := ne_of_isTerminator hc
  rw [inDigits, if_neg (by simp [hdigit]), if_neg (by simp [hpoint]), if_neg (by simp [he, hE]),
    if_pos hc]

/-- The digits of a number are read into it. -/
theorem scanFrom_digits_append (afterPoint : Bool) (read : List Char) {digits : List Char}
    (h : ∀ c ∈ digits, c.isDigit = true) (rest : List Char) :
    scanFrom (.digits afterPoint (String.ofList read)) (digits ++ rest)
      = scanFrom (.digits afterPoint (String.ofList (read ++ digits))) rest := by
  refine scanFrom_append_of_goOn (fun read c next hc => ?_) read h rest
  rw [Mode.handle_digits, Mode.inDigits, if_pos hc]
  cases afterPoint <;> rfl

/-- After digits, the mark of an exponent is read with the minus sign after it, if there is one. -/
theorem Mode.handle_digits_mark (afterPoint : Bool) (read : List Char) {c : Char}
    (hc : c = 'e' ∨ c = 'E') (next : Char) :
    (Mode.digits afterPoint (String.ofList read)).handle c next =
      if next = '-' then .ok ⟨.exponent (String.ofList (read ++ [c, '-'])), none, .two⟩
      else .ok ⟨.exponent (String.ofList (read ++ [c])), none, .one⟩ := by
  have hdigit : ¬ c.isDigit = true := by
    rcases hc with rfl | rfl <;> decide
  have hpoint : ¬ (c = '.' ∧ afterPoint = false) := by
    rcases hc with rfl | rfl <;> simp
  rw [Mode.handle_digits, Mode.inDigits, if_neg hdigit, if_neg hpoint, if_pos hc, push_ofList,
    push_ofList, List.append_assoc]
  rfl

theorem scanFrom_exponent_digits (read : List Char) {digits : List Char}
    (h : ∀ c ∈ digits, c.isDigit = true) (rest : List Char) :
    scanFrom (.exponent (String.ofList read)) (digits ++ rest)
      = scanFrom (.exponent (String.ofList (read ++ digits))) rest := by
  refine scanFrom_append_of_goOn (fun read c next hc => ?_) read h rest
  rw [Mode.handle, Mode.inExponent, if_pos hc]
  rfl

/-- The mark of an exponent is read with the sign after it, and then its digits. -/
theorem scanFrom_digits_exponent (afterPoint : Bool) (read : List Char) (e : Exponent)
    (rest : List Char) :
    scanFrom (.digits afterPoint (String.ofList read)) (e.text ++ rest)
      = scanFrom (.exponent (String.ofList (read ++ e.text))) rest := by
  have hmark := Mode.handle_digits_mark afterPoint read e.mark_eq
  cases hnegative : e.negative with
  | true =>
    calc scanFrom (.digits afterPoint (String.ofList read)) (e.text ++ rest)
        = scanFrom (.digits afterPoint (String.ofList read))
            (e.mark :: '-' :: (e.digits ++ rest)) := by simp [Exponent.text, hnegative]
      _ = scanFrom (.exponent (String.ofList (read ++ [e.mark, '-']))) (e.digits ++ rest) := by
          rw [scanFrom_cons_of_ok ((hmark _).trans (if_pos rfl))]
          rfl
      _ = scanFrom (.exponent (String.ofList (read ++ [e.mark, '-'] ++ e.digits))) rest :=
          scanFrom_exponent_digits _ e.isDigit rest
      _ = scanFrom (.exponent (String.ofList (read ++ e.text))) rest := by
          simp [Exponent.text, hnegative]
  | false =>
    obtain ⟨d, digits, heq⟩ := List.exists_cons_of_ne_nil e.ne_nil
    obtain ⟨-, -, -, hminus, -⟩ := ne_of_isDigit (e.isDigit d (by simp [heq]))
    have hnext : ¬ (e.digits ++ rest).headD endMark = '-' := by
      simpa [heq] using hminus
    calc scanFrom (.digits afterPoint (String.ofList read)) (e.text ++ rest)
        = scanFrom (.digits afterPoint (String.ofList read)) (e.mark :: (e.digits ++ rest)) := by
          simp [Exponent.text, hnegative]
      _ = scanFrom (.exponent (String.ofList (read ++ [e.mark]))) (e.digits ++ rest) :=
          scanFrom_cons_of_goOn ((hmark _).trans (if_neg hnext))
      _ = scanFrom (.exponent (String.ofList (read ++ [e.mark] ++ e.digits))) rest :=
          scanFrom_exponent_digits _ e.isDigit rest
      _ = scanFrom (.exponent (String.ofList (read ++ e.text))) rest := by
          simp [Exponent.text, hnegative]

/-- An exponent ends with its last digit. -/
theorem Exponent.getLast?_append_text (e : Exponent) (read : List Char) :
    (read ++ e.text).getLast? = some (e.digits.getLast e.ne_nil) := by
  have htext : read ++ e.text
      = (read ++ e.mark :: if e.negative then ['-'] else []) ++ e.digits := by simp [text]
  rw [htext, List.getLast?_append, List.getLast?_eq_some_getLast e.ne_nil, Option.some_or]

/-- A number has ended when its mode ends it. -/
theorem scanFrom_of_endNumber {mode : Mode} {read : String} {c : Constant}
    (hread : Constant.ofLiteral read = .ok c) {next : Char} {rest : List Char}
    (h : mode.handle next (rest.headD endMark) = Mode.endNumber read) :
    scanFrom mode (next :: rest) = (scanFrom .top (next :: rest)).after (some (.constant c)) := by
  have hstep : mode.handle next (rest.headD endMark) = .ok ⟨.top, some (.constant c), .again⟩ := by
    rw [h, Mode.endNumber, hread]
  rw [scanFrom_cons_of_ok hstep, Move.rest]

namespace Literal

/-- A zero may be put before a point that comes first. -/
theorem scanFrom_text_eq_padded (l : Literal) (rest : List Char) :
    scanFrom .top (l.text ++ rest) = scanFrom .top (l.padded.text ++ rest) := by
  by_cases h : l.whole = []
  · obtain ⟨digits, hfraction⟩ : ∃ digits, l.fraction = some digits :=
      Option.isSome_iff_exists.mp (l.starts.resolve_left (not_not_intro h))
    have hpoint : ∀ more, scanFrom .top ('.' :: more) = scanFrom .top ('0' :: '.' :: more) := by
      intro more
      have hzero : '0'.isDigit = true := rfl
      rw [scanFrom_cons_of_goOn (Mode.handle_top_of_isDigit hzero _),
        scanFrom_cons_of_goOn (Mode.handle_digits_point _ _),
        scanFrom_cons_of_goOn (Mode.handle_top_point _)]
      rfl
    simp [text, padded, h, hfraction, hpoint]
  · rw [padded_of_ne_nil h]

/-- Its digits and its point are read into a number that begins with a digit. -/
theorem scanFrom_text_append (l : Literal) (h : l.whole ≠ []) (rest : List Char) :
    scanFrom .top (l.whole ++ l.fraction.elim [] ('.' :: ·) ++ rest)
      = scanFrom (.digits l.fraction.isSome
          (String.ofList (l.whole ++ l.fraction.elim [] ('.' :: ·)))) rest := by
  obtain ⟨d, digits, heq⟩ := List.exists_cons_of_ne_nil h
  have hwhole : ∀ rest, scanFrom .top (l.whole ++ rest)
      = scanFrom (.digits false (String.ofList l.whole)) rest := by
    intro rest
    have hd : d.isDigit = true := l.isDigit_whole d (by simp [heq])
    rw [heq, List.cons_append, scanFrom_cons_of_goOn (Mode.handle_top_of_isDigit hd _),
      scanFrom_digits_append false [d] fun c hc => l.isDigit_whole c (by simp [heq, hc])]
    rfl
  cases hfraction : l.fraction with
  | none => simpa using hwhole rest
  | some digits =>
    calc scanFrom .top (l.whole ++ '.' :: digits ++ rest)
        = scanFrom .top (l.whole ++ '.' :: (digits ++ rest)) := by simp
      _ = scanFrom (.digits false (String.ofList l.whole)) ('.' :: (digits ++ rest)) := hwhole _
      _ = scanFrom (.digits true (String.ofList (l.whole ++ ['.']))) (digits ++ rest) :=
          scanFrom_cons_of_goOn (Mode.handle_digits_point _ _)
      _ = scanFrom (.digits true (String.ofList (l.whole ++ ['.'] ++ digits))) rest :=
          scanFrom_digits_append true _ (l.isDigit_fraction digits hfraction) _
      _ = scanFrom (.digits true (String.ofList (l.whole ++ '.' :: digits))) rest := by simp

/-- **Numbers are found.** Between tokens a number as it is written is found as the number that is
meant, if a character follows that ends it. -/
theorem scanFrom_text (l : Literal) {next : Char} (hnext : isTerminator next = true)
    (rest : List Char) :
    scanFrom .top (l.text ++ next :: rest)
      = (scanFrom .top (next :: rest)).after (some (.constant l.constant)) := by
  have hdigit := (ne_of_isTerminator hnext).1
  have h := l.whole_padded_ne_nil
  have hread := ofLiteral_text h
  rw [l.scanFrom_text_eq_padded, ← l.constant_padded]
  cases hexponent : l.padded.exponent with
  | none =>
    have htext : l.padded.text = l.padded.whole ++ l.padded.fraction.elim [] ('.' :: ·) := by
      simp [text, hexponent]
    rw [htext] at hread ⊢
    rw [scanFrom_text_append _ h]
    refine scanFrom_of_endNumber hread ?_
    rw [Mode.handle_digits, Mode.inDigits_of_isTerminator hnext]
  | some e =>
    have htext : l.padded.text
        = l.padded.whole ++ l.padded.fraction.elim [] ('.' :: ·) ++ e.text := by
      simp [text, hexponent]
    rw [htext] at hread ⊢
    rw [List.append_assoc _ e.text, scanFrom_text_append _ h, scanFrom_digits_exponent]
    refine scanFrom_of_endNumber hread ?_
    have hlast : (e.digits.getLast e.ne_nil).isDigit = true :=
      e.isDigit _ (List.getLast_mem e.ne_nil)
    rw [Mode.handle, Mode.inExponent, if_neg (by simp [hdigit]), String.toList_ofList,
      e.getLast?_append_text, if_pos ⟨hnext, hlast⟩]

end Literal

end Formulary
