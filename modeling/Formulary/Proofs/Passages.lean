import Formulary.Proofs.Lexing

/-!
# Where the scanner stands

A scanner that reads a text passes through modes, each with what is then left of the text. Whatever
it passes through, it stands at one place of the text: before it are tokens that have been found,
whose parentheses match, and then the part of the next token that its mode has taken in; after it is
the rest. What a mode has taken in is told by the mode alone, for a number up to the zero that is
put before a point that comes first.

So what the scanner finds, or what stops it, can be told from the text around the place where it
stands.

## Main definitions

* `Passes` — the modes that the scanner passes through
* `Mode.Holds` — the part of a token that a mode has taken in
* `Decides` — what can be decided at a character, told by what has been taken in
* `Stands` — the place of the text where the scanner stands

## Main results

* `Passes.exists_of_failure`, `Passes.exists_of_mem` — what stops the scanner, and what it finds,
  comes of a decision on the way
* `Mode.Holds.decides` — each decision is told by what has been taken in
* `Stands.step` — a decision leads from place to place
* `Passes.exists_stands` — the scanner always stands at a place of the text
-/

namespace Formulary

/-! ### Passing through modes -/

/-- The scanner passes through a mode with so much left of a text. -/
inductive Passes (text : List Char) : Mode → List Char → Prop where
  | start : Passes text .start text
  | step {mode : Mode} {c : Char} {rest : List Char} {d : Decision}
      (h : Passes text mode (c :: rest)) (hd : mode.handle c (rest.headD endMark) = .ok d) :
      Passes text d.mode (d.move.rest c rest)

/-- What stops the scanner is a decision that fails on the way, or the mode at the end. -/
theorem Passes.exists_of_failure {text rest : List Char} {mode : Mode} {e : ParseError}
    (h : Passes text mode rest) (he : (scanFrom mode rest).failure = some e) :
    (∃ mode c rest, Passes text mode (c :: rest) ∧
        mode.handle c (rest.headD endMark) = .error e) ∨
      ∃ mode, Passes text mode [] ∧ mode.unfinished? = some e := by
  fun_induction scanFrom mode rest with
  | case1 mode => exact .inr ⟨mode, h, he⟩
  | case2 mode c rest e' hd =>
    cases he
    exact .inl ⟨mode, c, rest, h, hd⟩
  | case3 mode c rest d hd ih => exact ih (.step h hd) he

/-- What the scanner finds is found by a decision on the way. -/
theorem Passes.exists_of_mem {text rest : List Char} {mode : Mode} {l : Lexeme}
    (h : Passes text mode rest) (hl : l ∈ (scanFrom mode rest).lexemes) :
    ∃ mode c rest d, Passes text mode (c :: rest) ∧
      mode.handle c (rest.headD endMark) = .ok d ∧ d.found = some l := by
  fun_induction scanFrom mode rest with
  | case1 mode => cases hl
  | case2 mode c rest e hd => cases hl
  | case3 mode c rest d hd ih =>
    rw [Scan.lexemes_after, List.mem_append, Option.mem_toList] at hl
    rcases hl with hl | hl
    · exact ⟨mode, c, rest, d, h, hd, hl⟩
    · exact ih (.step h hd) hl

/-! ### What a mode has taken in -/

/-- The digits of a number before its exponent, as they are written and as they are read: a zero is
put before a point that comes first. -/
inductive ReadsAs : (written read : List Char) → Prop where
  | whole {digits : List Char} (hne : digits ≠ []) (hdigits : ∀ c ∈ digits, c.isDigit = true) :
      ReadsAs digits digits
  | decimal {whole fraction : List Char} (hwhole : ∀ c ∈ whole, c.isDigit = true)
      (hfraction : ∀ c ∈ fraction, c.isDigit = true) :
      ReadsAs (whole ++ '.' :: fraction)
        ((if whole = [] then ['0'] else whole) ++ '.' :: fraction)

/-- What a mode has taken in of the token that it is in the middle of. -/
inductive Mode.Holds : Mode → List Char → Prop where
  | start : Holds .start []
  | top : Holds .top []
  | name {read : List Char} (h : ∀ c ∈ read, isNameChar c = true) :
      Holds (.name (String.ofList read)) read
  | number {digits : List Char} (hne : digits ≠ []) (hdigits : ∀ c ∈ digits, c.isDigit = true) :
      Holds (.number (String.ofList digits)) digits
  | decimal (whole fraction : List Char) (hwhole : ∀ c ∈ whole, c.isDigit = true)
      (hfraction : ∀ c ∈ fraction, c.isDigit = true) :
      Holds (.decimal (String.ofList ((if whole = [] then ['0'] else whole) ++ '.' :: fraction)))
        (whole ++ '.' :: fraction)
  | exponent {written read : List Char} {mark : Char} (sign digits : List Char)
      (hread : ReadsAs written read) (hmark : mark = 'e' ∨ mark = 'E')
      (hsign : sign = [] ∨ sign = ['-']) (hdigits : ∀ c ∈ digits, c.isDigit = true) :
      Holds (.exponent (String.ofList (read ++ mark :: (sign ++ digits))))
        (written ++ mark :: (sign ++ digits))
  | group {depth : Nat} (read : List Char) (h : openAfter? 0 read = some depth) :
      Holds (.group (depth + 1) (String.ofList read)) ('(' :: read)

/-- The characters that are done with after a move. -/
def Move.taken (c next : Char) : Move → List Char
  | again => []
  | one => [c]
  | two => [c, next]

/-- Whether a text ends in an exponent without digits: after a digit or a point come the mark of the
exponent and no more than a minus sign. -/
def EndsInMark (text : List Char) : Prop :=
  ∃ before c mark sign, text = before ++ c :: mark :: sign ∧ (c.isDigit = true ∨ c = '.') ∧
    (mark = 'e' ∨ mark = 'E') ∧ (sign = [] ∨ sign = ['-'])

/-- What can be decided at a character, `written` having been taken in. -/
inductive Decides (written : List Char) (c next : Char) : Except ParseError Decision → Prop where
  /-- The token goes on with what is done with. -/
  | goesOn {d : Decision} (hend : endMark ∉ d.move.taken c next)
      (hholds : d.mode.Holds (written ++ d.move.taken c next)) : Decides written c next (.ok d)
  /-- The token ends with what is done with, and not among digits. -/
  | ends {d : Decision} (hend : endMark ∉ d.move.taken c next) (hholds : d.mode.Holds [])
      (hbalanced : Balanced (written ++ d.move.taken c next))
      (hparted : (d.move = .again ∧ c.isDigit = false) ∨
        ∃ last ∈ (written ++ d.move.taken c next).getLast?, last.isDigit = false) :
      Decides written c next (.ok d)
  /-- The mark at the end is passed over. -/
  | waits {d : Decision} (hc : c = endMark) (hmove : d.move = .one)
      (hholds : d.mode.Holds written) : Decides written c next (.ok d)
  /-- The character of the text belongs to no token. -/
  | unexpected {phase : Phase} (hphase : phase ∈ [.top, .number, .decimal, .exponent])
      (hc : c ≠ endMark) : Decides written c next (.error (.unexpected c phase))
  /-- The text ends in an exponent without digits. -/
  | unended (hc : c = endMark) (h : EndsInMark written) :
      Decides written c next (.error (.unexpected c .exponent))
  /-- A group ends that has nothing in it. -/
  | emptyGroup (hc : c = ')') (hwritten : written = ['(']) :
      Decides written c next (.error .emptyGroup)
  /-- A whole number ends that is too large. -/
  | tooLarge (hc : c.isDigit = false) (hne : written ≠ [])
      (hdigits : ∀ d ∈ written, d.isDigit = true)
      (hlarge : largestWhole < Decimal.digitsValue written) :
      Decides written c next (.error (.tooLarge (String.ofList written)))

/-! ### One decision -/

namespace Decides

variable {written : List Char} {c next : Char} {mode : Mode} {found : Option Lexeme}

theorem of_one (hc : c ≠ endMark) (h : mode.Holds (written ++ [c])) :
    Decides written c next (.ok ⟨mode, found, .one⟩) :=
  .goesOn (fun hmem => hc (List.mem_singleton.mp hmem).symm) h

/-- A token without parentheses ends before a character that is no digit. -/
theorem of_again (hc : c.isDigit = false) (hwritten : ∀ d ∈ written, isLeafChar d = true)
    (h : mode.Holds []) : Decides written c next (.ok ⟨mode, found, .again⟩) := by
  refine .ends List.not_mem_nil h ?_ (.inl ⟨rfl, hc⟩)
  rw [Move.taken, List.append_nil]
  exact balanced_of_forall fun d hd => (of_isLeafChar (hwritten d hd)).2

end Decides

theorem ne_endMark_of_isDigit {c : Char} (h : c.isDigit = true) : c ≠ endMark := by
  rintro rfl
  exact absurd h (by decide)

theorem ne_endMark_of_not_isTerminator {c : Char} (h : ¬ isTerminator c = true) : c ≠ endMark := by
  rintro rfl
  exact h rfl

/-- The characters of an operator are a token. -/
theorem Decides.of_operator {c next : Char} {mode : Mode} {found : Option Lexeme} {move : Move}
    (hmove : move ≠ .again)
    (htaken : ∀ d ∈ move.taken c next, isOperatorChar d = true ∧ d ≠ '(' ∧ d ≠ ')')
    (h : mode.Holds []) : Decides [] c next (.ok ⟨mode, found, move⟩) := by
  have hne : move.taken c next ≠ [] := by
    cases move with
    | again => exact absurd rfl hmove
    | one => exact List.cons_ne_nil _ _
    | two => exact List.cons_ne_nil _ _
  refine .ends (fun hend => ?_) h (balanced_of_forall fun d hd => (htaken d hd).2)
    (.inr ⟨_, List.getLast?_eq_some_getLast hne, ?_⟩)
  · exact absurd (htaken _ hend).1 (by decide)
  · refine (ne_of_isTerminator ?_).1
    rw [isTerminator, (htaken _ (List.getLast_mem hne)).1, Bool.or_true]

/-- The characters of a pair are characters of operators. -/
theorem of_isPair {c next : Char} (h : isPair c next = true) :
    ∀ d ∈ [c, next], isOperatorChar d = true ∧ d ≠ '(' ∧ d ≠ ')' := by
  unfold isPair at h
  split at h
  all_goals first | cases h; done | simp [isOperatorChar]

/-- A point makes a number out of any digits, if a zero is put before a point that comes first. -/
theorem exists_literal_of_decimal {whole fraction : List Char}
    (hwhole : ∀ c ∈ whole, c.isDigit = true) (hfraction : ∀ c ∈ fraction, c.isDigit = true)
    (e : Option Exponent) :
    ∃ l : Literal, l.whole ≠ [] ∧
      l.text = (if whole = [] then ['0'] else whole) ++ '.' :: fraction
        ++ e.elim [] Exponent.text := by
  by_cases h : whole = []
  · exact ⟨⟨['0'], some fraction, e, by simp, by simpa using hfraction, .inr rfl, by simp⟩,
      by simp, by simp [Literal.text, h]⟩
  · exact ⟨⟨whole, some fraction, e, hwhole, by simpa using hfraction, .inr rfl, by simp⟩, h,
      by simp [Literal.text, h]⟩

/-- The mark of an exponent, with a minus sign or without one, and digits are an exponent. -/
theorem exists_exponent_text_eq {mark : Char} {sign digits : List Char}
    (hmark : mark = 'e' ∨ mark = 'E') (hsign : sign = [] ∨ sign = ['-'])
    (hdigits : ∀ c ∈ digits, c.isDigit = true) (hne : digits ≠ []) :
    ∃ e : Exponent, e.text = mark :: (sign ++ digits) := by
  refine ⟨⟨mark, sign ≠ [], digits, hmark, hdigits, hne⟩, ?_⟩
  rcases hsign with rfl | rfl <;> rfl

/-- Without digits an exponent does not end in a digit. -/
theorem any_isDigit_getLast?_of_mark (read : List Char) {mark : Char} {sign : List Char}
    (hmark : mark = 'e' ∨ mark = 'E') (hsign : sign = [] ∨ sign = ['-']) :
    (read ++ mark :: sign).getLast?.any Char.isDigit = false := by
  rcases hmark with rfl | rfl <;> rcases hsign with rfl | rfl <;> simp

namespace ReadsAs

variable {written read : List Char} (h : ReadsAs written read)

include h

theorem isLeafChar : ∀ c ∈ written, isLeafChar c = true := by
  intro c hc
  cases h with
  | whole _ hdigits => exact isLeafChar_of_isDigit (hdigits c hc)
  | decimal hwhole hfraction =>
    rw [List.mem_append, List.mem_cons] at hc
    rcases hc with hc | rfl | hc
    · exact isLeafChar_of_isDigit (hwhole c hc)
    · rfl
    · exact isLeafChar_of_isDigit (hfraction c hc)

theorem exists_last : ∃ before c, written = before ++ [c] ∧ (c.isDigit = true ∨ c = '.') := by
  have hlast : ∀ {digits : List Char}, digits ≠ [] → (∀ c ∈ digits, c.isDigit = true) →
      ∃ before c, digits = before ++ [c] ∧ c.isDigit = true := fun hne hdigits =>
    ⟨_, _, (List.dropLast_append_getLast hne).symm, hdigits _ (List.getLast_mem hne)⟩
  cases h with
  | whole hne hdigits =>
    obtain ⟨before, c, heq, hc⟩ := hlast hne hdigits
    exact ⟨before, c, heq, .inl hc⟩
  | @decimal whole fraction hwhole hfraction =>
    by_cases hne : fraction = []
    · exact ⟨whole, '.', by rw [hne], .inr rfl⟩
    · obtain ⟨before, c, heq, hc⟩ := hlast hne hfraction
      exact ⟨whole ++ '.' :: before, c, by simp [heq], .inl hc⟩

/-- With an exponent it is a number as it is written. -/
theorem exists_literal (e : Exponent) :
    ∃ l : Literal, l.whole ≠ [] ∧ l.text = read ++ e.text := by
  cases h with
  | whole hne hdigits =>
    exact ⟨⟨written, none, some e, hdigits, by simp, .inl hne, by simp⟩, hne, rfl⟩
  | decimal hwhole hfraction => exact exists_literal_of_decimal hwhole hfraction (some e)

end ReadsAs

/-- A number that reads ends before the character after it. -/
theorem Decides.of_endNumber {written : List Char} {c next : Char} {l : Literal}
    (hc : isTerminator c = true) (hwritten : ∀ d ∈ written, isLeafChar d = true)
    (h : l.whole ≠ []) : Decides written c next (Mode.endNumber (String.ofList l.text)) := by
  rw [Mode.endNumber, Literal.ofLiteral_text h]
  exact .of_again (ne_of_isTerminator hc).1 hwritten .top

namespace Mode

variable {written : List Char} {c next : Char}

theorem decides_atStart : Decides [] c next (.ok (atStart c)) := by
  have hsign : c = '+' ∨ c = '-' → ∀ d ∈ [c], isOperatorChar d = true ∧ d ≠ '(' ∧ d ≠ ')' := by
    rintro (rfl | rfl) <;> simp [isOperatorChar]
  rw [atStart]
  split
  · exact .of_operator (by decide) (hsign (.inl ‹_›)) .start
  · split
    · exact .of_operator (by decide) (hsign (.inr ‹_›)) .start
    · split
      · exact .waits ‹_› rfl .start
      · exact .goesOn List.not_mem_nil .top

theorem decides_atOperator (hend : c ≠ endMark) (hc : isOperatorChar c = true)
    (hparens : c ≠ '(' ∧ c ≠ ')') : Decides [] c next (atOperator c next) := by
  have hfound : ∀ spelling move, move ≠ .again →
      (∀ d ∈ move.taken c next, isOperatorChar d = true ∧ d ≠ '(' ∧ d ≠ ')') →
      Decides [] c next (atOperator.found c spelling move) := by
    intro spelling move hmove htaken
    rw [atOperator.found]
    split
    · exact .of_operator hmove htaken .start
    · exact .unexpected (by decide) hend
  rw [atOperator]
  split
  · exact hfound _ .two (by decide) (of_isPair ‹_›)
  · split
    · exact .unexpected (by decide) hend
    · exact hfound _ .one (by decide) fun d hd => by
        rw [List.mem_singleton.mp hd]
        exact ⟨hc, hparens⟩

theorem decides_atTop : Decides [] c next (atTop c next) := by
  -- The cases are those of the mode, in its order, here and in the other modes.
  rw [atTop]
  split
  · exact .waits ‹_› rfl .top
  rename_i hend
  split
  · rename_i hc
    refine .of_one hend ?_
    rw [String.singleton_eq_ofList]
    exact .name fun d hd => by simp [List.mem_singleton.mp hd, isNameChar, Char.isAlphanum, hc]
  split
  · rename_i hc
    refine .of_one hend ?_
    rw [String.singleton_eq_ofList]
    exact .number (List.cons_ne_nil _ _) fun d hd => by rwa [List.mem_singleton.mp hd]
  split
  · rename_i hc
    subst hc
    exact .of_one hend (.decimal [] [] (by simp) (by simp))
  split
  · rename_i hc
    subst hc
    exact .of_one hend (.group [] rfl)
  rename_i hopen
  split
  · exact .unexpected (by decide) hend
  rename_i hclose
  split
  · exact decides_atOperator hend ‹_› ⟨hopen, hclose⟩
  · exact .unexpected (by decide) hend

theorem decides_inName {read : List Char} (h : ∀ d ∈ read, isNameChar d = true) :
    Decides read c next (.ok (inName (String.ofList read) c)) := by
  have hleaf : ∀ d ∈ read, isLeafChar d = true := fun d hd => isLeafChar_of_isNameChar (h d hd)
  rw [inName]
  split
  · rename_i hc
    have hend : c ≠ endMark := by
      rintro rfl
      exact absurd hc (by decide)
    refine .of_one hend ?_
    rw [push_ofList]
    exact .name (List.forall_mem_append.mpr ⟨h, by simpa using hc⟩)
  · rename_i hc
    have hdigit : c.isDigit = false := by
      rw [Bool.eq_false_iff]
      intro hdigit
      exact hc (by simp [isNameChar, Char.isAlphanum, hdigit])
    split
    · exact .of_again hdigit hleaf .start
    · exact .of_again hdigit hleaf .top

/-- The digits of a number go on or end, before its point or after it. -/
theorem decides_inDigits {afterPoint : Bool} {read : List Char} (hread : ReadsAs written read)
    (hdigit : c.isDigit = true →
      (Mode.digits afterPoint (String.ofList (read ++ [c]))).Holds (written ++ [c]))
    (hpoint : c = '.' → afterPoint = false →
      (Mode.decimal (String.ofList (read ++ [c]))).Holds (written ++ [c]))
    (hends : isTerminator c = true → Decides written c next (endNumber (String.ofList read))) :
    Decides written c next (inDigits afterPoint (String.ofList read) c next) := by
  rw [inDigits]
  split
  · rename_i hc
    refine .of_one (ne_endMark_of_isDigit hc) ?_
    rw [push_ofList]
    exact hdigit hc
  split
  · rename_i hc
    refine .of_one (by rw [hc.1]; decide) ?_
    rw [push_ofList]
    exact hpoint hc.1 hc.2
  split
  · rename_i hmark
    have hend : c ≠ endMark := by rcases hmark with rfl | rfl <;> decide
    split
    · rename_i hminus
      subst hminus
      refine .goesOn (by simpa [Move.taken, endMark] using hend.symm) ?_
      rw [push_ofList, push_ofList, List.append_assoc]
      exact .exponent ['-'] [] hread hmark (.inr rfl) (by simp)
    · refine .of_one hend ?_
      rw [push_ofList]
      exact .exponent [] [] hread hmark (.inl rfl) (by simp)
  rename_i hmark
  split
  · exact hends ‹_›
  · exact .unexpected (by cases afterPoint <;> decide) (ne_endMark_of_not_isTerminator ‹_›)

theorem decides_inNumber {digits : List Char} (hne : digits ≠ [])
    (hdigits : ∀ d ∈ digits, d.isDigit = true) :
    Decides digits c next (inDigits false (String.ofList digits) c next) := by
  refine decides_inDigits (.whole hne hdigits) (fun hc => ?_) (fun hc _ => ?_) fun hc => ?_
  · exact .number (by simp) (List.forall_mem_append.mpr ⟨hdigits, by simpa using hc⟩)
  · subst hc
    have h := Holds.decimal digits [] hdigits (by simp)
    rwa [if_neg hne] at h
  · have hdigit := (ne_of_isTerminator hc).1
    rw [endNumber, Constant.ofLiteral_digits hdigits]
    by_cases hfits : Decimal.digitsValue digits ≤ largestWhole
    · rw [if_pos hfits]
      exact .of_again hdigit (fun d hd => isLeafChar_of_isDigit (hdigits d hd)) .top
    · rw [if_neg hfits]
      exact .tooLarge hdigit hne hdigits (Nat.lt_of_not_le hfits)

theorem decides_inDecimal {whole fraction : List Char} (hwhole : ∀ d ∈ whole, d.isDigit = true)
    (hfraction : ∀ d ∈ fraction, d.isDigit = true) :
    Decides (whole ++ '.' :: fraction) c next (inDigits true
      (String.ofList ((if whole = [] then ['0'] else whole) ++ '.' :: fraction)) c next) := by
  have hread := ReadsAs.decimal hwhole hfraction
  refine decides_inDigits hread (fun hc => ?_) (fun _ hafter => by cases hafter) fun hc => ?_
  · have h := Holds.decimal whole (fraction ++ [c]) hwhole
      (List.forall_mem_append.mpr ⟨hfraction, by simpa using hc⟩)
    rw [List.append_assoc, List.append_assoc, List.cons_append]
    exact h
  · obtain ⟨l, hne, htext⟩ := exists_literal_of_decimal hwhole hfraction none
    rw [Option.elim_none, List.append_nil] at htext
    rw [← htext]
    exact .of_endNumber hc hread.isLeafChar hne

theorem decides_inExponent {read sign digits : List Char} {mark : Char}
    (hread : ReadsAs written read) (hmark : mark = 'e' ∨ mark = 'E')
    (hsign : sign = [] ∨ sign = ['-']) (hdigits : ∀ d ∈ digits, d.isDigit = true) :
    Decides (written ++ mark :: (sign ++ digits)) c next
      (inExponent (String.ofList (read ++ mark :: (sign ++ digits))) c) := by
  rw [inExponent]
  split
  · rename_i hc
    refine .of_one (ne_endMark_of_isDigit hc) ?_
    have h := Holds.exponent sign (digits ++ [c]) hread hmark hsign
      (List.forall_mem_append.mpr ⟨hdigits, by simpa using hc⟩)
    rw [push_ofList]
    simpa using h
  by_cases hne : digits = []
  · subst hne
    rw [List.append_nil, String.toList_ofList, any_isDigit_getLast?_of_mark read hmark hsign,
      if_neg (by simp)]
    by_cases hc : c = endMark
    · obtain ⟨before, last, heq, hlast⟩ := hread.exists_last
      exact .unended hc ⟨before, last, mark, sign, by simp [heq], hlast, hmark, hsign⟩
    · exact .unexpected (by decide) hc
  · obtain ⟨e, hexponent⟩ := exists_exponent_text_eq hmark hsign hdigits hne
    obtain ⟨l, hl, htext⟩ := hread.exists_literal e
    rw [← hexponent, ← htext]
    split
    · rename_i hc
      refine .of_endNumber hc.1 (List.forall_mem_append.mpr ⟨hread.isLeafChar, ?_⟩) hl
      exact e.isLeafChar_text
    · rename_i hc
      refine .unexpected (by decide) (ne_endMark_of_not_isTerminator fun hends => hc ⟨hends, ?_⟩)
      rw [String.toList_ofList, htext, e.getLast?_append_text]
      exact e.isDigit _ (List.getLast_mem e.ne_nil)

theorem decides_inGroup {depth : Nat} {read : List Char} (h : openAfter? 0 read = some depth) :
    Decides ('(' :: read) c next (inGroup (depth + 1) (String.ofList read) c) := by
  have hstep : ∀ {depth'}, openAfter? depth [c] = some depth' →
      openAfter? 0 (read ++ [c]) = some depth' := fun hc => by
    rw [openAfter?_append, h, Option.bind_some, hc]
  rw [inGroup]
  split
  · rename_i hopen
    subst hopen
    refine .of_one (by decide) ?_
    rw [push_ofList]
    exact .group _ (hstep rfl)
  rename_i hopen
  split
  · rename_i hclose
    subst hclose
    cases depth with
    | zero =>
      rw [if_pos rfl]
      split
      · rename_i hempty
        exact .emptyGroup rfl (by simpa using hempty)
      · refine .ends ?_ .top (Balanced.parens h) (.inr ⟨')', ?_, rfl⟩)
        · simp [Move.taken, endMark]
        · exact List.getLast?_concat
    | succ depth =>
      rw [if_neg (by omega), push_ofList]
      exact .of_one (by decide) (.group _ (hstep rfl))
  rename_i hclose
  split
  · exact .waits ‹_› rfl (.group read h)
  · rw [push_ofList]
    exact .of_one ‹_› (.group _ (hstep (openAfter?_cons_of_ne hopen hclose depth [])))

/-- **A decision is told by what has been taken in.** -/
theorem Holds.decides {mode : Mode} (h : mode.Holds written) (c next : Char) :
    Decides written c next (mode.handle c next) := by
  cases h with
  | start => exact decides_atStart
  | top => exact decides_atTop
  | name h => exact decides_inName h
  | number hne hdigits => exact decides_inNumber hne hdigits
  | decimal _ _ hwhole hfraction => exact decides_inDecimal hwhole hfraction
  | exponent _ _ hread hmark hsign hdigits => exact decides_inExponent hread hmark hsign hdigits
  | group _ h => exact decides_inGroup h

end Mode

/-! ### The place in the text -/

/-- The place of a text where the scanner stands with so much left of the text and the mark at its
end: after the tokens `prior` that have been found and `written`, which has been taken in. -/
structure Stands (text : List Char) (mode : Mode) (left prior written ahead : List Char) :
    Prop where
  eq : prior ++ (written ++ ahead) = text
  left_eq : left = ahead ++ [endMark] ∨ left = [] ∧ ahead = []
  holds : mode.Holds written
  balanced : Balanced prior
  /-- No token ends among digits. -/
  parted : ∀ c ∈ prior.getLast?, c.isDigit = true →
    ∀ d ∈ (written ++ ahead).head?, d.isDigit = false

/-- What is done with by a move, if it is not the mark at the end, comes first in the text ahead. -/
theorem Move.exists_ahead {move : Move} {c : Char} {rest ahead : List Char}
    (h : c :: rest = ahead ++ [endMark]) (hend : endMark ∉ move.taken c (rest.headD endMark)) :
    ∃ ahead', ahead = move.taken c (rest.headD endMark) ++ ahead' ∧
      move.rest c rest = ahead' ++ [endMark] := by
  cases move with
  | again => exact ⟨ahead, rfl, h⟩
  | one =>
    cases ahead with
    | nil =>
      cases h
      exact absurd (List.mem_singleton.mpr rfl) hend
    | cons c ahead =>
      cases h
      exact ⟨ahead, rfl, rfl⟩
  | two =>
    match ahead with
    | [] =>
      cases h
      exact absurd List.mem_cons_self hend
    | [c] =>
      cases h
      exact absurd (by simp [taken]) hend
    | c :: next :: ahead =>
      cases h
      exact ⟨ahead, rfl, rfl⟩

namespace Stands

variable {text left prior written ahead rest : List Char} {mode : Mode} {c : Char}

/-- What is left is the text ahead, and then the mark at the end. -/
theorem cons_eq (h : Stands text mode (c :: rest) prior written ahead) :
    c :: rest = ahead ++ [endMark] :=
  h.left_eq.resolve_right fun hnil => List.cons_ne_nil _ _ hnil.1

/-- A character other than the mark at the end is the first one ahead. -/
theorem exists_ahead_eq (h : Stands text mode (c :: rest) prior written ahead)
    (hc : c ≠ endMark) : ∃ more, ahead = c :: more := by
  have heq := h.cons_eq
  cases ahead with
  | nil =>
    cases heq
    exact absurd rfl hc
  | cons c ahead =>
    cases heq
    exact ⟨ahead, rfl⟩

theorem mem_text (h : Stands text mode (c :: rest) prior written ahead) (hc : c ≠ endMark) :
    c ∈ text := by
  obtain ⟨more, rfl⟩ := h.exists_ahead_eq hc
  rw [← h.eq]
  simp

/-- At the mark at the end nothing is ahead. -/
theorem ahead_eq_nil (h : Stands text mode (endMark :: rest) prior written ahead)
    (hend : endMark ∉ text) : ahead = [] := by
  have heq := h.cons_eq
  cases ahead with
  | nil => rfl
  | cons c ahead =>
    cases heq
    exact absurd (by rw [← h.eq]; simp) hend

/-- **One decision** leads from place to place. -/
theorem step (h : Stands text mode (c :: rest) prior written ahead) (hend : endMark ∉ text)
    {d : Decision} (hd : mode.handle c (rest.headD endMark) = .ok d) :
    ∃ prior written ahead, Stands text d.mode (d.move.rest c rest) prior written ahead := by
  have hdecides := h.holds.decides c (rest.headD endMark)
  rw [hd] at hdecides
  cases hdecides with
  | goesOn hmark hholds =>
    obtain ⟨ahead, rfl, hleft⟩ := Move.exists_ahead h.cons_eq hmark
    refine ⟨prior, _, ahead, ?_, .inl hleft, hholds, h.balanced, ?_⟩
    · rw [← h.eq, List.append_assoc]
    · rw [List.append_assoc]
      exact h.parted
  | ends hmark hholds hbalanced hparted =>
    obtain ⟨ahead, rfl, hleft⟩ := Move.exists_ahead h.cons_eq hmark
    refine ⟨prior ++ (written ++ d.move.taken c (rest.headD endMark)), [], ahead, ?_, .inl hleft,
      hholds, h.balanced.append hbalanced, ?_⟩
    · rw [← h.eq]
      simp
    · intro last hlast hdigit next hnext
      rcases hparted with ⟨hmove, hc⟩ | ⟨last', hlast', hdigit'⟩
      · -- The character that is read again comes next, and is no digit.
        rw [hmove, Move.rest] at hleft
        cases ahead with
        | nil => cases hnext
        | cons c' ahead =>
          cases hleft
          cases hnext
          exact hc
      · rw [List.getLast?_append, Option.mem_def.mp hlast', Option.some_or] at hlast
        cases hlast
        rw [hdigit] at hdigit'
        cases hdigit'
  | waits hc hmove hholds =>
    subst hc
    have hahead := h.ahead_eq_nil hend
    subst hahead
    refine ⟨prior, written, [], h.eq, .inr ⟨?_, rfl⟩, hholds, h.balanced, h.parted⟩
    have heq := h.cons_eq
    cases heq
    rw [hmove, Move.rest]

end Stands

/-- **The scanner stands at a place of the text**, whatever it passes through. -/
theorem Passes.exists_stands {text left : List Char} {mode : Mode}
    (h : Passes (text ++ [endMark]) mode left) (hend : endMark ∉ text) :
    ∃ prior written ahead, Stands text mode left prior written ahead := by
  induction h with
  | start => exact ⟨[], [], text, rfl, .inl rfl, .start, rfl, by simp⟩
  | step _ hd ih =>
    obtain ⟨prior, written, ahead, hstands⟩ := ih
    exact hstands.step hend hd

end Formulary
