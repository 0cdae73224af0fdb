import Formulary.Proofs.Lexing

/-!
# A text in place of a name

A name in a text can be replaced by another text in parentheses. The name has to be found first, and
a name is not just any part of the text that looks like it: it goes on for as long as its characters
do, and the mark of an exponent belongs to its number. What is replaced then is a lexeme, and what
comes in its place is one, so that the text with the name replaced is cut into lexemes where the
text was.

## Main definitions

* `splice` — a text with a name replaced by another text in parentheses
* `Lexeme.splice` — the same for a lexeme

## Main results

* `openAfter?_splice` — parentheses match as before
* `Lexes.splice` — a text is cut into lexemes with the name replaced where it was cut before
-/

namespace Formulary

/-! ### Texts -/

/-- Whether a character can stand in a name or in a number, the sign of an exponent aside. -/
def isWordChar (c : Char) : Bool := isNameChar c || c == '.'

/-- A text with a name replaced by another text in parentheses. A name begins at a letter and goes
on for as long as it can. A number begins at a digit or at a point, and no name begins in it. -/
def splice (x : Name) (t : List Char) : List Char → List Char
  | [] => []
  | c :: cs =>
    if c.isAlpha then
      (if c :: cs.takeWhile isNameChar = x.text then '(' :: t ++ [')']
        else c :: cs.takeWhile isNameChar) ++ splice x t (cs.dropWhile isNameChar)
    else if c.isDigit || c == '.' then
      c :: cs.takeWhile isWordChar ++ splice x t (cs.dropWhile isWordChar)
    else c :: splice x t cs
termination_by cs => cs.length
decreasing_by
  · exact Nat.lt_succ_of_le (List.dropWhile_sublist _).length_le
  · exact Nat.lt_succ_of_le (List.dropWhile_sublist _).length_le
  · exact Nat.lt_succ_self _

variable {x : Name} {t : List Char}

@[simp] theorem splice_nil : splice x t [] = [] := by rw [splice]

theorem isWordChar_of_isNameChar {c : Char} (h : isNameChar c = true) : isWordChar c = true := by
  rw [isWordChar, h, Bool.true_or]

theorem isWordChar_of_isDigit {c : Char} (h : c.isDigit = true) : isWordChar c = true := by
  simp [isWordChar, isNameChar, Char.isAlphanum, h]

/-- A character that begins neither a name nor a number is kept. -/
theorem splice_cons_of_not_isWordChar {c : Char} (h : isWordChar c = false) (cs : List Char) :
    splice x t (c :: cs) = c :: splice x t cs := by
  have halpha : ¬ c.isAlpha = true := fun hc =>
    absurd (isWordChar_of_isNameChar (isNameChar_of_isAlpha hc)) (by simp [h])
  have hnumber : ¬ (c.isDigit || c == '.') = true := by
    intro hc
    rcases Bool.or_eq_true_iff.mp hc with hc | hc
    · exact absurd (isWordChar_of_isDigit hc) (by simp [h])
    · exact absurd h (by rw [isWordChar, hc, Bool.or_true]; decide)
  rw [splice, if_neg halpha, if_neg hnumber]

theorem splice_append_of_not_isWordChar {cs : List Char} (h : ∀ c ∈ cs, isWordChar c = false)
    (rest : List Char) : splice x t (cs ++ rest) = cs ++ splice x t rest := by
  induction cs with
  | nil => rfl
  | cons c cs ih =>
    obtain ⟨hc, hcs⟩ := List.forall_mem_cons.mp h
    rw [List.cons_append, splice_cons_of_not_isWordChar hc, ih hcs, List.cons_append]

/-- A name is replaced if it is the one, and kept otherwise. -/
theorem splice_name_append {c : Char} {cs : List Char} (hc : c.isAlpha = true)
    (hcs : ∀ d ∈ cs, isNameChar d = true) {rest : List Char}
    (hnext : isNameChar (rest.headD endMark) = false) :
    splice x t (c :: cs ++ rest)
      = (if c :: cs = x.text then '(' :: t ++ [')'] else c :: cs) ++ splice x t rest := by
  obtain ⟨htake, hdrop⟩ := takeWhile_dropWhile_append hcs
    ((forall_mem_head?_iff rfl rest).mpr hnext)
  rw [List.cons_append, splice, if_pos hc, htake, hdrop]

/-- A word that begins like a number is kept. -/
theorem splice_word_append {c : Char} {cs : List Char} (hc : c.isDigit = true ∨ c = '.')
    (hcs : ∀ d ∈ cs, isWordChar d = true) {rest : List Char}
    (hnext : isWordChar (rest.headD endMark) = false) :
    splice x t (c :: cs ++ rest) = c :: cs ++ splice x t rest := by
  obtain ⟨htake, hdrop⟩ := takeWhile_dropWhile_append hcs
    ((forall_mem_head?_iff rfl rest).mpr hnext)
  have halpha : ¬ c.isAlpha = true := by
    rcases hc with hc | rfl
    · exact not_isAlpha_of_isDigit hc
    · decide
  rw [List.cons_append, splice, if_neg halpha, if_pos (by simpa using hc), htake, hdrop]

/-- What stands before a character that goes on with nothing is spliced by itself. -/
theorem splice_append_cons {c : Char} (hc : isWordChar c = false) (cs rest : List Char) :
    splice x t (cs ++ c :: rest) = splice x t cs ++ c :: splice x t rest := by
  have hname : isNameChar c = false := by
    rw [← Bool.not_eq_true]
    exact fun h => absurd (isWordChar_of_isNameChar h) (by simp [hc])
  fun_induction splice x t cs with
  | case1 => rw [List.nil_append, splice_cons_of_not_isWordChar hc, List.nil_append]
  | case2 d ds hd ih =>
    obtain ⟨htake, hdrop⟩ := takeWhile_dropWhile_append_cons _ hname ds rest
    rw [List.cons_append, splice, if_pos hd, htake, hdrop, ih, List.append_assoc]
  | case3 d ds hd hword ih =>
    obtain ⟨htake, hdrop⟩ := takeWhile_dropWhile_append_cons _ hc ds rest
    rw [List.cons_append, splice, if_neg hd, if_pos hword, htake, hdrop, ih, List.append_assoc]
  | case4 d ds hd hword ih =>
    rw [List.cons_append, splice, if_neg hd, if_neg hword, ih, List.cons_append]

theorem splice_ne_nil {cs : List Char} (h : cs ≠ []) : splice x t cs ≠ [] := by
  cases cs with
  | nil => exact absurd rfl h
  | cons c cs =>
    rw [splice]
    split
    · split <;> simp
    · split <;> simp

/-- What is spliced begins as before, or with a parenthesis. -/
theorem headD_splice (cs : List Char) :
    (splice x t cs).headD endMark = cs.headD endMark ∨ (splice x t cs).headD endMark = '(' := by
  cases cs with
  | nil => exact .inl (by rw [splice_nil])
  | cons c cs =>
    rw [splice]
    split
    · split
      · exact .inr rfl
      · exact .inl rfl
    · split
      · exact .inl rfl
      · exact .inl rfl

/-! ### Parentheses -/

/-- There are no parentheses in a word. -/
theorem balanced_of_isWordChar {cs : List Char} (h : ∀ c ∈ cs, isWordChar c = true) :
    Balanced cs := by
  refine balanced_of_forall fun c hc => ?_
  have hword := h c hc
  constructor <;> rintro rfl <;> exact absurd hword (by decide)

/-- **Parentheses match as before**, if they do in what is spliced in. -/
theorem openAfter?_splice (ht : Balanced t) (cs : List Char) (depth : Nat) :
    openAfter? depth (splice x t cs) = openAfter? depth cs := by
  have hcut : ∀ (good : Char → Bool) (c : Char) (cs : List Char),
      c :: cs = c :: cs.takeWhile good ++ cs.dropWhile good := by
    intro good c cs
    rw [List.cons_append, List.takeWhile_append_dropWhile]
  fun_induction splice x t cs generalizing depth with
  | case1 => rfl
  | case2 c cs hc ih =>
    have hword : Balanced (c :: cs.takeWhile isNameChar) :=
      balanced_of_isWordChar (List.forall_mem_cons.mpr
        ⟨isWordChar_of_isNameChar (isNameChar_of_isAlpha hc),
          fun d hd => isWordChar_of_isNameChar (List.mem_takeWhile_imp hd)⟩)
    rw [hcut isNameChar c cs, hword.openAfter?_append]
    split
    · rw [ht.parens.openAfter?_append, ih]
    · rw [hword.openAfter?_append, ih]
  | case3 c cs hc hnumber ih =>
    have hfirst : isWordChar c = true := by
      rcases Bool.or_eq_true_iff.mp hnumber with h | h
      · exact isWordChar_of_isDigit h
      · rw [isWordChar, h, Bool.or_true]
    have hword : Balanced (c :: cs.takeWhile isWordChar) :=
      balanced_of_isWordChar (List.forall_mem_cons.mpr
        ⟨hfirst, fun d hd => List.mem_takeWhile_imp hd⟩)
    rw [hcut isWordChar c cs, hword.openAfter?_append, hword.openAfter?_append, ih]
  | case4 c cs hc hnumber ih =>
    rw [openAfter?, openAfter?]
    simp only [ih]

/-! ### Lexemes -/

/-- A lexeme with a name replaced by a text in parentheses. -/
def Lexeme.splice (x : Name) (t : List Char) : Lexeme → Lexeme
  | .reference name =>
    if name = String.ofList x.text then .group (String.ofList t) else .reference name
  | .group g => .group (String.ofList (Formulary.splice x t g.toList))
  | .constant c => .constant c
  | .operator op => .operator op

theorem Lexeme.isOperator_splice (l : Lexeme) : (l.splice x t).isOperator = l.isOperator := by
  cases l with
  | reference name =>
    rw [splice]
    split <;> rfl
  | group g => rfl
  | constant c => rfl
  | operator op => rfl

/-- What a text is followed by ends it as before, if a parenthesis does. -/
theorem next_splice {good : Char → Bool} {b : Bool} {rest : List Char} (hopen : good '(' = b)
    (h : good (rest.headD endMark) = b) : good ((splice x t rest).headD endMark) = b := by
  rcases headD_splice (x := x) (t := t) rest with heq | heq
  · rw [heq, h]
  · rw [heq, hopen]

theorem Symbol.not_isWordChar_of_mem {symbol : Symbol} (h : symbol.isFunction = false) :
    ∀ c ∈ symbol.text.toList, isWordChar c = false := by
  have hall : (symbol.text.toList.all fun c => !isWordChar c) = true := by
    cases symbol <;> first | decide | cases h
  intro c hc
  simpa using List.all_eq_true.mp hall c hc

theorem not_isWordChar_of_isTerminator {c : Char} (h : isTerminator c = true) :
    isWordChar c = false := by
  simpa using of_isTerminator (fun d => !isWordChar d) (by decide) h

theorem Literal.isWordChar_mantissa (l : Literal) : ∀ c ∈ l.mantissa, isWordChar c = true := by
  intro c hc
  rcases List.mem_append.mp hc with hc | hc
  · exact isWordChar_of_isDigit (l.isDigit_whole c hc)
  · cases hfraction : l.fraction with
    | none =>
      rw [hfraction] at hc
      cases hc
    | some digits =>
      rw [hfraction] at hc
      rcases List.mem_cons.mp hc with rfl | hc
      · decide
      · exact isWordChar_of_isDigit (l.isDigit_fraction digits hfraction c hc)

/-- A number is kept up to the sign of its exponent, or up to its end. -/
theorem splice_mantissa_append (l : Literal) {cs : List Char}
    (hcs : ∀ d ∈ cs, isWordChar d = true) {rest : List Char}
    (hnext : isWordChar (rest.headD endMark) = false) :
    splice x t (l.mantissa ++ cs ++ rest) = l.mantissa ++ cs ++ splice x t rest := by
  obtain ⟨c, ds, hmantissa, hc⟩ := l.exists_mantissa_eq_cons
  have hword := List.forall_mem_append.mpr ⟨l.isWordChar_mantissa, hcs⟩
  rw [hmantissa, List.cons_append] at hword ⊢
  exact splice_word_append hc (List.forall_mem_cons.mp hword).2 hnext

/-- A number is kept. The sign of its exponent stands between two words. -/
theorem splice_literal_append (l : Literal) {rest : List Char}
    (hnext : isTerminator (rest.headD endMark) = true) :
    splice x t (l.text ++ rest) = l.text ++ splice x t rest := by
  have hnext := not_isWordChar_of_isTerminator hnext
  rw [l.text_eq_mantissa_append]
  cases l.exponent with
  | none => exact splice_mantissa_append l (by simp) hnext
  | some e =>
    have hmark : isWordChar e.mark = true := by
      rcases e.mark_eq with h | h <;> rw [h] <;> decide
    have hdigits : ∀ c ∈ e.digits, isWordChar c = true :=
      fun c hc => isWordChar_of_isDigit (e.isDigit c hc)
    cases hnegative : e.negative with
    | false =>
      have htext : e.text = e.mark :: e.digits := by
        rw [Exponent.text, hnegative]
        rfl
      rw [Option.elim_some, htext]
      exact splice_mantissa_append l (List.forall_mem_cons.mpr ⟨hmark, hdigits⟩) hnext
    | true =>
      have htext : e.text = [e.mark] ++ '-' :: e.digits := by
        rw [Exponent.text, hnegative]
        rfl
      obtain ⟨d, ds, hds⟩ := List.exists_cons_of_ne_nil e.ne_nil
      rw [hds] at hdigits htext
      have hrest : splice x t (d :: ds ++ rest) = d :: ds ++ splice x t rest :=
        splice_word_append (.inl (e.isDigit d (by simp [hds]))) (List.forall_mem_cons.mp hdigits).2
          hnext
      rw [Option.elim_some, htext, ← List.append_assoc, List.append_assoc _ _ rest,
        List.cons_append, splice_mantissa_append l (List.forall_mem_singleton.mpr hmark) (by rfl),
        splice_cons_of_not_isWordChar (by decide), hrest]
      simp

/-- **Lexemes are found where they were.** A lexeme with a name replaced is spelt by what it is
spelt by with the name replaced. -/
theorem Spells.exists_splice (ht : Balanced t) (hne : t ≠ []) {due : Bool} {lexeme : Lexeme}
    {text rest : List Char} (h : Spells due lexeme text rest) :
    ∃ text', Formulary.splice x t (text ++ rest) = text' ++ Formulary.splice x t rest ∧
      Spells due (lexeme.splice x t) text' (Formulary.splice x t rest) := by
  cases h with
  | @sign symbol _ hdue hsymbol =>
    have hfunction : symbol.isFunction = false := by
      rcases hsymbol with rfl | rfl <;> rfl
    exact ⟨_, splice_append_of_not_isWordChar (Symbol.not_isWordChar_of_mem hfunction) rest,
      .sign hdue hsymbol⟩
  | @binary symbol _ hsymbol hdue hnext =>
    exact ⟨_, splice_append_of_not_isWordChar (Symbol.not_isWordChar_of_mem hsymbol) rest,
      .binary hsymbol hdue fun c hc => next_splice (isPair_open c) (hnext c hc)⟩
  | @function symbol _ hsymbol hnext =>
    obtain ⟨c, cs, htext, hc, hcs⟩ := symbol.exists_text_eq_of_isFunction hsymbol
    have hx : ¬ c :: cs = x.text := by
      intro hx
      have hname := x.not_function
      rw [← Name.text, ← hx, ← htext, String.ofList_toList, Symbol.ofText?_text] at hname
      cases hname
    have htext' := splice_name_append (x := x) (t := t) hc hcs hnext
    rw [if_neg hx, ← htext] at htext'
    exact ⟨_, htext', .function hsymbol (next_splice rfl hnext)⟩
  | reference n hnext =>
    have htext : Formulary.splice x t (n.text ++ rest)
        = (if n.text = x.text then '(' :: t ++ [')'] else n.text) ++ Formulary.splice x t rest :=
      splice_name_append n.isAlpha_first n.isNameChar_others hnext
    by_cases hx : n.text = x.text
    · rw [Lexeme.splice, if_pos (congrArg String.ofList hx)]
      rw [if_pos hx] at htext
      exact ⟨_, htext, .group ht hne⟩
    · have hname : ¬ String.ofList n.text = String.ofList x.text := fun h =>
        hx (String.ofList_injective h)
      rw [Lexeme.splice, if_neg hname]
      rw [if_neg hx] at htext
      exact ⟨_, htext, .reference n (next_splice rfl hnext)⟩
  | constant l hnext =>
    exact ⟨_, splice_literal_append l hnext, .constant l (next_splice rfl hnext)⟩
  | @group g _ hbalanced hg =>
    have hspliced : Balanced (Formulary.splice x t g) := by
      rw [Balanced, openAfter?_splice ht]
      exact hbalanced
    refine ⟨'(' :: Formulary.splice x t g ++ [')'], ?_, ?_⟩
    · have hassoc : '(' :: g ++ [')'] ++ rest = '(' :: (g ++ ')' :: rest) := by simp
      rw [hassoc, splice_cons_of_not_isWordChar (by decide), splice_append_cons (by decide)]
      simp
    · rw [Lexeme.splice, String.toList_ofList]
      exact .group hspliced (splice_ne_nil hg)

/-- **Lexemes are replaced one by one.** A text with a name replaced is cut into the lexemes with
the name replaced. -/
theorem Lexes.splice (ht : Balanced t) (hne : t ≠ []) {due : Bool} {text : List Char}
    {lexemes : List Lexeme} (h : Lexes due text lexemes) :
    Lexes due (Formulary.splice x t text) (lexemes.map (Lexeme.splice x t)) := by
  induction h with
  | nil due =>
    rw [splice_nil]
    exact .nil due
  | cons hspells _ ih =>
    obtain ⟨text', htext, hspells'⟩ := hspells.exists_splice (x := x) ht hne
    rw [htext]
    exact .cons hspells' (by rwa [Lexeme.isOperator_splice])

end Formulary
