import Formulary.Proofs.Grammar
import Formulary.Proofs.Splicing

/-!
# Texts joined by operators

A text that ends with an operand can be followed by an operator and by any other text, and the two
texts are scanned as if each stood by itself. The first is scanned as before because the operator
ends its last operand as the end of the text does, and what comes before has seen its next character
already. The second is scanned as before because an operand is due after the operator, as it is at
the start of a text. This goes for its faults as well.

What stands at the seam can be read otherwise in one way only: the operator may be the beginning of
a longer one, which goes on with the first character of the second text.

## Main results

* `Spells.append` — the text of a lexeme, before a rest that goes on
* `Lexes.scanFrom_append` — lexemes are found whatever comes after them, if it ends the last one
* `scan_join` — a text that is joined to another one by an operator is scanned piece by piece
-/

namespace Formulary

variable {provider : Provider}

/-! ### Lexemes with more after them -/

section Append

variable {due : Bool} {text rest more : List Char}

/-- What a text is followed by is the same with more after it, if there is anything. -/
theorem next_append {good : Char → Bool} {b : Bool} (h : good (rest.headD endMark) = b)
    (hmore : rest = [] → good (more.headD endMark) = b) :
    good ((rest ++ more).headD endMark) = b := by
  cases rest with
  | nil => exact hmore rfl
  | cons c rest => exact h

/-- A lexeme is spelt the same with more after it, unless it is the last one: then it has to be an
operand that is ended by what comes. -/
theorem Spells.append {lexeme : Lexeme} (h : Spells due lexeme text rest)
    (hmore : rest = [] → lexeme.isOperator = false ∧ isTerminator (more.headD endMark) = true) :
    Spells due lexeme text (rest ++ more) := by
  have hname : rest = [] → isNameChar (more.headD endMark) = false := by
    intro hrest
    simpa using of_isTerminator (fun c => !isNameChar c) (by decide) (hmore hrest).2
  have hoperator : lexeme.isOperator = true → rest ≠ [] := by
    intro hlexeme hrest
    rw [(hmore hrest).1] at hlexeme
    cases hlexeme
  cases h with
  | sign hdue hsymbol => exact .sign hdue hsymbol
  | binary hsymbol hdue hnext =>
    refine .binary hsymbol hdue fun c hc => next_append (hnext c hc) fun hrest => ?_
    exact absurd hrest (hoperator rfl)
  | function hsymbol hnext => exact .function hsymbol (next_append hnext hname)
  | reference n hnext => exact .reference n (next_append hnext hname)
  | constant l hnext => exact .constant l (next_append hnext fun hrest => (hmore hrest).2)
  | group hbalanced hne => exact .group hbalanced hne

/-- Whether an operand is due after lexemes, if it was due, or was not, before them. -/
def dueAfter (due : Bool) (lexemes : List Lexeme) : Bool :=
  (lexemes.getLast?.map Lexeme.isOperator).getD due

@[simp] theorem dueAfter_nil (due : Bool) : dueAfter due [] = due := rfl

@[simp] theorem dueAfter_cons (due : Bool) (l : Lexeme) (rest : List Lexeme) :
    dueAfter due (l :: rest) = dueAfter l.isOperator rest := by
  rw [dueAfter, dueAfter, List.getLast?_cons]
  cases rest.getLast? <;> rfl

/-- **Lexemes are found whatever comes after them**, if they end with an operand that is ended by
what comes. Then the scanner goes on as it does between tokens. -/
theorem Lexes.scanFrom_append {lexemes : List Lexeme} (h : Lexes due text lexemes)
    (hend : endMark ∉ text) (hlast : dueAfter due lexemes = false)
    (hmore : isTerminator (more.headD endMark) = true) :
    scanFrom (.between due) (text ++ more ++ [endMark])
      = ⟨lexemes ++ (scanFrom .top (more ++ [endMark])).lexemes,
          (scanFrom .top (more ++ [endMark])).failure⟩ := by
  induction h with
  | nil due =>
    rw [dueAfter_nil] at hlast
    subst hlast
    rfl
  | @cons due lexeme text rest lexemes hspells hrest ih =>
    rw [List.mem_append, not_or] at hend
    rw [dueAfter_cons] at hlast
    have hspells' : Spells due lexeme text (rest ++ more) := by
      refine hspells.append fun hnil => ⟨?_, hmore⟩
      rwa [hrest.eq_nil hnil, dueAfter_nil] at hlast
    rw [List.append_assoc text rest, List.append_assoc text, hspells'.scanFrom_eq hend.1,
      ih hend.2 hlast]
    rfl

end Append

/-! ### Tokens -/

/-- Lexemes that have tokens can be put before any others. -/
theorem tokensOf_append {lexemes : List Lexeme} {tokens : List Token}
    (h : List.Forall₂ (fun l t => l.token provider (parse provider) = .ok t) lexemes tokens)
    (more : List Lexeme) :
    tokensOf provider (lexemes ++ more) (fun g _ => parse provider g)
      = (tokensOf provider more fun g _ => parse provider g).map (tokens ++ ·) := by
  induction h with
  | nil =>
    simp only [List.nil_append]
    cases tokensOf provider more fun g _ => parse provider g <;> rfl
  | cons hl _ ih =>
    rw [List.cons_append, tokensOf_cons, hl, ih]
    cases tokensOf provider more fun g _ => parse provider g <;> rfl

/-- An operand is due after lexemes if their tokens end with an operator. -/
theorem dueAfter_eq_false {due : Bool} {lexemes : List Lexeme} {tokens : List Token}
    (h : List.Forall₂ (fun l t => l.token provider (parse provider) = .ok t) lexemes tokens)
    {t : Token} (ht : tokens.getLast? = some t) (hoperand : t.isOperand = true) :
    dueAfter due lexemes = false := by
  have hmap : lexemes.map Lexeme.isOperator = tokens.map Token.isOperator := by
    clear ht
    induction h with
    | nil => rfl
    | cons hl _ ih => rw [List.map_cons, List.map_cons, Lexeme.isOperator_of_token hl, ih]
  rw [dueAfter, ← List.getLast?_map, hmap, List.getLast?_map, ht]
  simpa [Token.isOperand] using hoperand

/-! ### Texts -/

/-- Where a symbol meets a text, it is the longest symbol, but for the four seams that are the text
of a longer one. -/
theorem isPair_of_seam {symbol : Symbol} {rest : List Char}
    (h : (symbol, rest.head?) ∉ [(Symbol.multiply, some '*'), (.greater, some '='),
      (.less, some '='), (.subtract, some '>')]) {c : Char} (htext : symbol.text.toList = [c]) :
    isPair c (rest.headD endMark) = false := by
  have heq : ∀ other : Symbol, other.text.toList = [c] → symbol = other := fun other hother =>
    Symbol.text_injective (String.toList_inj.mp (htext.trans hother.symm))
  cases rest with
  | nil => exact isPair_eq_false (by decide) c
  | cons d rest =>
    rw [List.head?_cons] at h
    by_contra hpair
    rw [Bool.not_eq_false, List.headD_cons] at hpair
    -- The pairs in their order; a lone `=` or `!` is no symbol.
    unfold isPair at hpair
    split at hpair
    · exact h (by simp [heq .subtract rfl])
    · exact h (by simp [heq .greater rfl])
    · exact h (by simp [heq .less rfl])
    · exact absurd htext (by cases symbol <;> decide)
    · exact absurd htext (by cases symbol <;> decide)
    · exact h (by simp [heq .multiply rfl])
    · cases hpair

theorem visible_join (a b : String) (symbol : Symbol) :
    Text.visible (a ++ symbol.text ++ b)
      = Text.visible a ++ (symbol.text.toList ++ Text.visible b) := by
  have hsymbol : symbol.text.toList.filter (fun c => !Text.isBlank c) = symbol.text.toList :=
    Text.filter_eq_self fun c hc => (symbol.of_mem_text c hc).1
  rw [Text.visible, String.toList_append, String.toList_append, List.filter_append,
    List.filter_append, hsymbol, List.append_assoc]
  rfl

/-- **Texts joined by operators.** Take a text that is scanned as tokens of which the last is an
operand, then the symbol of an operator, then any text. The whole is scanned as the tokens of the
first text, the operator, and the tokens of the second text, and it fails as the second text does.
Only the seam must not be the text of a longer symbol. -/
theorem scan_join {a b : String} {tokens : List Token} {t : Token} {symbol : Symbol}
    (ha : scan provider a = .ok tokens) (ht : tokens.getLast? = some t)
    (hoperand : t.isOperand = true) (hsymbol : symbol.isFunction = false)
    (hseam : (symbol, (Text.visible b).head?) ∉ [(Symbol.multiply, some '*'), (.greater, some '='),
      (.less, some '='), (.subtract, some '>')]) :
    scan provider (a ++ symbol.text ++ b)
      = (scan provider b).map fun rest => tokens ++ .operator (.binary symbol) :: rest := by
  obtain ⟨hfailure, htokens⟩ := scan_eq_ok_iff.mp ha
  have hlexes : Lexes true (Text.visible a) (lexemesOf a).lexemes :=
    lexemesOf_eq_iff_lexes.mp (by rw [← hfailure])
  have hends : isTerminator ((symbol.text.toList ++ Text.visible b).headD endMark) = true := by
    cases symbol <;> first | rfl | cases hsymbol
  have hbinary : scanFrom .top (symbol.text.toList ++ Text.visible b ++ [endMark])
      = (lexemesOf b).after (some (.operator (.binary symbol))) := by
    rw [List.append_assoc, scanFrom_binary hsymbol, lexemesOf]
    intro c hc
    rw [headD_append_endMark]
    exact isPair_of_seam hseam hc
  have hlexemes : lexemesOf (a ++ symbol.text ++ b)
      = ⟨(lexemesOf a).lexemes ++ .operator (.binary symbol) :: (lexemesOf b).lexemes,
          (lexemesOf b).failure⟩ := by
    have h := hlexes.scanFrom_append (endMark_not_mem_visible a)
      (dueAfter_eq_false htokens ht hoperand) hends
    rw [hbinary] at h
    rw [lexemesOf, visible_join]
    exact h
  rw [scan, hlexemes, tokensOfScan, tokensOf_append htokens, tokensOf_cons, scan, tokensOfScan]
  cases tokensOf provider (lexemesOf b).lexemes fun g _ => parse provider g with
  | error e => rfl
  | ok rest => cases (lexemesOf b).failure <;> rfl

/-- An exponent is ended by a minus sign, and what stands after the sign is scanned as it is by
itself: a name is found, and a parenthesis that closes nothing is refused. -/
theorem scan_join_exponent : ∃ x,
    scan .sole "1e5" = .ok [.constant (.decimal x)] ∧
      scan .sole "1e5-a"
        = .ok [.constant (.decimal x), .operator (.binary .subtract), .reference "a"] ∧
      scan .sole "1e5-)" = .error (.unexpected ')' .top) := by
  let l : Literal := ⟨['1'], none, some ⟨'e', false, ['5'], .inl rfl, by simp, by simp⟩, by simp,
    by simp, .inl (by simp), by simp⟩
  have hnumber : scan .sole "1e5" = .ok [.constant (.decimal l.numeral.toFloat)] :=
    scan_eq_ok_iff_exists_isCut.mpr
      ⟨[l.text], by decide, .cons (.constant l (by rintro _ ⟨⟩)) (.nil _)⟩
  have hname : scan .sole "a" = .ok [.reference "a"] :=
    (parse_eq_ok_iff.mp (parse_name (show Text.visible "a" = ['a'] by decide) rfl (by simp)
      (by decide))).1
  have hclosing : scan .sole ")" = .error (.unexpected ')' .top) := by
    have hlexemes : lexemesOf ")" = ⟨[], some (.unexpected ')' .top)⟩ := by
      rw [lexemesOf, show Text.visible ")" ++ [endMark] = [')', endMark] by decide,
        scanFrom_start (by decide) (by decide) (by decide)]
      exact scanFrom_cons_of_error rfl
    rw [scan, hlexemes]
    rfl
  refine ⟨_, hnumber, ?_, ?_⟩
  · have h := @scan_join _ _ "a" _ _ .subtract hnumber rfl rfl rfl (by decide)
    rw [hname] at h
    exact h
  · have h := @scan_join _ _ ")" _ _ .subtract hnumber rfl rfl rfl (by decide)
    rw [hclosing] at h
    exact h

end Formulary
