import Formulary.Proofs.Generated

/-!
# The grammar of tokens

What the scanner does can be said without the scanner. A text, its blanks dropped, is cut from left
to right, and each piece is the text of one token. Which token a piece is depends on three things
only: the piece itself, whether an operand is due where it stands, and the first characters after
it, which must not belong to the piece as well. So there is never a choice, neither of a cut nor of
the tokens, and the scanner finds the only cut that there is.

The tables of the scanner are not mentioned here. A symbol is the longest of all symbols that the
text goes on with, and the characters after a number are written out.

## Main definitions

* `Token.Spelt` — the text of one token, before a given rest
* `Cut`, `IsCut` — texts of tokens, one after another

## Main results

* `Token.Spelt.exists_spells`, `Spells.spelt` — tokens are spelt as their lexemes are
* `Literal.text_inj_of_append`, `Spells.unique` — a text begins with one number, or lexeme, only
* `Cut.unique` — a text is cut in one way only
* `scan_eq_ok_iff_isCut` — the scanner finds the tokens of the cut, and fails if there is none
-/

namespace Formulary

variable {provider : Provider}

/-! ### The texts of tokens -/

/-- The text of a token before a rest, where an operand is due or not. Groups get a provider. -/
inductive Token.Spelt (provider : Provider) (due : Bool) :
    Token → List Char → List Char → Prop where
  /-- A sign before its operand. -/
  | sign {symbol : Symbol} {rest : List Char} (hdue : due = true)
      (hsymbol : symbol = .add ∨ symbol = .subtract) :
      Spelt provider due (.operator (.unary symbol)) symbol.text.toList rest
  /-- A symbol between operands: the longest one that the text goes on with. Where an operand is due
  it does not begin with a sign. -/
  | symbol {symbol : Symbol} {rest : List Char} (hsymbol : symbol.isFunction = false)
      (hsign : due = true → ∀ c ∈ symbol.text.toList.head?, c ≠ '+' ∧ c ≠ '-')
      (hlongest : ∀ other : Symbol, other.isFunction = false →
        other.text.toList <+: symbol.text.toList ++ rest →
          other.text.toList.length ≤ symbol.text.toList.length) :
      Spelt provider due (.operator (.binary symbol)) symbol.text.toList rest
  /-- The name of a function, which ends where a name ends. -/
  | function {symbol : Symbol} {rest : List Char} (hsymbol : symbol.isFunction = true)
      (hends : ∀ c ∈ rest.head?, isNameChar c = false) :
      Spelt provider due (.operator (.unary symbol)) symbol.text.toList rest
  /-- Any other name. -/
  | reference {rest : List Char} (n : Name) (hends : ∀ c ∈ rest.head?, isNameChar c = false) :
      Spelt provider due (.reference (String.ofList n.text)) n.text rest
  /-- A number, which is followed by an operator, by a parenthesis, or by nothing. -/
  | constant {rest : List Char} (l : Literal)
      (hends : ∀ c ∈ rest.head?, c ∈ "+-*/=!()<>".toList) :
      Spelt provider due (.constant l.constant) l.text rest
  /-- A text in parentheses that match, which can be generated as a formula named by itself. -/
  | group {g rest : List Char} {f : Formula} (hbalanced : Balanced g) (hne : g ≠ [])
      (hgenerate : (Formula.ofText (String.ofList g) provider (String.ofList g)).generate
        = (f, .ok ())) :
      Spelt provider due (.group (String.ofList g) provider (String.ofList g) f.tokens f.program)
        ('(' :: g ++ [')']) rest

/-- The texts of tokens, one after another. An operand is due after an operator. -/
inductive Cut (provider : Provider) : (due : Bool) → List (List Char) → List Token → Prop where
  | nil (due : Bool) : Cut provider due [] []
  | cons {due : Bool} {t : Token} {text : List Char} {texts : List (List Char)}
      {tokens : List Token} (hspelt : t.Spelt provider due text texts.flatten)
      (hrest : Cut provider t.isOperator texts tokens) :
      Cut provider due (text :: texts) (t :: tokens)

/-- Whether a text, its blanks dropped, is made of these pieces, and the pieces are the texts of
these tokens. An operand is due at the start. -/
structure IsCut (provider : Provider) (source : String) (texts : List (List Char))
    (tokens : List Token) : Prop where
  flatten : texts.flatten = Text.visible source
  cut : Cut provider true texts tokens

/-! ### The longest symbol -/

/-- Two characters in a row are one symbol if and only if there is a symbol that they spell. -/
theorem isPair_iff {c d : Char} :
    isPair c d = true ↔ ∃ symbol : Symbol, symbol.text.toList = [c, d] := by
  constructor
  · intro h
    unfold isPair at h
    split at h
    · exact ⟨.arrow, rfl⟩
    · exact ⟨.greaterEqual, rfl⟩
    · exact ⟨.lessEqual, rfl⟩
    · exact ⟨.equal, rfl⟩
    · exact ⟨.notEqual, rfl⟩
    · exact ⟨.power, rfl⟩
    · cases h
  · rintro ⟨symbol, h⟩
    cases symbol <;> simp [Symbol.text] at h <;> obtain ⟨rfl, rfl⟩ := h <;> rfl

/-- The names of functions are longer than symbols. -/
theorem Symbol.isFunction_eq_false_of_text {symbol : Symbol} {c d : Char}
    (h : symbol.text.toList = [c, d]) : symbol.isFunction = false := by
  cases symbol <;> first | rfl | simp [Symbol.text] at h

/-- No symbol has more than two characters. -/
theorem Symbol.length_text_le {symbol : Symbol} (h : symbol.isFunction = false) :
    symbol.text.toList.length ≤ 2 := by
  rcases symbol.text_eq_singleton_or_pair h with ⟨c, htext⟩ | ⟨c, d, htext⟩ <;> rw [htext] <;> simp

/-- A symbol is the longest one there is if it makes no pair with the character after it. -/
theorem Symbol.longest_iff {symbol : Symbol} (h : symbol.isFunction = false) (rest : List Char) :
    (∀ other : Symbol, other.isFunction = false →
        other.text.toList <+: symbol.text.toList ++ rest →
          other.text.toList.length ≤ symbol.text.toList.length) ↔
      ∀ c, symbol.text.toList = [c] → isPair c (rest.headD endMark) = false := by
  rcases symbol.text_eq_singleton_or_pair h with ⟨c, htext⟩ | ⟨c, d, htext⟩
  · simp only [htext, List.cons.injEq, and_true, forall_eq']
    constructor
    · intro hlongest
      by_contra hpair
      rw [Bool.not_eq_false] at hpair
      cases rest with
      | nil =>
        rw [List.headD_nil, isPair_eq_false (by decide) c] at hpair
        cases hpair
      | cons d rest =>
        obtain ⟨other, hother⟩ := isPair_iff.mp hpair
        have hle := hlongest other (isFunction_eq_false_of_text hother)
        rw [hother] at hle
        exact absurd (hle ⟨rest, rfl⟩) (by simp)
    · intro hpair other hother hprefix
      rcases other.text_eq_singleton_or_pair hother with ⟨c', htext'⟩ | ⟨c', d', htext'⟩
      · rw [htext']
        exact Nat.le_refl _
      · rw [htext'] at hprefix
        obtain ⟨more, hmore⟩ := hprefix
        cases hmore
        rw [List.headD_cons, isPair_iff.mpr ⟨other, htext'⟩] at hpair
        cases hpair
  · refine ⟨fun _ c' hc' => ?_, fun _ other hother _ => ?_⟩
    · rw [htext] at hc'
      cases hc'
    · rw [htext]
      exact other.length_text_le hother

/-- The symbols that begin with a sign. -/
theorem Symbol.head?_ne_sign_iff (symbol : Symbol) :
    (∀ c ∈ symbol.text.toList.head?, c ≠ '+' ∧ c ≠ '-') ↔
      symbol ∉ [.add, .subtract, .arrow] := by
  cases symbol <;> simp [Symbol.text]

/-! ### Tokens and lexemes -/

/-- A number ends at the end of a text and before the characters of operators and parentheses. -/
theorem isTerminator_headD_iff {rest : List Char} (hend : endMark ∉ rest) :
    isTerminator (rest.headD endMark) = true ↔ ∀ c ∈ rest.head?, c ∈ "+-*/=!()<>".toList := by
  rw [← forall_mem_head?_iff (b := true) rfl]
  refine forall₂_congr fun c hc => ?_
  have hne : c ≠ endMark := by
    rintro rfl
    exact hend (List.mem_of_head? hc)
  rw [isTerminator, isOperatorChar, Bool.or_eq_true, List.contains_iff_mem, beq_iff_eq]
  exact or_iff_right hne

theorem Lexeme.isOperator_of_token {l : Lexeme} {t : Token}
    (h : l.token provider (parse provider) = .ok t) : l.isOperator = t.isOperator := by
  cases l with
  | group g =>
    rw [token] at h
    cases hp : parse provider g with
    | error e => rw [hp] at h; cases h
    | ok p => rw [hp] at h; cases h; rfl
  | constant c => cases h; rfl
  | reference name => cases h; rfl
  | operator op => cases h; rfl

/-- The text of a token is that of its lexeme. -/
theorem Token.Spelt.exists_spells {due : Bool} {t : Token} {text rest : List Char}
    (h : t.Spelt provider due text rest) :
    ∃ l, Spells due l text rest ∧ l.token provider (parse provider) = .ok t := by
  have hname : (∀ c ∈ rest.head?, isNameChar c = false) →
      isNameChar (rest.headD endMark) = false := (forall_mem_head?_iff rfl rest).mp
  cases h with
  | sign hdue hsymbol => exact ⟨_, .sign hdue hsymbol, rfl⟩
  | @symbol symbol _ hsymbol hsign hlongest =>
    exact ⟨_, .binary hsymbol (fun hdue => symbol.head?_ne_sign_iff.mp (hsign hdue))
      ((Symbol.longest_iff hsymbol rest).mp hlongest), rfl⟩
  | function hsymbol hends => exact ⟨_, .function hsymbol (hname hends), rfl⟩
  | reference n hends => exact ⟨_, .reference n (hname hends), rfl⟩
  | constant l hends =>
    have hnext : isTerminator (rest.headD endMark) = true := by
      refine (forall_mem_head?_iff (b := true) rfl rest).mp fun c hc => ?_
      rw [isTerminator, isOperatorChar, List.contains_iff_mem.mpr (hends c hc), Bool.or_true]
    exact ⟨_, .constant l hnext, rfl⟩
  | group hbalanced hne hgenerate =>
    obtain ⟨p, hparse, rfl⟩ := Formula.exists_parse_of_generate hgenerate
    exact ⟨_, .group hbalanced hne, Lexeme.token_group hparse⟩

/-- The text of a lexeme is that of its token, if it has one. -/
theorem Spells.spelt {due : Bool} {l : Lexeme} {t : Token} {text rest : List Char}
    (h : Spells due l text rest) (htoken : l.token provider (parse provider) = .ok t)
    (hend : endMark ∉ rest) :
    t.Spelt provider due text rest := by
  have hname : isNameChar (rest.headD endMark) = false →
      ∀ c ∈ rest.head?, isNameChar c = false := (forall_mem_head?_iff rfl rest).mpr
  cases h with
  | sign hdue hsymbol => cases htoken; exact .sign hdue hsymbol
  | @binary symbol _ hsymbol hdue hnext =>
    cases htoken
    exact .symbol hsymbol (fun h => symbol.head?_ne_sign_iff.mpr (hdue h))
      ((Symbol.longest_iff hsymbol rest).mpr hnext)
  | function hsymbol hnext => cases htoken; exact .function hsymbol (hname hnext)
  | reference n hnext => cases htoken; exact .reference n (hname hnext)
  | constant l hnext => cases htoken; exact .constant l ((isTerminator_headD_iff hend).mp hnext)
  | @group g _ hbalanced hne =>
    cases hparse : parse provider (String.ofList g) with
    | error e => rw [Lexeme.token, hparse] at htoken; cases htoken
    | ok p =>
      rw [Lexeme.token_group hparse] at htoken
      cases htoken
      exact .group hbalanced hne
        (Formula.generate_of_parse
          (f := .ofText (String.ofList g) provider (String.ofList g)) hparse)

/-! ### Texts of tokens and texts of lexemes -/

/-- Texts of tokens are texts of lexemes. -/
theorem Cut.exists_lexes {due : Bool} {texts : List (List Char)} {tokens : List Token}
    (h : Cut provider due texts tokens) :
    ∃ lexemes, Lexes due texts.flatten lexemes ∧
      List.Forall₂ (fun l t => l.token provider (parse provider) = .ok t) lexemes tokens := by
  induction h with
  | nil due => exact ⟨[], .nil due, .nil⟩
  | cons hspelt _ ih =>
    obtain ⟨lexemes, hlexes, htokens⟩ := ih
    obtain ⟨l, hspells, htoken⟩ := hspelt.exists_spells
    rw [← Lexeme.isOperator_of_token htoken] at hlexes
    exact ⟨l :: lexemes, .cons hspells hlexes, .cons htoken htokens⟩

/-- Texts of lexemes that have tokens are texts of tokens. -/
theorem Lexes.exists_cut {due : Bool} {text : List Char} {lexemes : List Lexeme}
    (h : Lexes due text lexemes) (hend : endMark ∉ text) {tokens : List Token}
    (htokens : List.Forall₂ (fun l t => l.token provider (parse provider) = .ok t) lexemes tokens) :
    ∃ texts, texts.flatten = text ∧ Cut provider due texts tokens := by
  induction h generalizing tokens with
  | nil due =>
    cases htokens
    exact ⟨[], rfl, .nil due⟩
  | @cons due l text rest lexemes hspells hrest ih =>
    cases htokens with
    | cons htoken htokens =>
    rw [List.mem_append, not_or] at hend
    obtain ⟨texts, rfl, hcut⟩ := ih hend.2 htokens
    rw [Lexeme.isOperator_of_token htoken] at hcut
    exact ⟨text :: texts, rfl, .cons (hspells.spelt htoken hend.2) hcut⟩

/-! ### One cut only -/

/-- A text goes on with characters of one sort in one way only. -/
theorem append_inj_of_forall {good : Char → Bool} {cs cs' rest rest' : List Char}
    (heq : cs ++ rest = cs' ++ rest') (hcs : ∀ c ∈ cs, good c = true)
    (hcs' : ∀ c ∈ cs', good c = true) (hrest : ∀ c ∈ rest.head?, good c = false)
    (hrest' : ∀ c ∈ rest'.head?, good c = false) : cs = cs' ∧ rest = rest' := by
  obtain ⟨htake, hdrop⟩ := takeWhile_dropWhile_append hcs hrest
  obtain ⟨htake', hdrop'⟩ := takeWhile_dropWhile_append hcs' hrest'
  rw [heq] at htake hdrop
  exact ⟨htake.symm.trans htake', hdrop.symm.trans hdrop'⟩

/-- An exponent ends at the first character after its mark and its sign that is no digit. -/
theorem Exponent.text_inj_of_append {e e' : Exponent} {rest rest' : List Char}
    (heq : e.text ++ rest = e'.text ++ rest') (hrest : ∀ c ∈ rest.head?, c.isDigit = false)
    (hrest' : ∀ c ∈ rest'.head?, c.isDigit = false) : e.text = e'.text := by
  -- A digit is no minus sign, so that one follows both marks or neither.
  have hminus : ∀ {e : Exponent} {more rest : List Char}, '-' :: more ≠ e.digits ++ rest := by
    intro e more rest h
    obtain ⟨d, digits, hd⟩ := List.exists_cons_of_ne_nil e.ne_nil
    rw [hd] at h
    have hdigit := e.isDigit d (by rw [hd]; exact List.mem_cons_self)
    exact (ne_of_isDigit hdigit).2.2.2.1 (List.cons.inj h).1.symm
  rw [text, text, List.cons_append, List.cons_append, List.cons.injEq] at heq
  obtain ⟨hmark, heq⟩ := heq
  rw [text, text, hmark]
  cases hnegative : e.negative <;> cases hnegative' : e'.negative <;>
    simp only [hnegative, hnegative', if_true, Bool.false_eq_true, if_false, List.nil_append,
      List.cons_append] at heq ⊢
  · rw [(append_inj_of_forall heq e.isDigit e'.isDigit hrest hrest').1]
  · exact absurd heq.symm hminus
  · exact absurd heq hminus
  · rw [(append_inj_of_forall (List.cons.inj heq).2 e.isDigit e'.isDigit hrest hrest').1]

/-- The digits and the point of a number end at a character that is neither. -/
theorem Literal.mantissa_inj_of_append {l l' : Literal} {more more' : List Char}
    (heq : l.mantissa ++ more = l'.mantissa ++ more')
    (hmore : ∀ c ∈ more.head?, c.isDigit = false ∧ c ≠ '.')
    (hmore' : ∀ c ∈ more'.head?, c.isDigit = false ∧ c ≠ '.') :
    l.mantissa = l'.mantissa ∧ more = more' := by
  have hgood : ∀ (l : Literal), ∀ c ∈ l.mantissa, (c.isDigit || c == '.') = true := by
    intro l c hc
    rcases List.mem_append.mp hc with hc | hc
    · rw [l.isDigit_whole c hc, Bool.true_or]
    · cases hfraction : l.fraction with
      | none => simp [hfraction] at hc
      | some digits =>
        rw [hfraction] at hc
        rcases List.mem_cons.mp hc with rfl | hc
        · rfl
        · rw [l.isDigit_fraction digits hfraction c hc, Bool.true_or]
  have hbad : ∀ {more : List Char}, (∀ c ∈ more.head?, c.isDigit = false ∧ c ≠ '.') →
      ∀ c ∈ more.head?, (c.isDigit || c == '.') = false := by
    intro more h c hc
    simpa using h c hc
  exact append_inj_of_forall heq (hgood l) (hgood l') (hbad hmore) (hbad hmore')

/-- **Numbers end in one place.** Where two numbers begin a text, each followed by a character that
ends it, they have one text. -/
theorem Literal.text_inj_of_append {l l' : Literal} {rest rest' : List Char}
    (heq : l.text ++ rest = l'.text ++ rest') (hnext : isTerminator (rest.headD endMark) = true)
    (hnext' : isTerminator (rest'.headD endMark) = true) : l.text = l'.text := by
  have hrest : ∀ {rest : List Char}, isTerminator (rest.headD endMark) = true →
      ∀ c ∈ rest.head?, c.isDigit = false ∧ c ≠ '.' ∧ c ≠ 'e' ∧ c ≠ 'E' :=
    fun h c hc => ne_of_isTerminator ((forall_mem_head?_iff rfl _).mpr h c hc)
  have htail : ∀ (l : Literal) {rest : List Char}, isTerminator (rest.headD endMark) = true →
      ∀ c ∈ (l.exponent.elim [] Exponent.text ++ rest).head?, c.isDigit = false ∧ c ≠ '.' := by
    intro l rest h c hc
    cases hexponent : l.exponent with
    | none =>
      rw [hexponent] at hc
      obtain ⟨hdigit, hpoint, -⟩ := hrest h c hc
      exact ⟨hdigit, hpoint⟩
    | some e =>
      rw [hexponent] at hc
      cases hc
      rcases e.mark_eq with hmark | hmark <;> rw [hmark] <;> decide
  -- A mark is not a character that ends a number, so that both have an exponent or neither.
  have hmark : ∀ {e : Exponent} {more rest : List Char}, isTerminator (rest.headD endMark) = true →
      e.text ++ more ≠ rest := by
    rintro e more _ h rfl
    obtain ⟨-, -, he, hE⟩ := hrest h e.mark rfl
    exact e.mark_eq.elim he hE
  rw [text_eq_mantissa_append, text_eq_mantissa_append, List.append_assoc, List.append_assoc] at heq
  obtain ⟨hmantissa, heq⟩ := mantissa_inj_of_append heq (htail l hnext) (htail l' hnext')
  rw [text_eq_mantissa_append, text_eq_mantissa_append, hmantissa]
  cases hexponent : l.exponent with
  | none =>
    cases hexponent' : l'.exponent with
    | none => rfl
    | some e' =>
      rw [hexponent, hexponent'] at heq
      exact absurd heq.symm (hmark hnext)
  | some e =>
    cases hexponent' : l'.exponent with
    | none =>
      rw [hexponent, hexponent'] at heq
      exact absurd heq (hmark hnext')
    | some e' =>
      rw [hexponent, hexponent'] at heq
      exact congrArg _ (Exponent.text_inj_of_append heq (fun c hc => (hrest hnext c hc).1)
        fun c hc => (hrest hnext' c hc).1)

/-- **A text begins with one lexeme only.** Of two lexemes that a text begins with, each spelt
before its rest, both are the same and spelt alike. -/
theorem Spells.unique {due : Bool} {l l' : Lexeme} {text text' rest rest' : List Char}
    (h : Spells due l text rest) (h' : Spells due l' text' rest')
    (heq : text ++ rest = text' ++ rest') (hend : endMark ∉ text ++ rest) :
    l = l' ∧ text = text' := by
  have hend' : endMark ∉ text' ++ rest' := heq ▸ hend
  rw [List.mem_append, not_or] at hend hend'
  -- Both are the lexeme that the scanner finds.
  have hfound := h.scanFrom_eq hend.1
  rw [← List.append_assoc, heq, List.append_assoc, h'.scanFrom_eq hend'.1] at hfound
  have hl : l = l' := by
    have := congrArg Scan.lexemes hfound
    rw [Scan.lexemes_after, Scan.lexemes_after] at this
    exact (List.cons.inj this).1.symm
  subst hl
  refine ⟨rfl, ?_⟩
  cases h with
  | sign _ _ => cases h' <;> rfl
  | binary _ _ _ => cases h'; rfl
  | function _ _ => cases h' <;> rfl
  | reference n _ =>
    generalize hname : String.ofList n.text = name at h'
    cases h' with
    | reference n' _ => exact String.ofList_injective hname
  | constant k hnext =>
    generalize hvalue : k.constant = value at h'
    cases h' with
    | constant k' hnext' => exact Literal.text_inj_of_append heq hnext hnext'
  | @group g _ _ _ =>
    generalize hsource : String.ofList g = source at h'
    cases h' with
    | group _ _ =>
      obtain rfl := String.ofList_injective hsource
      rfl

/-- **A text is cut in one way only.** -/
theorem Cut.unique {due : Bool} {texts texts' : List (List Char)} {tokens tokens' : List Token}
    (h : Cut provider due texts tokens) (h' : Cut provider due texts' tokens')
    (heq : texts.flatten = texts'.flatten) (hend : endMark ∉ texts.flatten) :
    texts = texts' ∧ tokens = tokens' := by
  induction h generalizing texts' tokens' with
  | nil due =>
    cases h' with
    | nil => exact ⟨rfl, rfl⟩
    | cons hspelt' _ =>
      obtain ⟨_, hspells', -⟩ := hspelt'.exists_spells
      exact absurd (List.append_eq_nil_iff.mp heq.symm).1 hspells'.text_ne_nil
  | cons hspelt _ ih =>
    obtain ⟨l, hspells, htoken⟩ := hspelt.exists_spells
    cases h' with
    | nil => exact absurd (List.append_eq_nil_iff.mp heq).1 hspells.text_ne_nil
    | cons hspelt' hrest' =>
      obtain ⟨l', hspells', htoken'⟩ := hspelt'.exists_spells
      obtain ⟨rfl, rfl⟩ := hspells.unique hspells' heq hend
      obtain rfl := Except.ok.inj (htoken.symm.trans htoken')
      rw [List.flatten_cons, List.mem_append, not_or] at hend
      obtain ⟨rfl, rfl⟩ := ih hrest' (List.append_cancel_left heq) hend.2
      exact ⟨rfl, rfl⟩

/-- What is scanned is cut, and what is cut is scanned. -/
theorem scan_eq_ok_iff_exists_isCut {source : String} {tokens : List Token} :
    scan provider source = .ok tokens ↔ ∃ texts, IsCut provider source texts tokens := by
  have hend := endMark_not_mem_visible source
  rw [scan_eq_ok_iff]
  constructor
  · rintro ⟨hfailure, htokens⟩
    have hlexes := lexemesOf_eq_iff_lexes.mp (show lexemesOf source = ⟨_, none⟩ by rw [← hfailure])
    obtain ⟨texts, hflatten, hcut⟩ := hlexes.exists_cut hend htokens
    exact ⟨texts, hflatten, hcut⟩
  · rintro ⟨texts, hflatten, hcut⟩
    obtain ⟨lexemes, hlexes, htokens⟩ := hcut.exists_lexes
    rw [hflatten] at hlexes
    rw [lexemesOf_eq_iff_lexes.mpr hlexes]
    exact ⟨rfl, htokens⟩

/-- A text that is cut parses if its tokens can be arranged. -/
theorem parse_of_isCut {source : String} {texts : List (List Char)} {tokens program : List Token}
    (h : IsCut provider source texts tokens) (harrange : arrange tokens = .ok program) :
    parse provider source = .ok ⟨tokens, program⟩ :=
  parse_eq_ok_iff.mpr ⟨scan_eq_ok_iff_exists_isCut.mpr ⟨texts, h⟩, harrange⟩

/-- **The grammar of tokens.** A text is scanned as tokens exactly when it is cut into their texts;
it is cut in one way only; and scanning fails exactly when it is not cut at all. -/
theorem scan_eq_ok_iff_isCut (provider : Provider) (source : String) :
    (∀ tokens, scan provider source = .ok tokens ↔ ∃ texts, IsCut provider source texts tokens) ∧
      (∀ texts tokens texts' tokens', IsCut provider source texts tokens →
        IsCut provider source texts' tokens' → texts = texts' ∧ tokens = tokens') ∧
      ((∃ e, scan provider source = .error e) ↔
        ¬ ∃ texts tokens, IsCut provider source texts tokens) := by
  refine ⟨fun tokens => scan_eq_ok_iff_exists_isCut, fun texts tokens texts' tokens' h h' => ?_, ?_⟩
  · refine h.cut.unique h'.cut (h.flatten.trans h'.flatten.symm) ?_
    rw [h.flatten]
    exact endMark_not_mem_visible source
  · have hnot : (¬ ∃ texts tokens, IsCut provider source texts tokens) ↔
        ∀ tokens, scan provider source ≠ .ok tokens := by
      simp only [ne_eq, scan_eq_ok_iff_exists_isCut, not_exists]
      exact forall_comm
    rw [hnot]
    cases scan provider source with
    | error e => simp
    | ok tokens => simp

/-- A minus sign after the name of a function, one in an arrow, and a number that begins with its
point. -/
theorem scan_function_sign_arrow :
    ∃ x, scan .sole "sin -a -> .5" = .ok [.operator (.unary .sin), .operator (.unary .subtract),
      .reference "a", .operator (.binary .arrow), .constant (.decimal x)] := by
  let l : Literal := ⟨[], some ['5'], none, by simp, by simp, .inr rfl, by simp⟩
  let n : Name := ⟨'a', [], rfl, by simp, by decide⟩
  let texts := [Symbol.sin.text.toList, Symbol.subtract.text.toList, n.text,
    Symbol.arrow.text.toList, l.text]
  refine ⟨l.numeral.toFloat, ((scan_eq_ok_iff_isCut _ _).1 _).mpr ⟨texts, by decide, ?_⟩⟩
  refine .cons (.function rfl (by rintro _ ⟨⟩; rfl)) ?_
  refine .cons (.sign rfl (.inr rfl)) ?_
  refine .cons (.reference n (by rintro _ ⟨⟩; rfl)) ?_
  refine .cons (.symbol rfl (by rintro ⟨⟩) fun other hother _ => other.length_text_le hother) ?_
  exact .cons (.constant l (by rintro _ ⟨⟩)) (.nil _)

end Formulary
