import Formulary.Parse
import Formulary.Proofs.Scanning
import Mathlib.Data.List.Forall2

/-!
# Groups at any depth

The tokens of a text are those of its lexemes, one by one, and the token of a group holds what the
text of the group parses to. So a parsed formula holds the tokens of its groups, which hold the
tokens of theirs, and all of them come about in one way. What is true of the tokens of every text
that parses is therefore true at every depth.

## Main definitions

* `Lexeme.token`, `Token.lexeme` — the token of a lexeme, and the lexeme of a token
* `Within` — the token lists of a list of tokens, its own and those of its groups

## Main results

* `scan_eq_ok_iff` — the tokens of a text are those of its lexemes
* `parse_of_group_mem` — a group holds what its text parses to
* `exists_parse_of_within` — every token list of a parsed text is that of a text that parses
-/

namespace Formulary

variable {provider : Provider}

/-! ### Tokens of lexemes -/

/-- The token of a lexeme, given the provider of the text and how to parse the text of a group. -/
def Lexeme.token (provider : Provider) (parseGroup : String → Except ParseError Parsed) :
    Lexeme → Except ParseError Token
  | .constant c => .ok (.constant c)
  | .reference name => .ok (.reference name)
  | .operator op => .ok (.operator op)
  | .group g => (parseGroup g).map fun p => .group g provider g p.tokens p.program

theorem tokensOf_cons (parseGroup : String → Except ParseError Parsed) (l : Lexeme)
    (rest : List Lexeme) :
    tokensOf provider (l :: rest) (fun g _ => parseGroup g) =
      match l.token provider parseGroup with
      | .error e => .error e
      | .ok t => (tokensOf provider rest fun g _ => parseGroup g).map (t :: ·) := by
  cases l with
  | group g =>
    rw [tokensOf, Lexeme.token]
    cases parseGroup g <;> rfl
  | constant c => rw [tokensOf]; rfl
  | reference name => rw [tokensOf]; rfl
  | operator op => rw [tokensOf]; rfl

/-- Lexemes have tokens when each of them has, and then have those. -/
theorem tokensOf_eq_ok_iff {parseGroup : String → Except ParseError Parsed}
    {lexemes : List Lexeme} {tokens : List Token} :
    tokensOf provider lexemes (fun g _ => parseGroup g) = .ok tokens ↔
      List.Forall₂ (fun l t => l.token provider parseGroup = .ok t) lexemes tokens := by
  induction lexemes generalizing tokens with
  | nil =>
    rw [tokensOf, List.forall₂_nil_left_iff, Except.ok.injEq, eq_comm]
  | cons l rest ih =>
    rw [tokensOf_cons, List.forall₂_cons_left_iff]
    cases hl : l.token provider parseGroup with
    | error e => simp
    | ok t =>
      simp only [← ih]
      cases hrest : tokensOf provider rest fun g _ => parseGroup g with
      | error e => simp [Except.map]
      | ok ts => simp [Except.map, eq_comm]

/-- The tokens of a text are those of its lexemes, which have to reach its end. -/
theorem scan_eq_ok_iff {source : String} {tokens : List Token} :
    scan provider source = .ok tokens ↔ (lexemesOf source).failure = none ∧
      List.Forall₂ (fun l t => l.token provider (parse provider) = .ok t)
        (lexemesOf source).lexemes tokens := by
  rw [scan, tokensOfScan, ← tokensOf_eq_ok_iff]
  cases tokensOf provider (lexemesOf source).lexemes fun g _ => parse provider g with
  | error e => simp
  | ok ts => cases (lexemesOf source).failure <;> simp

/-- A text parses to the tokens of its lexemes and to their arrangement. -/
theorem parse_of_lexemesOf {source : String} {lexemes : List Lexeme} {tokens program : List Token}
    (h : lexemesOf source = ⟨lexemes, none⟩)
    (htokens : List.Forall₂ (fun l t => l.token provider (parse provider) = .ok t) lexemes tokens)
    (hprogram : arrange tokens = .ok program) : parse provider source = .ok ⟨tokens, program⟩ := by
  refine parse_eq_ok_iff.mpr ⟨scan_eq_ok_iff.mpr ?_, hprogram⟩
  rw [h]
  exact ⟨rfl, htokens⟩

/-- A text that is a name is one operand. -/
theorem parse_name {source : String} {c : Char} {cs : List Char}
    (h : Text.visible source = c :: cs) (hc : c.isAlpha = true)
    (hcs : ∀ d ∈ cs, isNameChar d = true)
    (hname : Symbol.ofText? (String.ofList (c :: cs)) = none) :
    parse provider source = .ok ⟨[.reference (String.ofList (c :: cs))],
      [.reference (String.ofList (c :: cs))]⟩ := by
  have hlexemes : lexemesOf source = ⟨[.reference (String.ofList (c :: cs))], none⟩ := by
    rw [lexemesOf, h, List.cons_append, scanFrom_start_of_isAlpha hc, ← List.cons_append,
      scanFrom_reference hc hcs hname rfl, scanFrom_top_end]
    rfl
  exact parse_of_lexemesOf hlexemes (.cons rfl .nil) rfl

/-- The token of a group whose text parses. -/
theorem Lexeme.token_group {parseGroup : String → Except ParseError Parsed} {g : String}
    {p : Parsed} (h : parseGroup g = .ok p) :
    (Lexeme.group g).token provider parseGroup = .ok (.group g provider g p.tokens p.program) := by
  rw [token, h]
  rfl

/-! ### Nesting -/

/-- The token lists in a list of tokens: the list itself, and those in the groups of such a list. -/
inductive Within : List Token → List Token → Prop where
  /-- The list itself. -/
  | self (tokens : List Token) : Within tokens tokens
  /-- A list in a group. -/
  | group {inner tokens : List Token} {name : String} {provider : Provider} {source : String}
      {written program : List Token}
      (hmem : .group name provider source written program ∈ tokens) (h : Within inner written) :
      Within inner tokens

/-- Each token of a text is that of one of its lexemes. -/
theorem exists_lexeme_of_mem {parseGroup : String → Except ParseError Parsed}
    {lexemes : List Lexeme} {tokens : List Token}
    (h : List.Forall₂ (fun l t => l.token provider parseGroup = .ok t) lexemes tokens) {t : Token}
    (ht : t ∈ tokens) : ∃ l ∈ lexemes, l.token provider parseGroup = .ok t := by
  induction h with
  | nil => cases ht
  | cons hl _ ih =>
    rcases List.mem_cons.mp ht with rfl | ht
    · exact ⟨_, List.mem_cons_self, hl⟩
    · obtain ⟨l, hmem, hl⟩ := ih ht
      exact ⟨l, List.mem_cons_of_mem _ hmem, hl⟩

/-- The lexeme that a token was made of. -/
def Token.lexeme : Token → Lexeme
  | .constant c => .constant c
  | .reference name => .reference name
  | .operator op => .operator op
  | .group _ _ source _ _ => .group source

/-- A lexeme can be told from its token. -/
theorem Lexeme.eq_lexeme_of_token {parseGroup : String → Except ParseError Parsed} {l : Lexeme}
    {t : Token} (h : l.token provider parseGroup = .ok t) : l = t.lexeme := by
  cases l with
  | group g =>
    rw [token] at h
    cases hp : parseGroup g with
    | error e => rw [hp] at h; cases h
    | ok p =>
      rw [hp] at h
      cases h
      rfl
  | constant c => cases h; rfl
  | reference name => cases h; rfl
  | operator op => cases h; rfl

/-- Only a text in parentheses gives a group, which is named by the text, gets the provider, and
holds what the text parses to. -/
theorem Lexeme.eq_of_token_eq_group {parseGroup : String → Except ParseError Parsed} {l : Lexeme}
    {name : String} {provider' : Provider} {source : String} {written program : List Token}
    (h : l.token provider parseGroup = .ok (.group name provider' source written program)) :
    l = .group source ∧ name = source ∧ provider' = provider ∧
      parseGroup source = .ok ⟨written, program⟩ := by
  obtain rfl := eq_lexeme_of_token h
  rw [Token.lexeme, token] at h
  cases hp : parseGroup source with
  | error e => rw [hp] at h; cases h
  | ok p =>
    rw [hp] at h
    cases h
    exact ⟨rfl, rfl, rfl, rfl⟩

/-- A group is named by its text, has the provider of the text that it is in, and holds what its
text parses to. -/
theorem parse_of_group_mem {source : String} {p : Parsed} (h : parse provider source = .ok p)
    {name : String} {provider' : Provider} {inner : String} {written program : List Token}
    (hmem : .group name provider' inner written program ∈ p.tokens) :
    name = inner ∧ provider' = provider ∧ parse provider inner = .ok ⟨written, program⟩ := by
  obtain ⟨_, htokens⟩ := scan_eq_ok_iff.mp (parse_eq_ok_iff.mp h).1
  obtain ⟨l, _, hl⟩ := exists_lexeme_of_mem htokens hmem
  exact (Lexeme.eq_of_token_eq_group hl).2

/-- **Every depth is the top of a text.** The token lists in a parsed text are those of texts that
parse. -/
theorem exists_parse_of_within {source : String} {p : Parsed} (h : parse provider source = .ok p)
    {tokens : List Token} (hw : Within tokens p.tokens) :
    ∃ inner program, parse provider inner = .ok ⟨tokens, program⟩ := by
  generalize hp : p.tokens = outer at hw
  induction hw generalizing source p with
  | self => exact ⟨source, p.program, by rw [h, ← hp]⟩
  | group hmem _ ih =>
    subst hp
    exact ih (parse_of_group_mem h hmem).2.2 rfl

end Formulary
