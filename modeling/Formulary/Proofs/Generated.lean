import Formulary.Proofs.Lexing
import Formulary.Proofs.Programs

/-!
# Generated formulas

A formula is given a text, its text is parsed, the formula is evaluated, and it may be given another
text at any time. Whatever has been done to it, one of two things holds: it keeps nothing, or it
holds what its text parses to. A formula of the second kind is generated, and what is true of all
texts that parse is true of it.

What is true of all texts that parse can be shown from the inside out: a group in a text that parses
holds what its own, shorter text parses to. It also has the provider of the text, and since nothing
that is done to a formula changes a provider, the groups in a formula ask whom the formula asks.

## Main definitions

* `Formula.Made` — the formulas that there can be
* `Formula.IsGenerated` — whether a formula holds what its text parses to
* `Formula.SharesProvider` — whether the groups of a formula have its provider
* `Operator.IsWritable` — operators as they stand in texts

## Main results

* `Formula.Made.isGenerated_or_keeps_nothing` — a formula is generated or keeps nothing
* `parse_induction` — what passes from groups to the texts around them holds of every text
* `Nested.parse_eq` — a group at any depth holds what its own text parses to
* `Formula.Made.sharesProvider` — whatever is done to a formula, its groups have its provider
* `isWritable_of_mem` — the operators of a text stand where they can be written
-/

namespace Formulary

variable {provider : Provider}

/-! ### Formulas as they come about -/

namespace Formula

/-- Whether a formula holds the tokens that its text parses to, in both orders. -/
def IsGenerated (f : Formula) : Prop := parse f.provider f.source = .ok ⟨f.tokens, f.program⟩

/-- The formulas that there can be: made with a text and without tokens, and changed by what can be
done to formulas. -/
inductive Made : Formula → Prop where
  | ofText (name : String) (provider : Provider) (source : String) :
      Made (ofText name provider source)
  | setText {f : Formula} (h : Made f) (source : String) : Made (f.setText source)
  | generate {f : Formula} (h : Made f) : Made f.generate.1
  | update {f : Formula} (h : Made f) (lib : MathLibrary) (bindings : Bindings) :
      Made (f.update lib bindings).1

theorem Made.of_parse (name : String) {source : String} {p : Parsed}
    (h : parse provider source = .ok p) :
    Made ⟨name, provider, source, p.tokens, p.program, none⟩ := by
  have hmade := (Made.ofText name provider source).generate
  rwa [generate_of_parse h] at hmade

/-- Where the generation of a formula succeeds, its text parses and it holds the tokens. -/
theorem exists_parse_of_generate {f g : Formula} (h : f.generate = (g, .ok ())) :
    ∃ p, parse f.provider f.source = .ok p ∧
      g = ⟨f.name, f.provider, f.source, p.tokens, p.program, none⟩ := by
  cases hparse : parse f.provider f.source with
  | error e =>
    rw [generate_of_parse_error hparse] at h
    cases h
  | ok p =>
    rw [generate_of_parse hparse] at h
    cases h
    exact ⟨p, rfl, rfl⟩

/-- A formula whose generation succeeds is generated. -/
theorem isGenerated_of_generate {f g : Formula} (h : f.generate = (g, .ok ())) :
    g.IsGenerated := by
  obtain ⟨p, hparse, rfl⟩ := exists_parse_of_generate h
  exact hparse

/-- **There is no third kind.** A formula is generated or keeps nothing. -/
theorem Made.isGenerated_or_keeps_nothing {f : Formula} (h : f.Made) :
    f.IsGenerated ∨ f.tokens = [] ∧ f.program = [] ∧ f.lastValue = none := by
  induction h with
  | ofText name provider source => exact .inr ⟨rfl, rfl, rfl⟩
  | setText _ source _ => exact .inr ⟨rfl, rfl, rfl⟩
  | @generate f _ _ =>
    rw [Formula.generate]
    split
    · exact .inr ⟨rfl, rfl, rfl⟩
    · rename_i hp
      exact .inl hp
  | @update f _ lib bindings ih =>
    rcases ih with ih | ⟨htokens, hprogram, hvalue⟩
    · rw [update_eq]
      exact .inl ih
    · -- Without a program there is nothing to evaluate.
      have hfails : f.value lib bindings = .error (.notGenerated f.name) := by
        rw [value, whenGenerated, hprogram]
        rfl
      rw [Formula.update, hfails]
      exact .inr ⟨htokens, hprogram, hvalue⟩

theorem Made.isGenerated_or_eq_nil {f : Formula} (h : f.Made) :
    f.IsGenerated ∨ f.program = [] :=
  h.isGenerated_or_keeps_nothing.imp_right fun hnothing => hnothing.2.1

namespace IsGenerated

variable {f : Formula} (hf : f.IsGenerated)

include hf

theorem checkShape : checkShape f.program = .ok () := checkShape_of_parse hf

theorem program_ne_nil : f.program ≠ [] := program_ne_nil_of_parse hf

theorem exists_isComparison : ∃ comparison, f.isComparison = .ok comparison :=
  exists_isComparison_of_checkShape hf.checkShape

theorem value_eq (lib : MathLibrary) (bindings : Bindings) :
    f.value lib bindings = valueOf lib (f.environment bindings) f.program :=
  value_of_checkShape hf.checkShape lib bindings

end IsGenerated

/-- A formula that is not generated cannot be classified. -/
theorem isComparison_of_program_eq_nil {f : Formula} (h : f.program = []) :
    f.isComparison = .error (.notGenerated f.name) := by
  rw [isComparison, whenGenerated, h]
  rfl

end Formula

/-! ### From the inside out -/

/-- Blanks make no difference to what a text parses to. -/
theorem parse_eq_of_visible_eq {source source' : String}
    (h : Text.visible source = Text.visible source') :
    parse provider source = parse provider source' := by
  have hlexemes : lexemesOf source = lexemesOf source' := by
    rw [lexemesOf, lexemesOf, h]
  rw [parse_eq, parse_eq, scan, scan, hlexemes]

/-- A text that parses is cut into lexemes, and its tokens are those of the lexemes. -/
theorem lexes_of_parse {source : String} {p : Parsed} (h : parse provider source = .ok p) :
    Lexes true (Text.visible source) (lexemesOf source).lexemes ∧
      List.Forall₂ (fun l t => l.token provider (parse provider) = .ok t)
        (lexemesOf source).lexemes p.tokens := by
  obtain ⟨hfailure, htokens⟩ := scan_eq_ok_iff.mp (parse_eq_ok_iff.mp h).1
  exact ⟨lexemesOf_eq_iff_lexes.mp (by rw [← hfailure]), htokens⟩

/-- A text that is cut into lexemes parses if these have tokens that can be arranged. -/
theorem parse_of_lexes {source : String} {lexemes : List Lexeme} {tokens program : List Token}
    (h : Lexes true (Text.visible source) lexemes)
    (htokens : List.Forall₂ (fun l t => l.token provider (parse provider) = .ok t) lexemes tokens)
    (hprogram : arrange tokens = .ok program) : parse provider source = .ok ⟨tokens, program⟩ :=
  parse_of_lexemesOf (lexemesOf_eq_iff_lexes.mpr h) htokens hprogram

/-- The text of a group is shorter than the text that the group stands in. -/
theorem length_lt_of_token_group_mem {source : String} {p : Parsed}
    (h : parse provider source = .ok p) {name : String} {provider' : Provider} {inner : String}
    {written program : List Token}
    (hmem : .group name provider' inner written program ∈ p.tokens) :
    inner.length < source.length := by
  obtain ⟨l, hl, htoken⟩ := exists_lexeme_of_mem (lexes_of_parse h).2 hmem
  obtain ⟨rfl, -⟩ := Lexeme.eq_of_token_eq_group htoken
  exact length_lt_of_group_mem hl

/-- What holds of a text that parses if it holds of its groups holds of every text that parses. -/
theorem parse_induction {motive : String → Parsed → Prop}
    (step : ∀ {source p}, parse provider source = .ok p →
      (∀ {name provider' inner written program},
        .group name provider' inner written program ∈ p.tokens →
          motive inner ⟨written, program⟩) → motive source p)
    {source : String} {p : Parsed} (h : parse provider source = .ok p) : motive source p := by
  induction hlength : source.length using Nat.strong_induction_on generalizing source p with
  | _ n ih =>
    refine step h fun hmem => ?_
    have hlt := length_lt_of_token_group_mem h hmem
    exact ih _ (hlength ▸ hlt) (parse_of_group_mem h hmem).2.2 rfl

/-- The program of a text has the tokens of the text, in another order. -/
theorem program_perm_tokens {source : String} {p : Parsed} (h : parse provider source = .ok p) :
    p.program.Perm p.tokens := by
  obtain ⟨harrange, -⟩ := arrange_eq_ok_iff.mp (parse_eq_ok_iff.mp h).2
  rw [← harrange]
  exact arrangeOnto_perm [] p.tokens

/-- A formula stands in parentheses as it is: it is not empty, and its parentheses match. -/
theorem balanced_of_parse {source : String} {p : Parsed} (h : parse provider source = .ok p) :
    Balanced (Text.visible source) ∧ Text.visible source ≠ [] := by
  obtain ⟨hlexes, htokens⟩ := lexes_of_parse h
  refine ⟨hlexes.balanced, fun hempty => ?_⟩
  rw [hlexes.eq_nil hempty, List.forall₂_nil_left_iff] at htokens
  have hprogram := program_perm_tokens h
  rw [htokens] at hprogram
  exact program_ne_nil_of_parse h hprogram.eq_nil

/-! ### One provider -/

/-- **Groups hold what their texts parse to**, at any depth, and have the provider of the text that
they are in. -/
theorem Nested.parse_eq {name : String} {provider' : Provider} {source : String}
    {tokens program outer : List Token} (h : Nested name provider' source tokens program outer)
    {text : String} {p : Parsed} (hp : parse provider text = .ok p) (houter : outer ⊆ p.tokens) :
    name = source ∧ provider' = provider ∧ parse provider source = .ok ⟨tokens, program⟩ := by
  induction h generalizing text p with
  | here hmem => exact parse_of_group_mem hp (houter hmem)
  | written hmem _ ih => exact ih (parse_of_group_mem hp (houter hmem)).2.2 (List.Subset.refl _)
  | executed hmem _ ih =>
    have hgroup := (parse_of_group_mem hp (houter hmem)).2.2
    exact ih hgroup (program_perm_tokens hgroup).subset

/-- **A text has one provider.** Its groups at every depth have the provider it is parsed for. -/
theorem sharesProvider_tokens {source : String} {p : Parsed} (h : parse provider source = .ok p) :
    SharesProvider provider p.tokens :=
  fun _ _ _ _ _ hnested => (hnested.parse_eq h (List.Subset.refl _)).2.1

theorem sharesProvider_program {source : String} {p : Parsed} (h : parse provider source = .ok p) :
    SharesProvider provider p.program :=
  (sharesProvider_tokens h).mono (program_perm_tokens h).subset

/-- A group of a text that parses is a generated formula. -/
theorem isGenerated_of_toToken_mem {source : String} {p : Parsed}
    (h : parse provider source = .ok p) {f : Formula} (hmem : f.toToken ∈ p.tokens) :
    f.IsGenerated := by
  obtain ⟨-, rfl, hinner⟩ := parse_of_group_mem h hmem
  exact hinner

namespace Formula

/-- Whether the groups of a formula, at any depth and in both of its orders, have its provider. -/
structure SharesProvider (f : Formula) : Prop where
  tokens : Formulary.SharesProvider f.provider f.tokens
  program : Formulary.SharesProvider f.provider f.program

theorem IsGenerated.sharesProvider {f : Formula} (h : f.IsGenerated) : f.SharesProvider :=
  ⟨sharesProvider_tokens h, sharesProvider_program h⟩

/-- **Whatever is done to a formula, its groups have its provider.** -/
theorem Made.sharesProvider {f : Formula} (h : f.Made) : f.SharesProvider := by
  rcases h.isGenerated_or_keeps_nothing with hgenerated | ⟨htokens, hprogram, -⟩
  · exact hgenerated.sharesProvider
  · exact ⟨htokens ▸ sharesProvider_nil, hprogram ▸ sharesProvider_nil⟩

end Formula

/-! ### Operators -/

/-- Whether an operator can be written as it is: a sign or a function before one operand, and
anything but a function between two. -/
def Operator.IsWritable (op : Operator) : Prop :=
  match op.arity with
  | .unary => op.symbol.IsLeading
  | .binary => op.symbol.isFunction = false

theorem Spells.isWritable {due : Bool} {op : Operator} {text rest : List Char}
    (h : Spells due (.operator op) text rest) : op.IsWritable := by
  cases h with
  | sign _ hsymbol => exact hsymbol.imp_right .inl
  | binary hsymbol _ _ => exact hsymbol
  | function hsymbol _ => exact .inr (.inr hsymbol)

/-- The operators of a text that parses can be written as they are. -/
theorem isWritable_of_mem {source : String} {p : Parsed} (h : parse provider source = .ok p)
    {op : Operator} (hop : .operator op ∈ p.tokens) : op.IsWritable := by
  obtain ⟨hlexes, htokens⟩ := lexes_of_parse h
  obtain ⟨l, hl, htoken⟩ := exists_lexeme_of_mem htokens hop
  obtain rfl := Lexeme.eq_lexeme_of_token htoken
  obtain ⟨due, text, rest, hspells, -⟩ := hlexes.exists_spells_of_mem hl
  exact hspells.isWritable

end Formulary
