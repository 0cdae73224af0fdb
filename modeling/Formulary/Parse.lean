import Formulary.Arrangement
import Formulary.Scanner

/-!
# Parsing

A text is parsed by finding its lexemes, parsing the text of each group among them, and arranging
the tokens. A group is parsed when it is met, so of two faults the one further left is reported,
wherever it is nested. A group gets the provider of the text that it is in.

## Main definitions

* `Parsed` — the tokens of a text in both orders
* `tokensOf` — the tokens of lexemes, given how to parse their groups
* `scan` — the tokens of a text in the order they were written
* `parse` — the tokens of a text in both orders

## Main results

* `parse_eq` — parsing is scanning and then arranging
-/

namespace Formulary

/-- The tokens of a text: in the order they were written, and in the order they are executed. -/
structure Parsed where
  tokens : List Token
  program : List Token

/-- The tokens of a list of lexemes, the groups parsed from left to right. -/
def tokensOf (provider : Provider) : (lexemes : List Lexeme) →
    (parseGroup : (g : String) → .group g ∈ lexemes → Except ParseError Parsed) →
    Except ParseError (List Token)
  | [], _ => .ok []
  | .group g :: rest, parseGroup =>
    match parseGroup g (by simp) with
    | .error e => .error e
    | .ok p =>
      (tokensOf provider rest fun g' h => parseGroup g' (by simp [h])).map
        (.group g provider g p.tokens p.program :: ·)
  | .constant c :: rest, parseGroup =>
    (tokensOf provider rest fun g' h => parseGroup g' (by simp [h])).map (.constant c :: ·)
  | .reference name :: rest, parseGroup =>
    (tokensOf provider rest fun g' h => parseGroup g' (by simp [h])).map (.reference name :: ·)
  | .operator op :: rest, parseGroup =>
    (tokensOf provider rest fun g' h => parseGroup g' (by simp [h])).map (.operator op :: ·)

/-- The tokens of the lexemes of a text, or the first fault: one in a group comes before the one
that stopped the search for lexemes. -/
def tokensOfScan (provider : Provider) (s : Scan)
    (parseGroup : (g : String) → .group g ∈ s.lexemes → Except ParseError Parsed) :
    Except ParseError (List Token) :=
  match tokensOf provider s.lexemes parseGroup with
  | .error e => .error e
  | .ok tokens =>
    match s.failure with
    | some e => .error e
    | none => .ok tokens

/-- The tokens of a text in both orders, or why it is no formula. -/
def parse (provider : Provider) (source : String) : Except ParseError Parsed :=
  match tokensOfScan provider (lexemesOf source) (fun g _h => parse provider g) with
  | .error e => .error e
  | .ok tokens => (arrange tokens).map fun program => ⟨tokens, program⟩
termination_by source.length
decreasing_by exact length_lt_of_group_mem _h

/-- The tokens of a text in the order they were written, its groups parsed. -/
def scan (provider : Provider) (source : String) : Except ParseError (List Token) :=
  tokensOfScan provider (lexemesOf source) fun g _ => parse provider g

/-- Parsing is scanning and then arranging. -/
theorem parse_eq (provider : Provider) (source : String) :
    parse provider source =
      match scan provider source with
      | .error e => .error e
      | .ok tokens => (arrange tokens).map fun program => ⟨tokens, program⟩ := by
  rw [parse, scan]

/-- What parsing gives is the scanned tokens and their program. -/
theorem parse_eq_ok_iff {provider : Provider} {source : String} {p : Parsed} :
    parse provider source = .ok p ↔
      scan provider source = .ok p.tokens ∧ arrange p.tokens = .ok p.program := by
  rw [parse_eq]
  constructor
  · intro h
    split at h
    · cases h
    · rename_i tokens hs
      cases ha : arrange tokens with
      | error e => simp [ha, Except.map] at h
      | ok program =>
        simp only [ha, Except.map, Except.ok.injEq] at h
        subst h
        exact ⟨hs, ha⟩
  · rintro ⟨hs, ha⟩
    simp [hs, ha, Except.map]

end Formulary
