import Formulary.Proofs.Generated

/-!
# Parentheses around formulas

What stands in parentheses is found by counting, before anything is known about it. Whether it is a
formula is found by scanning it as a text of its own, in which groups are found by counting again.
The two agree on parentheses. A text that parses has parentheses that match, and any text whose
parentheses match is the text of a single group where it stands in parentheses, whatever else it
is.

So parentheses around a text change nothing of what becomes of it, with one exception. They make a
single token of it, and a formula of one token gives a number, even if what is in the parentheses
compares.

## Main definitions

* `Formula.Encloses` — whether a formula is another one in parentheses

## Main results

* `parse_parens` — a text in parentheses parses when the text does, and fails as it does
* `Formula.encloses_of_group` — a formula that is a group is what stands in it, in parentheses
* `generate_parens` — formulas have parentheses that match, and parentheses around them change
  nothing but whether they compare
-/

namespace Formulary

variable {lib : MathLibrary} {env : Environment} {provider : Provider}

/-! ### Texts -/

section Texts

variable {t : String} (hbalanced : Balanced (Text.visible t)) (hne : Text.visible t ≠ [])

theorem visible_parens (t : String) :
    Text.visible ("(" ++ t ++ ")") = '(' :: Text.visible t ++ [')'] := by
  rw [Text.visible, String.toList_append, String.toList_append, List.filter_append,
    List.filter_append]
  rfl

include hbalanced hne

/-- A text whose parentheses match is one lexeme where it stands in parentheses. -/
theorem lexemesOf_parens :
    lexemesOf ("(" ++ t ++ ")") = ⟨[.group (String.ofList (Text.visible t))], none⟩ := by
  have hlexes : Lexes true ('(' :: Text.visible t ++ [')'] ++ [])
      [.group (String.ofList (Text.visible t))] :=
    .cons (.group hbalanced hne) (.nil _)
  rw [lexemesOf_eq_iff_lexes, visible_parens]
  rwa [List.append_nil] at hlexes

/-- **Parentheses around a text.** A text in parentheses that match parses when the text does, and
then it is a single group; and otherwise it fails as the text does. -/
theorem parse_parens (provider : Provider) :
    parse provider ("(" ++ t ++ ")") = (parse provider t).map fun p =>
      let group := .group (String.ofList (Text.visible t)) provider (String.ofList (Text.visible t))
        p.tokens p.program
      ⟨[group], [group]⟩ := by
  have hvisible : parse provider (String.ofList (Text.visible t)) = parse provider t :=
    parse_eq_of_visible_eq (Text.visible_ofList_visible t)
  rw [parse_eq, scan, lexemesOf_parens hbalanced hne, tokensOfScan, tokensOf_cons, Lexeme.token,
    hvisible]
  cases parse provider t with
  | error e => rfl
  | ok p => rfl

end Texts

/-! ### Groups -/

section Groups

variable {name source : String} {tokens program : List Token}

theorem references_group :
    references [.group name provider source tokens program] = references program := by
  rw [references_cons, references_nil, List.append_nil, Token.references]

theorem allResolved_group :
    allResolved env [.group name provider source tokens program]
      = allResolved (env.asking provider) program := by
  rw [allResolved, allResolved, Bool.and_true, Token.isResolved]

/-- A group by itself has the value, or the failure, of its program where its provider is asked. -/
theorem valueOf_group (hne : program ≠ []) :
    valueOf lib env [.group name provider source tokens program]
      = valueOf lib (env.asking provider) program := by
  rw [valueOf, execute_singleton, Token.execute_group hne]
  cases valueOf lib (env.asking provider) program with
  | error e => rfl
  | ok v => rfl

end Groups

namespace Formula

/-- Whether a formula is another one in parentheses: a single group, which has the provider of the
other one and holds its tokens in both orders. It has the same names and the same value whatever
they are bound to, but it does not compare. -/
structure Encloses (source : String) (g f : Formula) : Prop where
  provider_eq : g.provider = f.provider
  tokens_eq : g.tokens = [.group source f.provider source f.tokens f.program]
  references_eq : g.references = f.references
  unresolved_eq : ∀ bindings, g.unresolved bindings = f.unresolved bindings
  isResolved_eq : ∀ bindings, g.isResolved bindings = f.isResolved bindings
  value_eq : ∀ lib bindings, g.value lib bindings = f.value lib bindings
  isComparison_eq : g.isComparison = .ok false

/-- **Groups stand for what is in them.** A formula that is a single group encloses the formula that
the group holds. -/
theorem encloses_of_group {source : String} {f g : Formula} (hf : f.IsGenerated)
    (hprovider : g.provider = f.provider)
    (htokens : g.tokens = [.group source f.provider source f.tokens f.program])
    (hprogram : g.program = [.group source f.provider source f.tokens f.program]) :
    Encloses source g f := by
  have hshape : checkShape g.program = .ok () := by
    rw [hprogram]
    rfl
  have hreferences : g.references = f.references := by
    rw [references, references, hprogram, references_group]
  refine ⟨hprovider, htokens, hreferences, fun bindings => ?_, fun bindings => ?_,
    fun lib bindings => ?_, ?_⟩
  · rw [unresolved, unresolved, hprogram, Formulary.unresolved, references_group, environment,
      hprovider]
    rfl
  · rw [isResolved, isResolved, hprogram, allResolved_group]
    rfl
  · rw [value_of_checkShape hshape, hprogram, valueOf_group hf.program_ne_nil, hf.value_eq]
    rfl
  · rw [isComparison, whenGenerated_of_checkShape hshape, hprogram]
    rfl

end Formula

/-- **Parentheses.** The parentheses of a formula match. A text that is not blank and whose
parentheses match fails in parentheses in the way in which it fails by itself; or else it is a
formula by itself and in parentheses, and the second formula encloses the first one. -/
theorem generate_parens (provider : Provider) (t : String) :
    (∀ name f, (Formula.ofText name provider t).generate = (f, .ok ()) →
      CountsMatch (Text.visible t)) ∧
    (Text.visible t ≠ [] → CountsMatch (Text.visible t) → ∀ name name',
      (∃ e, (Formula.ofText name provider t).generate.2 = .error e ∧
        (Formula.ofText name' provider ("(" ++ t ++ ")")).generate.2 = .error e) ∨
      ∃ f g, (Formula.ofText name provider t).generate = (f, .ok ()) ∧
        (Formula.ofText name' provider ("(" ++ t ++ ")")).generate = (g, .ok ()) ∧
        scan provider ("(" ++ t ++ ")") = .ok g.tokens ∧
        g.Encloses (String.ofList (Text.visible t)) f) := by
  constructor
  · intro name f h
    obtain ⟨p, hp, -⟩ := Formula.exists_parse_of_generate h
    exact balanced_iff_countsMatch.mp (balanced_of_parse hp).1
  · intro hne hcounts name name'
    have hparens := parse_parens (balanced_iff_countsMatch.mpr hcounts) hne provider
    cases hparse : parse provider t with
    | error e =>
      rw [hparse] at hparens
      refine .inl ⟨e, ?_, ?_⟩
      · rw [Formula.generate_of_parse_error (f := .ofText name provider t) hparse]
      · rw [Formula.generate_of_parse_error (f := .ofText name' provider ("(" ++ t ++ ")"))
          hparens]
    | ok p =>
      rw [hparse] at hparens
      replace hparens : parse provider ("(" ++ t ++ ")") = .ok _ := hparens
      have hf := Formula.generate_of_parse (f := .ofText name provider t) hparse
      have hg := Formula.generate_of_parse (f := .ofText name' provider ("(" ++ t ++ ")")) hparens
      refine .inr ⟨_, _, hf, hg, (parse_eq_ok_iff.mp hparens).1, ?_⟩
      exact Formula.encloses_of_group (Formula.isGenerated_of_generate hf) rfl rfl rfl

/-- What is in the parentheses of `(a<(b))` compares, but the formula does not. -/
theorem generate_parens_comparison :
    ∃ f g, (Formula.ofText "f" .sole "a<(b)").generate = (f, .ok ()) ∧ f.isComparison = .ok true ∧
      CountsMatch (Text.visible "a<(b)") ∧
      (Formula.ofText "g" .sole "(a<(b))").generate = (g, .ok ()) ∧ g.Encloses "a<(b)" f := by
  have hb : parse .sole "b" = .ok ⟨[.reference "b"], [.reference "b"]⟩ :=
    parse_name (show Text.visible "b" = ['b'] by decide) rfl (by simp) (by decide)
  let a : Name := ⟨'a', [], rfl, by simp, by decide⟩
  have hlexes : Lexes true (a.text ++ (Symbol.less.text.toList ++ ('(' :: ['b'] ++ [')'] ++ [])))
      [.reference "a", .operator (.binary .less), .group "b"] :=
    .cons (.reference a rfl) (.cons (.binary rfl (by rintro ⟨⟩) (by rintro _ ⟨⟩; rfl))
      (.cons (.group rfl (by simp)) (.nil _)))
  have hparse : parse .sole "a<(b)" = .ok ⟨_, _⟩ :=
    parse_of_lexes hlexes (.cons rfl (.cons rfl (.cons (Lexeme.token_group hb) .nil))) rfl
  have hf := Formula.generate_of_parse (f := .ofText "f" .sole "a<(b)") hparse
  obtain ⟨hmatch, hparens⟩ := generate_parens .sole "a<(b)"
  have hcounts := hmatch "f" _ hf
  rcases hparens (by decide) hcounts "f" "g" with ⟨e, herror, -⟩ | ⟨f, g, hf', hg, -, hencloses⟩
  · rw [hf] at herror
    cases herror
  · refine ⟨f, g, hf', ?_, hcounts, hg, hencloses⟩
    rw [hf] at hf'
    cases hf'
    rw [Formula.isComparison, Formula.whenGenerated_of_checkShape (checkShape_of_parse hparse)]
    rfl

end Formulary
